import FastPokeEmu.Floppy.Root
import FastPokeEmu.Library.Folds
import Mathlib.Algebra.GroupWithZero.Nat

/-! What the two passes over the operands emit.
The operands ask for registers and 4-byte blocks, one after the other; each of them gets
the words of the next index. The passes are described by the list of these requests,
independently of the generator's state.
-/

namespace FastPokeEmu.Floppy

open List
open Option (bind_eq_bind bind_eq_some_iff)

/-- A register, or one block of the memory operand. -/
inductive Item
  | reg (name : RegName) (len : Nat)
  | block (idx : Nat)
  deriving DecidableEq, Repr

/-- Number of words an item takes. -/
def Item.width : Item → Nat
  | .reg _ len => (len + 3) / 4
  | .block _ => 1

def totalWidth (items : List Item) : Nat := (items.map Item.width).sum

/-- Items with the index of their first word. -/
def indexed (start : Nat) : List Item → List (Nat × Item)
  | [] => []
  | item :: rest => (start, item) :: indexed (start + item.width) rest

namespace Inst

variable (inst : Inst)

/-- Text of a block of the memory operand. -/
def text (idx : Nat) : MemOp := (getMemOp inst (idx * 4)).1

def key : Item → Key
  | .reg name _ => .reg name
  | .block idx => .mem (inst.text idx)

/-- What the first pass asks for on behalf of an operand. -/
def loadItems (op : Operand) : List Item :=
  match op.kind with
  | .reg (some name) =>
    if inst.ltr ∨ op.len = 0 ∨ op.access = .write then [] else [.reg name op.len]
  | .mem _ =>
    if inst.popCategory ∨ (inst.memory 0).read = false then []
    else (List.range (max ((op.len + 3) / 4) 1)).map .block
  | _ => []

/-- What the second pass asks for on behalf of an operand. -/
def storeItems (op : Operand) : List Item :=
  match op.kind with
  | .reg (some name) => if op.len = 0 ∨ op.access = .read then [] else [.reg name op.len]
  | .mem _ => if (inst.memory 0).written then (List.range ((op.len + 3) / 4)).map .block else []
  | _ => []

/-- Register operands come before memory operands. -/
def arranged : List Operand :=
  inst.operands.filter (fun op => op.kind matches .reg _)
  ++ inst.operands.filter (fun op => op.kind matches .mem _)

/-- pyxed reports a length for every memory operand. -/
def Decoded : Prop := ∀ op ∈ inst.operands, ∀ n, op.kind = .mem n → op.len ≠ 0

def loads : List Item := inst.arranged.flatMap inst.loadItems

def stores : List Item := inst.arranged.flatMap inst.storeItems

end Inst

theorem Inst.mem_of_arranged {inst : Inst} {op : Operand} (mem : op ∈ inst.arranged)
    : op ∈ inst.operands := by
  rcases mem_append.mp mem with here | here
  · exact mem_of_mem_filter here
  · exact mem_of_mem_filter here

/-- What an operand asks for: its register as a whole, or blocks of memory. -/
inductive Operand.Asks (op : Operand) : List Item → Prop
  | nothing : op.Asks []
  | reg (name : RegName) (positive : op.len ≠ 0) : op.Asks [.reg name op.len]
  | blocks {n : Nat} (few : n ≤ max ((op.len + 3) / 4) 1) : op.Asks ((List.range n).map .block)

theorem Inst.loadItems_asks (inst : Inst) (op : Operand) : op.Asks (inst.loadItems op) := by
  unfold Inst.loadItems
  split
  · split
    · exact .nothing
    next reads =>
      exact .reg _ (fun empty => reads (.inr (.inl empty)))
  · split
    · exact .nothing
    · exact .blocks (Nat.le_refl _)
  · exact .nothing

theorem Inst.storeItems_asks (inst : Inst) (op : Operand) : op.Asks (inst.storeItems op) := by
  unfold Inst.storeItems
  split
  · split
    · exact .nothing
    next writes =>
      exact .reg _ (fun empty => writes (.inl empty))
  · split
    · exact .blocks (le_max_left ..)
    · exact .nothing
  · exact .nothing

theorem Inst.asks {inst : Inst} {item : Item} (mem : item ∈ inst.loads ++ inst.stores)
    : ∃ op ∈ inst.operands, ∃ items, op.Asks items ∧ item ∈ items := by
  rcases mem_append.mp mem with here | here
  all_goals obtain ⟨op, inside, there⟩ := mem_flatMap.mp here
  · exact ⟨op, Inst.mem_of_arranged inside, _, inst.loadItems_asks op, there⟩
  · exact ⟨op, Inst.mem_of_arranged inside, _, inst.storeItems_asks op, there⟩

theorem Inst.width_pos {inst : Inst} {item : Item} (mem : item ∈ inst.loads ++ inst.stores)
    : 0 < item.width := by
  obtain ⟨op, _, _, asks, inside⟩ := Inst.asks mem
  cases asks with
  | nothing => cases inside
  | reg name pos =>
    rw [mem_singleton.mp inside, Item.width]
    omega
  | blocks =>
    obtain ⟨idx, _, rfl⟩ := mem_map.mp inside
    exact Nat.one_pos

theorem totalWidth_append (left right : List Item)
    : totalWidth (left ++ right) = totalWidth left + totalWidth right := by
  simp [totalWidth]

theorem totalWidth_blocks (idxs : List Nat) : totalWidth (idxs.map .block) = idxs.length := by
  induction idxs with
  | nil => rfl
  | cons idx rest ih =>
    simp only [totalWidth, map_cons, sum_cons, length_cons, Item.width]
      at ih ⊢
    omega

theorem indexed_append (start : Nat) (left right : List Item)
    : indexed start (left ++ right)
      = indexed start left ++ indexed (start + totalWidth left) right := by
  induction left generalizing start with
  | nil => simp [indexed, totalWidth]
  | cons item rest ih => simp [indexed, ih, totalWidth, Nat.add_assoc]

theorem indexed_map_snd (start : Nat) (items : List Item)
    : (indexed start items).map Prod.snd = items := by
  induction items generalizing start with
  | nil => rfl
  | cons item rest ih => simp [indexed, ih]

theorem indexed_bounds {start : Nat} {items : List Item} {entry : Nat × Item}
    (mem : entry ∈ indexed start items)
    : start ≤ entry.1 ∧ entry.1 + entry.2.width ≤ start + totalWidth items := by
  induction items generalizing start with
  | nil => cases mem
  | cons item rest ih =>
    rcases mem_cons.mp mem with rfl | later
    · simp [totalWidth]
    · obtain ⟨low, high⟩ := ih later
      simp only [totalWidth, map_cons, sum_cons] at high ⊢
      omega

theorem indexed_pairwise (start : Nat) (items : List Item)
    : (indexed start items).Pairwise (fun a b => a.1 + a.2.width ≤ b.1) := by
  induction items generalizing start with
  | nil => exact .nil
  | cons item rest ih => exact .cons (fun entry mem => (indexed_bounds mem).1) (ih _)

theorem indexed_shift (start : Nat) (items : List Item)
    : indexed start items = (indexed 0 items).map (fun entry => (start + entry.1, entry.2)) := by
  induction items generalizing start with
  | nil => rfl
  | cons item rest ih =>
    simp only [indexed, map_cons, Nat.add_zero, Nat.zero_add]
    rw [ih (start + item.width), ih item.width, map_map]
    simp [Function.comp_def, Nat.add_assoc]

/-- The lists of words only grow at their end. -/
structure GenState.Extends (st st' : GenState) : Prop where
  r : st.feistelR <+: st'.feistelR
  rBak : st.feistelRBak <+: st'.feistelRBak
  l : st.feistelL <+: st'.feistelL
  ins : st.feistelIn <+: st'.feistelIn
  outs : st.feistelOut <+: st'.feistelOut

namespace GenState.Extends

theorem refl (st : GenState) : st.Extends st :=
  ⟨prefix_rfl, prefix_rfl, prefix_rfl, prefix_rfl, prefix_rfl⟩

theorem same {st st' : GenState} (r : st'.feistelR = st.feistelR)
    (rBak : st'.feistelRBak = st.feistelRBak) (l : st'.feistelL = st.feistelL)
    (ins : st'.feistelIn = st.feistelIn) (outs : st'.feistelOut = st.feistelOut)
    : st.Extends st' :=
  ⟨r ▸ prefix_rfl, rBak ▸ prefix_rfl, l ▸ prefix_rfl, ins ▸ prefix_rfl, outs ▸ prefix_rfl⟩

theorem trans {st st' st'' : GenState} (first : st.Extends st') (second : st'.Extends st'')
    : st.Extends st'' :=
  ⟨first.r.trans second.r, first.rBak.trans second.rBak, first.l.trans second.l,
    first.ins.trans second.ins, first.outs.trans second.outs⟩

end GenState.Extends

theorem getElem?_of_shorter {α : Type} {short long : List α} (grows : short <+: long)
    {i : Nat} {a : α} (here : short[i]? = some a)
    : long[i]? = some a := by
  obtain ⟨rest, rfl⟩ := grows
  rw [List.getElem?_append_left (List.getElem?_eq_some_iff.mp here).1, here]

/-- Every item has consecutive words. -/
def Contiguous (items : List Item) (words : List Nat) : Prop :=
  ∀ entry ∈ indexed 0 items,
    ∃ a, ∀ j < entry.2.width, words[entry.1 + j]? = some (a + 4 * j)

namespace Contiguous

variable {items more : List Item} {words new : List Nat}

theorem nil (words : List Nat) : Contiguous [] words := by
  intro entry mem
  cases mem

theorem mono (contiguous : Contiguous items words) (grows : words <+: new)
    : Contiguous items new := by
  intro entry mem
  obtain ⟨a, each⟩ := contiguous entry mem
  exact ⟨a, fun j small => getElem?_of_shorter grows (each j small)⟩

theorem append (first : Contiguous items words) (length : words.length = totalWidth items)
    (second : Contiguous more new)
    : Contiguous (items ++ more) (words ++ new) := by
  intro entry mem
  rw [indexed_append, Nat.zero_add, indexed_shift (totalWidth items)] at mem
  rcases mem_append.mp mem with here | there
  · exact first.mono (prefix_append words new) entry here
  · obtain ⟨later, inside, rfl⟩ := mem_map.mp there
    obtain ⟨a, each⟩ := second later inside
    refine ⟨a, fun j small => ?_⟩
    rw [List.getElem?_append_right (by omega), ← each j small]
    congr 1
    omega

theorem single (item : Item) (a : Nat) {n : Nat} (enough : item.width ≤ n)
    : Contiguous [item] ((List.range n).map (fun i => a + 4 * i)) := by
  intro entry mem
  rw [mem_singleton.mp mem]
  refine ⟨a, fun j small => ?_⟩
  have inside : j < n := Nat.lt_of_lt_of_le small enough
  simp [inside]

theorem blocks {idxs : List Nat} (enough : idxs.length ≤ words.length)
    : Contiguous (idxs.map .block) words := by
  intro entry mem
  have bound := (indexed_bounds mem).2
  have item : entry.2 ∈ idxs.map Item.block := by
    rw [← indexed_map_snd 0 (idxs.map Item.block)]
    exact mem_map_of_mem mem
  obtain ⟨idx, _, isBlock⟩ := mem_map.mp item
  rw [totalWidth_blocks, ← isBlock] at bound
  simp only [Item.width] at bound
  refine ⟨words[entry.1], fun j small => ?_⟩
  rw [← isBlock] at small
  have zero : j = 0 := Nat.lt_one_iff.mp small
  simp [zero]

end Contiguous

/-- New words, and nothing else that the passes look at. -/
structure GenState.Grown (st st' : GenState) : Prop extends st.Extends st' where
  countR : st'.countR = st.countR
  countL : st'.countL = st.countL
  lRestore : st'.lRestore = st.lRestore
  inToReg : st'.inToReg = st.inToReg
  outToReg : st'.outToReg = st.outToReg

namespace GenState.Grown

theorem refl (st : GenState) : st.Grown st := ⟨.refl st, rfl, rfl, rfl, rfl, rfl⟩

theorem trans {st st' st'' : GenState} (first : st.Grown st') (second : st'.Grown st'')
    : st.Grown st'' :=
  ⟨first.toExtends.trans second.toExtends, second.countR.trans first.countR,
    second.countL.trans first.countL, second.lRestore.trans first.lRestore,
    second.inToReg.trans first.inToReg, second.outToReg.trans first.outToReg⟩

end GenState.Grown

/-- Some words from an address on. -/
def consecutive (a n : Nat) : List Nat := (List.range n).map (fun i => a + 4 * i)

@[simp] theorem length_consecutive (a n : Nat) : (consecutive a n).length = n := by
  simp [consecutive]

theorem consecutive_zero (a : Nat) : consecutive a 0 = [] := rfl

theorem getElem?_consecutive {a n i : Nat} (inside : i < n)
    : (consecutive a n)[i]? = some (a + 4 * i) := by
  simp [consecutive, inside]

theorem mem_consecutive {a n x : Nat} : x ∈ consecutive a n ↔ ∃ i < n, x = a + 4 * i := by
  simp [consecutive, eq_comm]

theorem getAddr_eq {s : Nat} {st st' : GenState} {f : List Nat}
    (res : getAddr s st = some (f, st'))
    : f = consecutive st.nextAddr (max ((s + 3) / 4) 1)
      ∧ st' = { st with nextAddr := st.nextAddr + 4 * ((s + 3) / 4) }
      ∧ st.nextAddr + 4 * ((s + 3) / 4) ≤ endAddr := by
  simp only [getAddr] at res
  split at res
  next fits =>
    cases res
    exact ⟨rfl, rfl, fits⟩
  · cases res

/-- Words in the five lists. -/
@[ext] structure Batch where
  r : List Nat
  rBak : List Nat
  l : List Nat
  ins : List Nat
  outs : List Nat

namespace Batch

def empty : Batch := ⟨[], [], [], [], []⟩

def append (b c : Batch) : Batch :=
  ⟨b.r ++ c.r, b.rBak ++ c.rBak, b.l ++ c.l, b.ins ++ c.ins, b.outs ++ c.outs⟩

def words (b : Batch) : List Nat := b.r ++ b.rBak ++ b.l ++ b.ins ++ b.outs

theorem words_append (b c : Batch) : (b.words ++ c.words).Perm (b.append c).words := by
  refine perm_iff_count.mpr fun a => ?_
  simp only [words, append, count_append]
  omega

theorem append_assoc (b c d : Batch) : (b.append c).append d = b.append (c.append d) := by
  simp [append]

@[simp] theorem append_empty (b : Batch) : b.append empty = b := by
  simp [append, empty]

/-- R blocks with their two backups. -/
def input (a s : Nat) : Batch :=
  ⟨consecutive a (max ((s + 3) / 4) 1),
    consecutive (a + 4 * ((s + 3) / 4)) (max ((s + 3) / 4) 1), [],
    consecutive (a + 4 * ((s + 3) / 4) + 4 * ((s + 3) / 4)) (max ((s + 3) / 4) 1), []⟩

/-- L blocks, and words for the original output. -/
def output (a s : Nat) : Batch :=
  ⟨[], [], consecutive a (max ((s + 3) / 4) 1), [],
    consecutive (a + 4 * ((s + 3) / 4)) (max ((s + 3) / 4) 1)⟩

end Batch

def GenState.batch (st : GenState) : Batch :=
  ⟨st.feistelR, st.feistelRBak, st.feistelL, st.feistelIn, st.feistelOut⟩

/-- The words from the allocation pointer on are added, and nothing else changes that the
passes look at.
-/
structure Allocates (k : Nat) (new : Batch) (st st' : GenState) : Prop where
  lists : st'.batch = st.batch.append new
  next : st'.nextAddr = st.nextAddr + 4 * k
  fits : st.nextAddr + 4 * k ≤ endAddr
  countR : st'.countR = st.countR
  countL : st'.countL = st.countL
  lRestore : st'.lRestore = st.lRestore
  inToReg : st'.inToReg = st.inToReg
  outToReg : st'.outToReg = st.outToReg

section

variable {isInit : Bool} {choices : Choices} {name : RegName} {len k upTo : Nat}
  {st st' : GenState} {new : Batch} {P : Nat → GenState → Prop}

theorem GenState.Extends.of_append (lists : st'.batch = st.batch.append new) : st.Extends st' := by
  simp only [batch, Batch.append, Batch.mk.injEq] at lists
  obtain ⟨r, rBak, l, ins, outs⟩ := lists
  exact ⟨⟨_, r.symm⟩, ⟨_, rBak.symm⟩, ⟨_, l.symm⟩, ⟨_, ins.symm⟩, ⟨_, outs.symm⟩⟩

theorem Allocates.grown (allocates : Allocates k new st st') : st.Grown st' :=
  ⟨.of_append allocates.lists, allocates.countR, allocates.countL, allocates.lRestore,
    allocates.inToReg, allocates.outToReg⟩

theorem getAddr_three {f rBak bak : List Nat} {st1 st2 st3 : GenState}
    (first : getAddr len st = some (f, st1)) (second : getAddr len st1 = some (rBak, st2))
    (third : getAddr len st2 = some (bak, st3))
    : Batch.input st.nextAddr len = ⟨f, rBak, [], bak, []⟩
      ∧ st3 = { st with nextAddr := st.nextAddr + 4 * (3 * ((len + 3) / 4)) }
      ∧ st.nextAddr + 4 * (3 * ((len + 3) / 4)) ≤ endAddr := by
  obtain ⟨rfl, rfl, _⟩ := getAddr_eq first
  obtain ⟨rfl, rfl, _⟩ := getAddr_eq second
  obtain ⟨rfl, rfl, fits⟩ := getAddr_eq third
  have total : st.nextAddr + 4 * ((len + 3) / 4) + 4 * ((len + 3) / 4) + 4 * ((len + 3) / 4)
      = st.nextAddr + 4 * (3 * ((len + 3) / 4)) := by omega
  exact ⟨rfl, by simp only [total], total ▸ fits⟩

theorem addInput_allocates (res : addInput name len st = some st')
    : Allocates (3 * ((len + 3) / 4)) (.input st.nextAddr len) st st' := by
  simp only [addInput, bind_eq_bind, bind_eq_some_iff, Prod.exists] at res
  obtain ⟨f, st1, first, rBak, st2, second, bak, st3, third, r, _, g, _, final⟩ := res
  obtain ⟨new, rfl, fits⟩ := getAddr_three first second third
  cases final
  exact ⟨by simp [new, GenState.batch, Batch.append], rfl, fits, rfl, rfl, rfl, rfl, rfl⟩

theorem addOutput_allocates (res : addOutput choices len st = some st')
    : Allocates (2 * ((len + 3) / 4)) (.output st.nextAddr len) st st' := by
  simp only [addOutput, bind_eq_bind, bind_eq_some_iff, Prod.exists] at res
  obtain ⟨l, st1, first, bak, st2, second, final⟩ := res
  obtain ⟨rfl, rfl, _⟩ := getAddr_eq first
  obtain ⟨rfl, rfl, fits⟩ := getAddr_eq second
  cases final
  refine ⟨by simp [GenState.batch, Batch.append, Batch.output], ?_, ?_, rfl, rfl, rfl, rfl, rfl⟩
  · show st.nextAddr + 4 * ((len + 3) / 4) + 4 * ((len + 3) / 4) = _
    omega
  · simp only at fits
    omega

theorem addBlock_grown {opStr : MemOp} {val rBak bak : Nat}
    (res : addBlock opStr val rBak bak st = some st')
    : st.Grown st' := by
  simp only [addBlock, bind_eq_bind, bind_eq_some_iff] at res
  obtain ⟨r, here, final⟩ := res
  cases final
  have appends {st' : GenState}
      (lists : st'.batch = st.batch.append ⟨[val], [rBak], [], [bak], []⟩)
      : st.Extends st' :=
    .of_append lists
  exact ⟨appends (by simp [GenState.batch, Batch.append]), rfl, rfl, rfl, rfl, rfl⟩

theorem padR_induction (start : P 0 st)
    (step : ∀ k st1 st2, P k st1 → Allocates 3 (.input st1.nextAddr 4) st1 st2 → P (k + 1) st2)
    (res : padR upTo st = some st')
    : P (upTo - st.feistelR.length) st' := by
  have invariant := Folds.foldlM_induction (P := fun done st => P done.length st) start ?_ res
  · simpa using invariant
  · intro done _ rest st1 st2 _ sofar next
    simp only [bind_eq_bind, bind_eq_some_iff, Prod.exists] at next
    obtain ⟨r, stA, first, rBak, stB, second, bak, stC, third, final⟩ := next
    obtain ⟨new, rfl, fits⟩ := getAddr_three first second third
    cases final
    rw [length_append]
    exact step _ _ _ sofar
      ⟨by simp [new, GenState.batch, Batch.append], rfl, fits, rfl, rfl, rfl, rfl, rfl⟩

/-- Two L blocks for exception data are added, and then R blocks. -/
theorem addExceptionBlocks_induction
    (start : ∀ st1, Allocates 2 ⟨[], [], consecutive st.nextAddr 2, [], []⟩ st st1 → P 0 st1)
    (step
      : ∀ k st1 st2,
          P k st1
          → Allocates 2 ⟨consecutive st1.nextAddr 1, consecutive (st1.nextAddr + 4) 1, [], [], []⟩
              st1 st2
          → P (k + 1) st2)
    (res : addExceptionBlocks choices st = some st')
    : P (st.feistelL.length + 2 - st.feistelR.length) st' := by
  simp only [addExceptionBlocks, bind_eq_bind, bind_eq_some_iff, Prod.exists]
    at res
  obtain ⟨l, st1, first, looped⟩ := res
  obtain ⟨rfl, rfl, fits⟩ := getAddr_eq first
  have invariant := Folds.foldlM_induction (P := fun done st => P done.length st) ?_ ?_ looped
  · simpa using invariant
  · exact start _ ⟨by simp [GenState.batch, Batch.append], rfl, fits, rfl, rfl, rfl, rfl, rfl⟩
  · intro done _ rest stA stB _ sofar next
    simp only [bind_eq_some_iff, Prod.exists] at next
    obtain ⟨r, stC, third, rBak, stD, fourth, final⟩ := next
    obtain ⟨rfl, rfl, _⟩ := getAddr_eq third
    obtain ⟨rfl, rfl, fits⟩ := getAddr_eq fourth
    cases final
    rw [length_append]
    exact step _ _ _ sofar
      ⟨by simp [GenState.batch, Batch.append], rfl, fits, rfl, rfl, rfl, rfl, rfl⟩

/-- More L blocks are added one by one. -/
theorem padL_induction (start : P 0 st)
    (step
      : ∀ k st1 st2,
          P k st1
          → Allocates 1 ⟨[], [], consecutive st1.nextAddr 1, [], []⟩ st1 st2
          → P (k + 1) st2)
    (res : padL choices st = some st')
    : P (st.feistelR.length - st.feistelL.length) st' := by
  have invariant := Folds.foldlM_induction (P := fun done st => P done.length st) start ?_ res
  · simpa using invariant
  · intro done _ rest stA stB _ sofar next
    simp only [bind_eq_bind, bind_eq_some_iff, Prod.exists] at next
    obtain ⟨l, stC, first, final⟩ := next
    obtain ⟨rfl, rfl, fits⟩ := getAddr_eq first
    cases final
    rw [length_append]
    exact step _ _ _ sofar
      ⟨by simp [GenState.batch, Batch.append], rfl, fits, rfl, rfl, rfl, rfl, rfl⟩

theorem whenInit_grown {add : GenState → Option GenState}
    (grows : ∀ {st st'}, add st = some st' → st.Grown st')
    (res : whenInit isInit add st = some st')
    : st.Grown st' := by
  cases isInit with
  | true => exact grows res
  | false =>
    cases res
    exact .refl _

theorem addInput_grown (res : addInput name len st = some st') : st.Grown st' :=
  (addInput_allocates res).grown

theorem addOutput_grown (res : addOutput choices len st = some st') : st.Grown st' :=
  (addOutput_allocates res).grown

theorem padR_grown (res : padR upTo st = some st') : st.Grown st' :=
  padR_induction (P := fun _ st' => st.Grown st') (.refl st)
    (fun _ _ _ sofar step => sofar.trans step.grown) res

theorem addExceptionBlocks_grown (res : addExceptionBlocks choices st = some st')
    : st.Grown st' :=
  addExceptionBlocks_induction (P := fun _ st' => st.Grown st') (fun _ first => first.grown)
    (fun _ _ _ sofar step => sofar.trans step.grown) res

theorem padL_grown (res : padL choices st = some st') : st.Grown st' :=
  padL_induction (P := fun _ st' => st.Grown st') (.refl st)
    (fun _ _ _ sofar step => sofar.trans step.grown) res

end

/-- All that was emitted, in order. -/
def collect (es : List Emitted) : Emitted :=
  ⟨es.flatMap Emitted.backup, es.flatMap Emitted.setinput, es.flatMap Emitted.feistel,
    es.flatMap Emitted.restore⟩

@[simp] theorem collect_singleton (e : Emitted) : collect [e] = e := by
  simp [collect]

theorem collect_append (left right : List Emitted)
    : collect (left ++ right) = (collect left).append (collect right) := by
  simp [collect, Emitted.append]

/-- Induction over the operands of a pass in the order in which they are handled. -/
theorem handleOp_induction {P : List Operand → Emitted → GenState → Prop}
    {handleMem : Operand → GenState → Option (Emitted × GenState)}
    {handleReg : Operand → Option RegName → GenState → Option (Emitted × GenState)}
    {inst : Inst} {st st' : GenState} {e : Emitted}
    (start : P [] .none st)
    (reg
      : ∀ done op name e st e' st',
          op ∈ inst.arranged
          → op.kind = .reg name
          → P done e st
          → handleReg op name st = some (e', st')
          → P (done ++ [op])
              (if name = some .eflags then e.appendEflags e' else e.append e') st')
    (mem
      : ∀ done op n e st e' st',
          op ∈ inst.arranged
          → op.kind = .mem n
          → P done e st
          → handleMem op st = some (e', st')
          → P (done ++ [op]) (e.append e') st')
    (res : handleOp handleMem handleReg inst.operands st = some (e, st'))
    : P inst.arranged e st' := by
  simp only [handleOp, bind_eq_bind, bind_eq_some_iff] at res
  obtain ⟨⟨eRegs, stRegs⟩, regs, mems⟩ := res
  have afterRegs := Folds.foldlM_induction
    (P := fun done (acc : Emitted × GenState) =>
      P (done.filter (fun op => op.kind matches .reg _)) acc.1 acc.2)
    (s := (Emitted.none, st)) start ?_ regs
  · have afterMems := Folds.foldlM_induction
      (P := fun done (acc : Emitted × GenState) =>
        P (inst.operands.filter (fun op => op.kind matches .reg _)
          ++ done.filter (fun op => op.kind matches .mem _)) acc.1 acc.2)
      (by simpa using afterRegs) ?_ mems
    · exact afterMems
    · rintro done op rest ⟨e1, st1⟩ ⟨e2, st2⟩ whole sofar next
      cases kind : op.kind with
      | mem n =>
        simp only [kind, bind_eq_some_iff, Prod.exists] at next
        obtain ⟨e', st3, handled, final⟩ := next
        cases final
        simpa [filter_append, kind] using
          mem _ op n _ _ _ _ (by simp [Inst.arranged, whole, kind]) kind sofar handled
      | reg | other =>
        simp only [kind] at next
        cases next
        simpa [filter_append, kind] using sofar
  · rintro done op rest ⟨e1, st1⟩ ⟨e2, st2⟩ whole sofar next
    cases kind : op.kind with
    | reg name =>
      simp only [kind, bind_eq_some_iff, Prod.exists] at next
      obtain ⟨e', st3, handled, final⟩ := next
      cases final
      simpa [filter_append, kind] using
        reg _ op name _ _ _ _ (by simp [Inst.arranged, whole, kind]) kind sofar handled
    | mem | other =>
      simp only [kind] at next
      cases next
      simpa [filter_append, kind] using sofar

/-- Dictionaries know the memory operand only. -/
def ToReg.Tidy (inst : Inst) (d : ToReg) : Prop := ∀ p ∈ d.mems, p = getMemOp inst 0

/-- Tables in use at some point before the final state. -/
structure Tables.Fits (inst : Inst) (fin : GenState) (tb : Tables) : Prop where
  ins : tb.inToReg.Tidy inst
  outs : tb.outToReg.Tidy inst
  feistelIn : tb.feistelIn <+: fin.feistelIn
  feistelOut : tb.feistelOut <+: fin.feistelOut

theorem Tables.Fits.mono {inst : Inst} {fin fin' : GenState} {tb : Tables}
    (fits : tb.Fits inst fin) (grows : fin.Extends fin')
    : tb.Fits inst fin' :=
  ⟨fits.ins, fits.outs, fits.feistelIn.trans grows.ins, fits.feistelOut.trans grows.outs⟩

end FastPokeEmu.Floppy
