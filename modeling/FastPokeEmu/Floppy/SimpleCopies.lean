import FastPokeEmu.Floppy.PostList

/-! Simple aggregation (mode 1): after a test every output is copied to words that are picked
at random (`copy_mem_write` and `copy_reg_write` of `gen_floppy_image.py`).
-/

namespace FastPokeEmu.Floppy

open ByteMemory List

variable {op : Operand} {st next : GenState} {ops : List Operand}

/-- `get_addr(s, True)`: the picker is not told what it has handed out before. Python
refuses a range with step zero.
-/
def getAddrRandom (choices : Choices) (s : Nat) (st : GenState)
    : Option (List Nat × GenState) :=
  let words := (s + 3) / 4
  if words = 0 then none
  else
    some ((List.range words).map (fun i => choices.scratch st.draws + 4 * i),
      { st with draws := st.draws + 1 })

/-- Every word that is picked receives the text of the whole operand. -/
def copyMemWrite (inst : Inst) (choices : Choices) (op : Operand) (st : GenState)
    : Option (Emitted × GenState) :=
  let opStr := (getMemOp inst 0).1
  if (inst.memory 0).written then do
    let (l, next) ← getAddrRandom choices op.len st
    some (⟨[], [], l.map (fun val => genStoreMem st.tables opStr (.abs val)), []⟩, next)
  else some (.none, st)

def copyRegWrite (choices : Choices) (op : Operand) (name : Option RegName) (st : GenState)
    : Option (Emitted × GenState) :=
  match name with
  | none => some (.none, st)
  | some name =>
    if op.len = 0 then some (.none, st)
    else if op.access = .read then some (.none, st)
    else do
      let (l, next) ← getAddrRandom choices op.len st
      let dest ← l.head?
      let g ← genReg2Mem st.tables name dest op.len
      some (⟨[], [], [g], []⟩, next)

/-- What `gen_root` emits in mode 1. The first address is picked for a gadget that is not
used.
-/
def genSimpleRoot (inst : Inst) (choices : Choices) (st : GenState)
    : Option (List Gadget × GenState) := do
  let (_, st) ← getAddrRandom choices 4 st
  let (e, st) ← handleOp (copyMemWrite inst choices) (copyRegWrite choices) inst.operands st
  some (e.feistel, st)

/-- The state of the generator in mode 1, after some random choices. -/
def GenState.drawn (draws : Nat) : GenState := { GenState.start with draws := draws }

/-- No operand is entered in the dictionaries in mode 1. -/
def Tables.empty : Tables := ⟨⟨[], []⟩, ⟨[], []⟩, [], []⟩

/-- One gadget of mode 1: an operand, and the first word that the gadget writes. -/
structure Copy where
  op : Operand
  dest : Nat
  deriving DecidableEq, Repr

namespace Inst

variable (inst : Inst)

def copiesReg (op : Operand) : Bool :=
  match op.kind with
  | .reg (some _) => op.len ≠ 0 && op.access ≠ .read
  | _ => false

def copiesMem (op : Operand) : Bool :=
  match op.kind with
  | .mem _ => (inst.memory 0).written
  | _ => false

/-- Operands for which words are picked, in the order of the picks. -/
def copied : List Operand := inst.operands.filter copiesReg ++ inst.operands.filter inst.copiesMem

end Inst

/-- Operands with the first word picked for each. -/
def picks (choices : Choices) : List Operand → Nat → List (Operand × Nat)
  | [], _ => []
  | op :: rest, draw => (op, choices.scratch draw) :: picks choices rest (draw + 1)

theorem picks_append (choices : Choices) (front back : List Operand) (draw : Nat)
    : picks choices (front ++ back) draw
      = picks choices front draw ++ picks choices back (draw + front.length) := by
  induction front generalizing draw with
  | nil => rfl
  | cons op rest ih =>
    simp only [cons_append, picks, ih, length_cons]
    rw [show draw + 1 + rest.length = draw + (rest.length + 1) by omega]

theorem mem_of_picks {choices : Choices} {draw : Nat} {pick : Operand × Nat}
    (mem : pick ∈ picks choices ops draw)
    : pick.1 ∈ ops := by
  induction ops generalizing draw with
  | nil => cases mem
  | cons op rest ih =>
    rcases mem_cons.mp mem with rfl | later
    · exact mem_cons_self
    · exact mem_cons_of_mem _ (ih later)

theorem exists_picks {choices : Choices} (mem : op ∈ ops) (draw : Nat)
    : ∃ dest, (op, dest) ∈ picks choices ops draw := by
  induction ops generalizing draw with
  | nil => cases mem
  | cons first rest ih =>
    rcases mem_cons.mp mem with rfl | later
    · exact ⟨_, mem_cons_self⟩
    · obtain ⟨dest, inside⟩ := ih later (draw + 1)
      exact ⟨dest, mem_cons_of_mem _ inside⟩

/-- The gadgets for one operand: one for each word of a memory operand. -/
def copiesOf (pick : Operand × Nat) : List Copy :=
  match pick.1.kind with
  | .mem _ => (List.range ((pick.1.len + 3) / 4)).map (fun i => ⟨pick.1, pick.2 + 4 * i⟩)
  | _ => [⟨pick.1, pick.2⟩]

def Copy.gadget (inst : Inst) (c : Copy) : Option Gadget :=
  match c.op.kind with
  | .reg (some name) => genReg2Mem .empty name c.dest c.op.len
  | .mem _ => some (genStoreMem .empty (inst.text 0) (.abs c.dest))
  | _ => none

namespace Inst

variable (inst : Inst)

/-- The words picked for the operands of a test. -/
def picked (choices : Choices) (draws : Nat) : List (Operand × Nat) :=
  picks choices inst.copied (draws + 1)

def copies (choices : Choices) (draws : Nat) : List Copy :=
  (inst.picked choices draws).flatMap copiesOf

end Inst

theorem getAddrRandom_spec {choices : Choices} {s : Nat} {l : List Nat}
    (res : getAddrRandom choices s st = some (l, next))
    : 0 < (s + 3) / 4
      ∧ l = (List.range ((s + 3) / 4)).map (fun i => choices.scratch st.draws + 4 * i)
      ∧ next = { st with draws := st.draws + 1 } := by
  simp only [getAddrRandom] at res
  split at res
  · cases res
  · cases res
    exact ⟨by omega, rfl, rfl⟩

section

variable {inst : Inst} {choices : Choices}

/-- The gadgets belong to the copies, one by one. -/
abbrev Emits (inst : Inst) : List Copy → List Gadget → Prop :=
  List.Forall₂ (fun c g => c.gadget inst = some g)

theorem copyMemWrite_spec {n : Nat} (kind : op.kind = .mem n) {e : Emitted}
    (tables : st.tables = .empty) (res : copyMemWrite inst choices op st = some (e, next))
    : (inst.copiesMem op = false ∧ e.feistel = [] ∧ next = st)
      ∨ (inst.copiesMem op = true
        ∧ Emits inst (copiesOf (op, choices.scratch st.draws)) e.feistel
        ∧ next = { st with draws := st.draws + 1 }) := by
  simp only [copyMemWrite, Inst.copiesMem, kind] at res ⊢
  split at res
  next written =>
    simp only [Option.bind_eq_bind, Option.bind_eq_some_iff, Prod.exists] at res
    obtain ⟨l, after, picked, final⟩ := res
    obtain ⟨_, rfl, rfl⟩ := getAddrRandom_spec picked
    cases final
    refine Or.inr ⟨written, ?_, rfl⟩
    simp only [copiesOf, kind, map_map, forall₂_map_left_iff,
      forall₂_map_right_iff, forall₂_same, tables]
    intro i _
    simp [Copy.gadget, kind, Inst.text]
  next unwritten =>
    cases res
    exact Or.inl ⟨by simpa using unwritten, rfl, rfl⟩

theorem copyRegWrite_spec (inst : Inst) {name : Option RegName} (kind : op.kind = .reg name)
    {e : Emitted} (tables : st.tables = .empty)
    (res : copyRegWrite choices op name st = some (e, next))
    : (Inst.copiesReg op = false ∧ e.feistel = [] ∧ next = st)
      ∨ (Inst.copiesReg op = true
        ∧ Emits inst (copiesOf (op, choices.scratch st.draws)) e.feistel
        ∧ next = { st with draws := st.draws + 1 }) := by
  cases name with
  | none =>
    cases res
    exact Or.inl ⟨by simp [Inst.copiesReg, kind], rfl, rfl⟩
  | some name =>
    simp only [copyRegWrite] at res
    split at res
    next empty =>
      cases res
      exact Or.inl ⟨by simp [Inst.copiesReg, kind, empty], rfl, rfl⟩
    next long =>
      split at res
      next isRead =>
        cases res
        exact Or.inl ⟨by simp [Inst.copiesReg, kind, isRead], rfl, rfl⟩
      next written =>
        simp only [Option.bind_eq_bind, Option.bind_eq_some_iff, Prod.exists] at res
        obtain ⟨l, after, picked, dest, first, g, made, final⟩ := res
        obtain ⟨pos, rfl, rfl⟩ := getAddrRandom_spec picked
        cases final
        have isFirst : dest = choices.scratch st.draws := by
          obtain ⟨k, words⟩ := Nat.exists_eq_succ_of_ne_zero pos.ne'
          rw [words, range_succ_eq_map] at first
          simpa using first.symm
        refine Or.inr ⟨by simp [Inst.copiesReg, kind, long, written], ?_, rfl⟩
        rw [tables, isFirst] at made
        simp only [copiesOf, kind]
        exact .cons (by simpa [Copy.gadget, kind] using made) .nil

/-- A pass over the operands that copies some of them. -/
theorem foldlM_copies (inst : Inst) (choices : Choices) (copied : Operand → Bool)
    {step : Emitted × GenState → Operand → Option (Emitted × GenState)}
    (each
      : ∀ acc op acc',
          acc.2.tables = .empty
          → step acc op = some acc'
          → (copied op = false ∧ acc'.1.feistel = acc.1.feistel ∧ acc'.2 = acc.2)
            ∨ (copied op = true
              ∧ (∃ gs, acc'.1.feistel.Perm (acc.1.feistel ++ gs)
                ∧ Emits inst (copiesOf (op, choices.scratch acc.2.draws)) gs)
              ∧ acc'.2 = { acc.2 with draws := acc.2.draws + 1 }))
    {acc acc' : Emitted × GenState} (tables : acc.2.tables = .empty)
    (res : ops.foldlM step acc = some acc')
    : (∃ gs, acc'.1.feistel.Perm (acc.1.feistel ++ gs)
        ∧ Emits inst ((picks choices (ops.filter copied) acc.2.draws).flatMap copiesOf) gs)
      ∧ acc'.2 = { acc.2 with draws := acc.2.draws + (ops.filter copied).length } := by
  induction ops generalizing acc with
  | nil =>
    cases res
    exact ⟨⟨[], by simp, .nil⟩, rfl⟩
  | cons op rest ih =>
    simp only [foldlM_cons, Option.bind_eq_bind, Option.bind_eq_some_iff] at res
    obtain ⟨middle, first, later⟩ := res
    rcases each acc op middle tables first with ⟨skipped, same, next⟩ | ⟨isCopied, here, next⟩
    · rw [filter_cons_of_neg (by simp [skipped]), ← same, ← next]
      exact ih (by rw [next]; exact tables) later
    · obtain ⟨gs, perm, emits⟩ := here
      obtain ⟨⟨gs', perm', emits'⟩, final⟩ := ih (by rw [next]; exact tables) later
      rw [next] at emits' final
      rw [filter_cons_of_pos isCopied]
      refine ⟨⟨gs ++ gs', ?_, ?_⟩, ?_⟩
      · rw [← append_assoc]
        exact perm'.trans (perm.append_right _)
      · simp only [picks, flatMap_cons]
        exact rel_append emits emits'
      · rw [final, length_cons]
        simp only [GenState.mk.injEq, true_and]
        omega

/-- The output list of a test holds exactly the gadgets of its copies. -/
theorem genSimpleRoot_spec {draws : Nat} {output : List Gadget} {after : GenState}
    (made : genSimpleRoot inst choices (.drawn draws) = some (output, after))
    : ∃ gs, output.Perm gs ∧ Emits inst (inst.copies choices draws) gs := by
  simp only [genSimpleRoot, handleOp, Option.bind_eq_bind, Option.bind_eq_some_iff,
    Prod.exists] at made
  obtain ⟨_, first, drawn, e, last, ⟨e', middle, regs, mems⟩, final⟩ := made
  cases final
  obtain ⟨_, _, rfl⟩ := getAddrRandom_spec drawn
  have regPass := foldlM_copies inst choices Inst.copiesReg ?_ rfl regs
  · obtain ⟨⟨gs, perm, emits⟩, rfl⟩ := regPass
    have memPass := foldlM_copies inst choices inst.copiesMem ?_ rfl mems
    · obtain ⟨⟨gs', perm', emits'⟩, _⟩ := memPass
      refine ⟨gs ++ gs', ?_, ?_⟩
      · simpa [Emitted.none] using perm'.trans (perm.append_right gs')
      · rw [Inst.copies, Inst.picked, Inst.copied, picks_append, flatMap_append]
        exact rel_append emits emits'
    · intro acc op acc' tables res
      split at res
      next n kind =>
        simp only [Option.bind_eq_some_iff, Prod.exists, Option.some.injEq] at res
        obtain ⟨e, next, here, rfl⟩ := res
        rcases copyMemWrite_spec kind tables here with
          ⟨skipped, nothing, same⟩ | ⟨isCopied, emits, same⟩
        · exact Or.inl ⟨skipped, by simp [Emitted.append, nothing], same⟩
        · exact Or.inr ⟨isCopied, ⟨e.feistel, .rfl, emits⟩, same⟩
      next other =>
        cases res
        refine Or.inl ⟨?_, rfl, rfl⟩
        cases kind : op.kind with
        | mem n => exact absurd kind (other n)
        | _ => simp [Inst.copiesMem, kind]
  · intro acc op acc' tables res
    split at res
    next name kind =>
      simp only [Option.bind_eq_some_iff, Prod.exists, Option.some.injEq] at res
      obtain ⟨e, next, here, rfl⟩ := res
      rcases copyRegWrite_spec inst kind tables here with
        ⟨skipped, nothing, same⟩ | ⟨isCopied, emits, same⟩
      · refine Or.inl ⟨skipped, ?_, same⟩
        split <;> simp [Emitted.append, Emitted.appendEflags, nothing]
      · refine Or.inr ⟨isCopied, ⟨e.feistel, ?_, emits⟩, same⟩
        -- copies of EFLAGS go to the front
        split
        · exact perm_append_comm
        · exact .rfl
    next other =>
      cases res
      refine Or.inl ⟨?_, rfl, rfl⟩
      cases kind : op.kind with
      | reg name => exact absurd kind (other name)
      | _ => simp [Inst.copiesReg, kind]

end

end FastPokeEmu.Floppy
