import FastPokeEmu.Floppy.BlockRuns
import FastPokeEmu.Floppy.FeistelEffects
import FastPokeEmu.Floppy.RegisterRestores

/-! The words that gadgets access at the addresses of blocks.
A register is moved as a whole, at the address of its operand's first block, whatever length
the operand has. So a gadget leaves the blocks of its operand if these are fewer than the words
of the register, or if they do not follow each other.
-/

namespace FastPokeEmu.Floppy

open List Option

/-- Operands in memory that an instruction reads or writes, with the number of bytes. -/
def Ins.accesses : Ins → List (MemOp × Nat)
  | .load m r | .store r m | .aluMem _ m r | .cmpMem r m => [(m, r.part.bytes)]
  | .loadSeg m _ | .storeSeg _ m => [(m, 2)]
  | .loadExt n m _ | .storeExt n _ m | .pxorMem n m _ => [(m, n)]
  | .fldt m | .fstpt m => [(m, 10)]
  | .movlImm _ m | .andlMem _ m | .pushMem m | .popMem m | .movlLabel _ m => [(m, 4)]
  | .movbImm _ m => [(m, 1)]
  | _ => []

def accesses (asm : List Asm) : List (MemOp × Nat) := (Cpu.instructions asm).flatMap Ins.accesses

theorem accesses_append (left right : List Asm)
    : accesses (left ++ right) = accesses left ++ accesses right := by
  simp [accesses, Cpu.instructions]

theorem accesses_flatMap (gs : List Gadget)
    : accesses (gs.flatMap Gadget.asm) = gs.flatMap (fun g => accesses g.asm) := by
  induction gs with
  | nil => rfl
  | cons g rest ih => rw [flatMap_cons, accesses_append, ih, flatMap_cons]

theorem MemOp.abs_injective {a b : Nat} (same : MemOp.abs a = .abs b) : a = b := by
  simp only [MemOp.abs, MemOp.mk.injEq, Option.some.injEq] at same
  omega

theorem MemOp.plus_abs (a d : Nat) : (MemOp.abs a).plus d = .abs (a + d) := by
  simp [MemOp.abs, MemOp.plus]

/-- The blocks with the next indices. -/
def slice (words : List Nat) (i n : Nat) : List Nat := (words.drop i).take n

theorem mem_slice {words : List Nat} {i n x : Nat}
    : x ∈ slice words i n ↔ ∃ j < n, words[i + j]? = some x := by
  rw [slice, mem_iff_getElem?]
  constructor
  · rintro ⟨j, here⟩
    rw [List.getElem?_take] at here
    split at here
    next small =>
      rw [List.getElem?_drop] at here
      exact ⟨j, small, here⟩
    · cases here
  · rintro ⟨j, small, here⟩
    exact ⟨j, by rw [List.getElem?_take, if_pos small, List.getElem?_drop, here]⟩

theorem length_slice_le (words : List Nat) (i n : Nat) : (slice words i n).length ≤ n :=
  length_take_le _ _

/-- An access at the address of a block touches only words of one of the given lists. -/
def StaysIn (st : GenState) (own : List (List Nat)) (p : MemOp × Nat) : Prop :=
  ∀ a, p.1 = .abs a → a ∈ st.batch.words → ∃ c ∈ own, ∀ j, 4 * j < p.2 → a + 4 * j ∈ c

/-- All accesses of a gadget at addresses of blocks stay in the given lists. -/
def Confined (st : GenState) (own : List (List Nat)) (g : Gadget) : Prop :=
  ∀ p ∈ accesses g.asm, StaysIn st own p

/-- Blocks of an input, list by list. -/
def Load.own (st : GenState) (load : Load) : List (List Nat) :=
  [slice st.feistelR load.index load.item.width, slice st.feistelIn load.index load.item.width]

/-- Blocks of an output, list by list. -/
def Store.own (st : GenState) (store : Store) : List (List Nat) :=
  [slice st.feistelL store.index store.item.width,
    slice st.feistelR store.index store.item.width,
    slice st.feistelOut store.index store.item.width]

/-- The gadgets of every operand stay in the blocks of the operand, and copies between lists of
blocks in the blocks of one index. It is not about the gadgets that have no operand: those for
the initial R blocks, for exceptions and for surplus blocks.
-/
structure BlocksConfined (st : GenState) (root : Root) (loads : List Load)
    (stores : List Store)
    : Prop where
  loads
    : ∀ load ∈ loads,
        ∀ g ∈ load.emitted.backup ++ load.emitted.setinput ++ load.emitted.restore,
          Confined st (load.own st) g
  stores
    : ∀ store ∈ stores,
        ∀ g ∈ store.record :: (store.emitted.backup ++ store.emitted.restore),
          Confined st (store.own st) g
  backupR
    : ∀ i g,
        root.backupR[i]? = some g → Confined st [slice st.feistelR i 1, slice st.feistelRBak i 1] g
  update
    : ∀ i g,
        root.update[i]? = some g → Confined st [slice st.feistelRBak i 1, slice st.feistelL i 1] g

/-- Words of memory that are needed to hold a register. -/
def RegName.words : RegName → Nat
  | .st _ => 3
  | .xmm _ => 4
  | .xcr0 => 2
  | _ => 1

/-- Words that are accessed in each block where an operand is recorded: those of the
temporary.
-/
def recordWords (src2 : Source) (size : Nat) : Nat :=
  ((feistelTemp src2 size).map RegName.words).getD 1

/-- Operands with enough blocks. Recording through an XMM register needs four R blocks that
follow each other, so they must have been allocated for one operand that is read.
-/
structure Inst.BlocksFit (inst : Inst) : Prop where
  inputs : ∀ name len, .reg name len ∈ inst.loads → name.words ≤ (len + 3) / 4
  outputs
    : ∀ name len,
        .reg name len ∈ inst.stores
        → (∀ len', .reg name len' ∉ inst.loads)
        → name.words ≤ (len + 3) / 4
  recorded
    : ∀ i name len,
        (i, .reg name len) ∈ indexed 0 inst.stores
        → (∀ n, name ≠ .st n)
        → recordWords (.reg name) len = 4
        → 4 ≤ (len + 3) / 4 ∧ ∃ run ∈ inst.runs, run.1 ≤ i ∧ i + 4 ≤ run.1 + run.2

/-- Neither the memory operand of the instruction nor a scratch word is given by the address of
a block.
-/
structure OperandsApart (inst : Inst) (choices : Choices) (st : GenState) : Prop where
  text : ∀ idx a, inst.text idx = .abs a → a ∉ st.batch.words
  scratch
    : ∀ draw, ∀ item ∈ inst.stores, ∀ j,
        j < max 4 item.width → choices.scratch draw + 4 * j ∉ st.batch.words

/-- An access that lies in some words from an address on. -/
def InWords (a n : Nat) (p : MemOp × Nat) : Prop :=
  ∃ d, p.1 = .abs (a + 4 * d) ∧ 4 * d + p.2 ≤ 4 * n

theorem InWords.here {a n bytes : Nat} (small : bytes ≤ 4 * n) : InWords a n (.abs a, bytes) :=
  ⟨0, rfl, by simpa using small⟩

theorem Part.bytes_le (part : Part) : part.bytes ≤ 4 := by
  cases part <;> decide

namespace StaysIn

variable {st : GenState} {own : List (List Nat)} {p : MemOp × Nat}

theorem of_stackTop (top : p.1 = .stackTop) : StaysIn st own p := by
  intro a same
  rw [top] at same
  cases same

theorem of_other (other : ∀ a, p.1 = .abs a → a ∉ st.batch.words) : StaysIn st own p :=
  fun a same mem => absurd mem (other a same)

theorem of_abs {b : Nat} (here : p.1 = .abs b) (away : b ∉ st.batch.words) : StaysIn st own p :=
  .of_other fun _ same => MemOp.abs_injective (here.symm.trans same) ▸ away

theorem of_words {a n : Nat} {c : List Nat} (mem : c ∈ own)
    (run : ∀ j < n, a + 4 * j ∈ c) (inside : InWords a n p)
    : StaysIn st own p := by
  obtain ⟨d, here, bound⟩ := inside
  intro a' same _
  rw [here] at same
  refine ⟨c, mem, fun j small => ?_⟩
  rw [← MemOp.abs_injective same, Nat.add_assoc, ← Nat.mul_add]
  exact run (d + j) (by omega)

end StaysIn

section

variable {name : RegName} {a size : Nat} {asm : List Asm}

theorem mem2RegAsm_accesses (code : mem2RegAsm (.abs a) name size = some asm)
    : ∀ p ∈ accesses asm, InWords a name.words p := by
  refine forall_iff_forall_mem.mp ?_
  have one {bytes : Nat} (small : bytes ≤ 4) : InWords a 1 (.abs a, bytes) := .here small
  cases name with
  | gpr r =>
    obtain ⟨part, rfl⟩ := mem2RegAsm_gpr code
    exact one part.bytes_le
  | seg sg =>
    simp only [mem2RegAsm] at code
    split at code
    · cases code
      trivial
    · split at code <;> cases code
      exact one (by decide)
  | cr n =>
    simp only [mem2RegAsm] at code
    split at code <;> cases code <;> exact one (by decide)
  | dr | mm | mxcsr =>
    cases code
    exact one (by decide)
  | st n =>
    simp only [mem2RegAsm] at code
    split at code <;> cases code <;> exact InWords.here (n := 3) (by decide)
  | xmm n =>
    cases code
    exact InWords.here (n := 4) (by decide)
  | eflags =>
    cases code
    exact ⟨one (by decide), one (by decide)⟩
  | eip | ip | tr =>
    cases code
    trivial
  | xcr0 =>
    cases code
    refine ⟨InWords.here (n := 2) (by decide), 1, ?_, Nat.le_refl 8⟩
    exact MemOp.plus_abs a 4

theorem reg2MemAsm_accesses (code : reg2MemAsm name (.abs a) size = some asm)
    : ∀ p ∈ accesses asm, p.1 = .stackTop ∨ InWords a name.words p := by
  refine forall_iff_forall_mem.mp ?_
  have one {bytes : Nat} (small : bytes ≤ 4)
      : (MemOp.abs a, bytes).1 = .stackTop ∨ InWords a 1 (.abs a, bytes) := .inr (.here small)
  cases name with
  | gpr r =>
    obtain ⟨part, rfl⟩ := reg2MemAsm_gpr code
    exact one part.bytes_le
  | seg sg =>
    simp only [reg2MemAsm] at code
    split at code <;> cases code
    exact one (by decide)
  | cr | dr | mm | eflags | mxcsr =>
    cases code
    exact one (by decide)
  | st n =>
    simp only [reg2MemAsm] at code
    split at code <;> cases code <;> exact .inr (InWords.here (n := 3) (by decide))
  | xmm n =>
    cases code
    exact .inr (InWords.here (n := 4) (by decide))
  | eip | ip =>
    cases code
    exact ⟨.inl rfl, one (by decide)⟩
  | xcr0 =>
    cases code
    refine ⟨.inr (InWords.here (n := 2) (by decide)), .inr ⟨1, ?_, Nat.le_refl 8⟩⟩
    exact MemOp.plus_abs a 4
  | tr => cases code

end

theorem mem_accesses_flatMap {gs : List Gadget} {p : MemOp × Nat}
    : p ∈ accesses (gs.flatMap Gadget.asm) ↔ ∃ g ∈ gs, p ∈ accesses g.asm := by
  rw [accesses_flatMap, mem_flatMap]

section

variable {name : RegName} {tb : Tables} {a bak len size : Nat} {mnemonic : String}
  {asm : List Asm} {backup restore gs : List Gadget}

theorem resizeReg_words {whole : RegName} (resized : resizeReg name size = some whole)
    : whole.words = name.words := by
  cases name with
  | gpr r =>
    obtain ⟨part, rfl⟩ := resizeReg_gpr resized
    rfl
  | _ =>
    cases resized
    rfl

theorem genMem2Reg_accesses (made : genMem2Reg tb (.abs a) name size = some gs)
    : ∀ g ∈ gs, ∀ p ∈ accesses g.asm, InWords a name.words p :=
  fun g mem p access =>
    mem2RegAsm_accesses (genMem2Reg_code made) p (mem_accesses_flatMap.mpr ⟨g, mem, access⟩)

/-- A register is saved in the words it needs, and restored from them. -/
theorem registerBackup_accesses
    (made : registerBackup tb name bak len mnemonic = some (backup, restore))
    : ∀ g ∈ backup ++ restore, ∀ p ∈ accesses g.asm,
        p.1 = .stackTop ∨ InWords bak name.words p := by
  unfold registerBackup at made
  intro g mem p access
  split at made
  · simp only [bind_eq_bind, bind_eq_some_iff] at made
    obtain ⟨saving, saved, gs, loaded, final⟩ := made
    cases final
    rcases mem_append.mp mem with first | second
    · rw [mem_singleton.mp first] at access
      exact reg2MemAsm_accesses (genReg2Mem_spec saved).1 p access
    · exact .inr (genMem2Reg_accesses loaded g second p access)
  · simp only [bind_eq_bind, bind_eq_some_iff] at made
    obtain ⟨whole, resized, saving, saved, gs, loaded, final⟩ := made
    cases final
    rw [← resizeReg_words resized]
    rcases mem_append.mp mem with first | second
    · rw [mem_singleton.mp first] at access
      exact reg2MemAsm_accesses (genReg2Mem_spec saved).1 p access
    · obtain ⟨merged, made, same⟩ := map_eq_some_iff.mp (mem_toList.mp second)
      have inside : p ∈ accesses merged.asm := by
        rw [← same] at access
        split at access
        · -- EAX is saved around the gadget
          have code : accesses ([.ins (.push .eax)] ++ merged.asm ++ [.ins (.pop .eax)])
              = accesses merged.asm := by
            rw [accesses_append, accesses_append]
            exact append_nil _
          rw [← code]
          exact access
        · exact access
      rw [merge_asm made] at inside
      exact .inr (mem2RegAsm_accesses (genMem2Reg_code loaded) p inside)

/-- Registers that are moved in one access. -/
def RegName.Wide (name : RegName) : Prop := (∃ n, name = .st n) ∨ ∃ n, name = .xmm n

theorem accesses_wide (wide : name.Wide)
    (code : mem2RegAsm (.abs a) name size = some asm ∨ reg2MemAsm name (.abs a) size = some asm)
    : ∃ bytes, (.abs a, bytes) ∈ accesses asm ∧ 4 * name.words < bytes + 4 := by
  rcases wide with ⟨n, rfl⟩ | ⟨n, rfl⟩
  · simp only [mem2RegAsm, reg2MemAsm] at code
    rcases code with code | code <;> split at code <;> cases code <;>
      exact ⟨10, mem_singleton_self _, Nat.le_add_left _ 1⟩
  · rcases code with code | code <;> cases code <;>
      exact ⟨16, mem_singleton_self _, Nat.le_add_left _ 3⟩

end

section

variable {tb : Tables} {scratch left right size : Nat} {src2 : Source} {g : Gadget}

/-- The recorded operand is a register or the given operand, or goes through scratch words. -/
theorem feistelXor_accesses {t : RegName} {asm : List Asm} {kill : List Loc}
    (made : feistelXor scratch src2 t size = some (asm, kill))
    : ∀ p ∈ accesses asm,
        p.1 = .stackTop ∨ (∃ j < 2, p.1 = .abs (scratch + 4 * j)) ∨ src2 = .mem p.1 := by
  refine forall_iff_forall_mem.mp ?_
  have first {bytes : Nat}
      : (MemOp.abs scratch, bytes).1 = .stackTop
        ∨ (∃ j < 2, (MemOp.abs scratch, bytes).1 = .abs (scratch + 4 * j))
        ∨ src2 = .mem (.abs scratch) :=
    .inr (.inl ⟨0, by decide, rfl⟩)
  cases src2 with
  | mem m =>
    obtain ⟨name, _, made⟩ := bind_eq_some_iff.mp made
    cases name with
    | gpr | mm | xmm =>
      cases made
      exact .inr (.inr rfl)
    | _ => cases made
  | reg reg =>
    cases reg with
    | eflags =>
      cases made
      exact ⟨first, first⟩
    | eip | ip =>
      cases made
      exact .inl rfl
    | seg | cr | dr =>
      cases made
      trivial
    | mxcsr =>
      cases t <;> cases made
      exact ⟨first, first⟩
    | xcr0 =>
      have second : (MemOp.abs scratch).plus 4 = .abs (scratch + 4 * 1) :=
        MemOp.plus_abs scratch 4
      cases t with
      | mm | xmm =>
        cases made
        exact ⟨first, .inr (.inl ⟨1, by decide, second⟩), first⟩
      | _ => cases made
    | gpr r =>
      obtain ⟨name, _, made⟩ := bind_eq_some_iff.mp made
      cases name <;> cases made
      trivial
    | mm | xmm =>
      cases t <;> cases made
      trivial
    | st | tr => cases made

theorem FeistelParts.accesses {t : RegName} {loads xors stores : List Asm} {kills : List Loc}
    (parts : FeistelParts scratch left src2 right size g t loads xors stores kills)
    : Floppy.accesses g.asm
      = Floppy.accesses loads ++ (Floppy.accesses xors ++ Floppy.accesses stores) := by
  have body : Floppy.accesses (loads ++ xors ++ stores)
      = Floppy.accesses loads ++ (Floppy.accesses xors ++ Floppy.accesses stores) := by
    rw [accesses_append, accesses_append, append_assoc]
  rw [parts.code, ← body]
  split
  · -- saving the temporaries accesses the stack only
    rw [accesses_append, accesses_append]
    exact append_nil _
  · rfl

/-- A Feistel gadget accesses the L block, the R block and what it records. -/
theorem genFeistelCipher_accesses
    (made : genFeistelCipher tb scratch left src2 right size = some g)
    : ∀ p ∈ accesses g.asm,
        InWords left (recordWords src2 size) p
        ∨ InWords right (recordWords src2 size) p
        ∨ p.1 = .stackTop
        ∨ (∃ j < 2, p.1 = .abs (scratch + 4 * j))
        ∨ src2 = .mem p.1 := by
  obtain ⟨t, loads, xors, stores, kills, parts⟩ := genFeistelCipher_parts made
  have words : recordWords src2 size = t.words := by rw [recordWords, parts.temp]; rfl
  intro p access
  rw [parts.accesses] at access
  rw [words]
  rcases mem_append.mp access with first | later
  · exact .inl (mem2RegAsm_accesses parts.load p first)
  · rcases mem_append.mp later with middle | last
    · exact .inr (.inr (feistelXor_accesses parts.xor p middle))
    · rcases reg2MemAsm_accesses parts.store p last with top | inside
      · exact .inr (.inr (.inl top))
      · exact .inr (.inl inside)

theorem recordWords_mem (m : MemOp) : recordWords (.mem m) 4 = 1 := by
  simp only [recordWords, feistelTemp, le_refl, if_true]
  split <;> rfl

/-- Through an XMM register the blocks are accessed as a whole. -/
theorem genFeistelCipher_wide
    (made : genFeistelCipher tb scratch left src2 right size = some g)
    (wide : recordWords src2 size = 4)
    : (.abs left, 16) ∈ accesses g.asm ∧ (.abs right, 16) ∈ accesses g.asm := by
  obtain ⟨t, loads, xors, stores, kills, parts⟩ := genFeistelCipher_parts made
  rw [recordWords, parts.temp] at wide
  rw [parts.accesses]
  have vector : ∃ n, t = .xmm n := by
    rcases feistelTemp_cases parts.temp with rfl | rfl | ⟨n, rfl⟩ | ⟨n, rfl⟩
    · cases wide
    · cases wide
    · cases wide
    · exact ⟨n, rfl⟩
  obtain ⟨n, rfl⟩ := vector
  have load := parts.load
  have store := parts.store
  cases load
  cases store
  refine ⟨mem_append_left _ (mem_singleton_self _), ?_⟩
  exact mem_append_right _ (mem_append_right _ (mem_singleton_self _))

end

end FastPokeEmu.Floppy
