import FastPokeEmu.Floppy.Layout

/-! The gadgets that follow the tested instruction: which words and registers each of them
may change, and how it declares that.
-/

namespace FastPokeEmu.Floppy

open ByteMemory List LocSet

/-- What a Feistel gadget records. -/
inductive Recorded
  | gpr (r : Gpr)
  | eflags
  | block (idx : Nat)
  | exception (a : Nat)
  deriving DecidableEq, Repr

def Recorded.source (inst : Inst) : Recorded → Source
  | .gpr r => .reg r.name
  | .eflags => .reg .eflags
  | .block idx => .mem (inst.text idx)
  | .exception a => .mem (.abs a)

/-- A gadget after the tested instruction, with the words it works on. -/
inductive Post
  | record (left right : Nat) (what : Recorded)
  | surplus (left right : Nat)
  | restoreMem (bak idx : Nat)
  | restoreReg (name : RegName) (bak : Nat)
  deriving DecidableEq, Repr

/-- The register that carries words from and to the memory operand. -/
def Inst.carrier (inst : Inst) : Gpr := Floppy.carrier (inst.text 0) (inst.text 0)

/-- Registers in the address of the memory operand. -/
def Inst.addressRegs (inst : Inst) : List Gpr := (inst.text 0).regs

theorem Inst.carrier_text (inst : Inst) (idx : Nat)
    : Floppy.carrier (inst.text idx) (inst.text idx) = inst.carrier := rfl

theorem Inst.carrier_abs (inst : Inst) (a idx : Nat)
    : Floppy.carrier (.abs a) (inst.text idx) = inst.carrier := by
  rw [← inst.carrier_text idx, Floppy.carrier, Floppy.carrier, Bool.or_self]
  rfl

theorem Inst.regs_text (inst : Inst) (idx : Nat) : (inst.text idx).regs = inst.addressRegs := rfl

/-- Registers that loading a register changes without a declaration. -/
def RegName.undeclared : RegName → List Gpr
  | .cr _ | .dr _ => [.eax]
  | .xcr0 => [.eax, .edx]
  | _ => []

namespace Post

/-- General purpose registers that a gadget may change. -/
def touches (inst : Inst) : Post → List Gpr
  | .record _ _ (.gpr r) => if r = .eax then [] else [.eax]
  | .record _ _ .eflags => []
  | .record _ _ (.block _) => [inst.carrier]
  | .record _ _ (.exception _) => [.eax]
  | .surplus _ _ => [.eax]
  | .restoreMem _ _ => [inst.carrier]
  | .restoreReg name _ => name.touched

/-- Words that a gadget may change. -/
def targets {n : Nat} : Post → List (Slot n)
  | .record _ right .eflags => [.word right, .scratch]
  | .record _ right _ => [.word right]
  | .surplus _ right => [.word right]
  | .restoreMem _ idx => [.block idx]
  | .restoreReg .eflags bak => [.word bak]
  | .restoreReg _ _ => []

/-- Blocks of the memory operand that a gadget accesses. -/
def blocks : Post → List Nat
  | .record _ _ (.block idx) => [idx]
  | .restoreMem _ idx => [idx]
  | _ => []

/-- The gadget gives a general purpose register its old value. -/
def Restores (r : Gpr) (p : Post) : Prop := ∃ part bak, p = .restoreReg (.gpr ⟨r, part⟩) bak

/-- The gadget is the generator's gadget for this purpose. -/
def Emits (inst : Inst) (fin : GenState) (scratch : Nat) : Post → Gadget → Prop
  | .record left right what, g =>
    IsData left
    ∧ IsData right
    ∧ right ∉ fin.feistelIn ++ fin.feistelOut
    ∧ (∀ a, what = .exception a → IsData a ∧ a ≠ left)
    ∧ (∀ idx, what = .block idx → .block idx ∈ inst.loads ++ inst.stores)
    ∧ ∃ tb scratch',
        tb.Fits inst fin
        ∧ (what = .eflags → scratch' = scratch)
        ∧ (inst.popCategory = false → ∀ idx, what = .block idx → tb.inToReg.mems ≠ [])
        ∧ genFeistelCipher tb scratch' left (what.source inst) right 4 = some g
  | .surplus left right, g =>
    IsData left ∧ IsData right ∧ ∃ tb, g = genStoreMem tb (.abs left) (.abs right)
  | .restoreMem bak idx, g =>
    IsData bak
    ∧ .block idx ∈ inst.loads ++ inst.stores
    ∧ ∃ tb,
        tb.Fits inst fin
        ∧ (tb.inToReg.mems ≠ [] ∨ tb.outToReg.mems ≠ [])
        ∧ g = genStoreChangeMem tb (.abs bak) (inst.text idx) "restore inputs"
  | .restoreReg name bak, g =>
    IsData bak
    ∧ (∃ len, .reg name len ∈ inst.loads ++ inst.stores)
    ∧ (∀ r, name = .gpr r → r.Sizable)
    ∧ ∃ tb len mnemonic backup restore,
        mnemonic ≠ ""
        ∧ registerBackup tb name bak len mnemonic = some (backup, restore)
        ∧ g ∈ restore

end Post

/-- The text of the memory operand is not the address of a word of the data area. -/
def Inst.Apart (inst : Inst) : Prop :=
  ∀ idx,
    .block idx ∈ inst.loads ++ inst.stores → ∀ a, IsData a → inst.text idx ≠ .abs a

section

variable {inst : Inst} {fin : GenState} {scratch : Nat} {p : Post} {g : Gadget}

theorem Tables.Fits.fresh {tb : Tables} (fits : tb.Fits inst fin) {a : Nat}
    (unused : a ∉ fin.feistelIn ++ fin.feistelOut)
    : tb.isBackup a = false := by
  simp only [Tables.isBackup, decide_eq_false_iff_not]
  intro mem
  refine unused ?_
  rcases mem_append.mp mem with here | here
  · exact mem_append_left _ (fits.feistelIn.subset here)
  · exact mem_append_right _ (fits.feistelOut.subset here)

namespace Post.Emits

variable {left right bak : Nat}

theorem record_gpr {r : Gpr} (other : r ≠ .eax)
    (emits : (Post.record left right (.gpr r)).Emits inst fin scratch g)
    : g.asm = mixAsm left right .eax (.aluReg .xor ⟨r, .full⟩ ⟨.eax, .full⟩)
      ∧ g.kill = [.reg Gpr.eax.name]
      ∧ g.use = [.mem (.abs left), .reg r.name] := by
  obtain ⟨_, _, unused, _, _, tb, _, fits, _, _, made⟩ := emits
  rw [Recorded.source, genFeistelCipher_gpr other (fits.fresh unused)] at made
  cases made
  exact ⟨rfl, rfl, rfl⟩

theorem record_eax (emits : (Post.record left right (.gpr .eax)).Emits inst fin scratch g)
    : g.asm = mixEaxAsm left right ∧ g.use = [.mem (.abs left), .reg Gpr.eax.name] := by
  obtain ⟨_, _, unused, _, _, tb, _, fits, _, _, made⟩ := emits
  rw [Recorded.source, genFeistelCipher_eax (fits.fresh unused)] at made
  cases made
  exact ⟨rfl, rfl⟩

theorem record_eflags (emits : (Post.record left right .eflags).Emits inst fin scratch g)
    : g.asm = mixFlagsAsm scratch left right ∧ g.use = [.mem (.abs left), .reg .eflags] := by
  obtain ⟨_, _, unused, _, _, tb, _, fits, same, _, made⟩ := emits
  rw [Recorded.source, genFeistelCipher_eflags (fits.fresh unused), same rfl] at made
  cases made
  exact ⟨rfl, rfl⟩

theorem record_block {idx : Nat} (apart : inst.Apart)
    (emits : (Post.record left right (.block idx)).Emits inst fin scratch g)
    : g.asm = mixAsm left right inst.carrier
        (.aluMem .xor (inst.text idx) ⟨inst.carrier, .full⟩)
      ∧ g.kill = [.reg inst.carrier.name]
      ∧ g.use = [.mem (.abs left), .mem (inst.text idx)] := by
  obtain ⟨isLeft, _, unused, _, isBlock, tb, _, fits, _, _, made⟩ := emits
  rw [Recorded.source, genFeistelCipher_mem (apart idx (isBlock idx rfl) left isLeft)
    (fits.fresh unused)] at made
  cases made
  exact ⟨rfl, rfl, rfl⟩

theorem record_exception {a : Nat}
    (emits : (Post.record left right (.exception a)).Emits inst fin scratch g)
    : g.asm = mixAsm left right .eax (.aluMem .xor (.abs a) ⟨.eax, .full⟩)
      ∧ g.kill = [.reg Gpr.eax.name]
      ∧ g.use = [.mem (.abs left), .mem (.abs a)] := by
  obtain ⟨_, _, unused, exception, _, tb, _, fits, _, _, made⟩ := emits
  have away : MemOp.abs a ≠ .abs left := by
    have ne := (exception a rfl).2
    simp only [MemOp.abs, ne_eq, MemOp.mk.injEq, Option.some.injEq]
    omega
  rw [Recorded.source, genFeistelCipher_mem away (fits.fresh unused)] at made
  cases made
  exact ⟨rfl, rfl, rfl⟩

theorem restoreMem_sets {idx : Nat} (apart : inst.Apart)
    (emits : (Post.restoreMem bak idx).Emits inst fin scratch g)
    : g.define = [.mem (inst.text idx)]
      ∧ g.kill = [.reg inst.carrier.name]
      ∧ g.use = [.mem (inst.text idx), .mem (.abs bak)] := by
  obtain ⟨isData, isBlock, tb, _, _, rfl⟩ := emits
  have sets := genStoreChangeMem_sets tb (Ne.symm (apart idx isBlock bak isData)) "restore inputs"
  rwa [inst.carrier_abs] at sets

theorem restoreReg_gpr {r : GReg}
    (emits : (Post.restoreReg (.gpr r) bak).Emits inst fin scratch g)
    : g.asm = [.ins (.load (.abs bak) ⟨r.reg, .full⟩)]
      ∧ g.define = [.reg r.reg.name]
      ∧ g.use = [.mem (.abs bak)] := by
  obtain ⟨_, _, sizable, tb, len, mnemonic, backup, restore, named, res, mem⟩ := emits
  obtain ⟨_, rfl⟩ := registerBackup_gpr (sizable r rfl) named res
  rw [mem_singleton.mp mem]
  exact ⟨rfl, rfl, rfl⟩

theorem restoreReg_eflags
    (emits : (Post.restoreReg .eflags bak).Emits inst fin scratch g)
    : g.asm = restoreFlagsAsm bak ∧ g.use = [.mem (.abs bak)] := by
  obtain ⟨_, _, _, tb, len, mnemonic, backup, restore, named, res, mem⟩ := emits
  rw [registerBackup_eflags named res] at mem
  rw [mem_singleton.mp mem]
  exact ⟨rfl, rfl⟩

/-- What a gadget changes it declares, except for the registers that loading a system
register goes through.
-/
theorem declares {r : Gpr} (emits : p.Emits inst fin scratch g) (apart : inst.Apart)
    (touched : r ∈ p.touches inst)
    : .reg r.name ∈ g.kill
      ∨ (p.Restores r ∧ .reg r.name ∈ g.define)
      ∨ ∃ name bak, p = .restoreReg name bak ∧ r ∈ name.undeclared := by
  cases p with
  | record left right what =>
    left
    cases what with
    | gpr r' =>
      simp only [Post.touches] at touched
      split at touched
      · cases touched
      next other =>
        rw [mem_singleton.mp touched, (emits.record_gpr other).2.1]
        exact mem_singleton_self _
    | eflags => cases touched
    | block idx =>
      rw [mem_singleton.mp touched, (emits.record_block apart).2.1]
      exact mem_singleton_self _
    | exception a =>
      rw [mem_singleton.mp touched, emits.record_exception.2.1]
      exact mem_singleton_self _
  | surplus left right =>
    obtain ⟨_, _, tb, rfl⟩ := emits
    rw [mem_singleton.mp touched]
    exact Or.inl (mem_singleton_self _)
  | restoreMem bak idx =>
    rw [mem_singleton.mp touched, (emits.restoreMem_sets apart).2.1]
    exact Or.inl (mem_singleton_self _)
  | restoreReg name bak =>
    right
    cases name with
    | gpr r' =>
      rw [mem_singleton.mp touched, emits.restoreReg_gpr.2.1]
      exact Or.inl ⟨⟨r'.part, bak, rfl⟩, mem_singleton_self _⟩
    | cr | dr | xcr0 => exact Or.inr ⟨_, _, rfl, touched⟩
    | _ => cases touched

theorem block_mem (emits : p.Emits inst fin scratch g) {idx : Nat} (accessed : idx ∈ p.blocks)
    : .block idx ∈ inst.loads ++ inst.stores := by
  cases p with
  | record left right what =>
    cases what with
    | block idx' =>
      rw [mem_singleton.mp accessed]
      exact emits.2.2.2.2.1 idx' rfl
    | _ => cases accessed
  | restoreMem bak idx' =>
    rw [mem_singleton.mp accessed]
    exact emits.2.1
  | _ => cases accessed

/-- Only the gadgets that record EFLAGS declare that they use them. -/
theorem eflags_of_use (emits : p.Emits inst fin scratch g) (apart : inst.Apart)
    (uses : g.use.has (.reg .eflags) = true)
    : ∃ left right, p = .record left right .eflags := by
  cases p with
  | record left right what =>
    cases what with
    | eflags => exact ⟨left, right, rfl⟩
    | gpr r =>
      by_cases isEax : r = .eax
      · subst isEax
        rw [emits.record_eax.2] at uses
        cases uses
      · rw [(emits.record_gpr isEax).2.2] at uses
        cases uses
    | block idx =>
      rw [(emits.record_block apart).2.2] at uses
      cases uses
    | exception a =>
      rw [emits.record_exception.2.2] at uses
      cases uses
  | surplus left right =>
    obtain ⟨_, _, tb, rfl⟩ := emits
    simp only [genStoreMem] at uses
    split at uses <;> cases uses
  | restoreMem bak idx =>
    rw [(emits.restoreMem_sets apart).2.2] at uses
    cases uses
  | restoreReg name bak =>
    by_cases isFlags : name = .eflags
    · subst isFlags
      rw [emits.restoreReg_eflags.2] at uses
      cases uses
    · obtain ⟨_, _, _, _, _, _, _, _, _, res, mem⟩ := emits
      rw [(registerBackup_other isFlags res g mem).2.1] at uses
      cases uses

end Post.Emits

theorem ToReg.Tidy.lookup {d : ToReg} (tidy : d.Tidy inst) (known : d.mems ≠ [])
    : d.mems.lookup (inst.text 0) = some (getMemOp inst 0).2 := by
  obtain ⟨first, rest, shape⟩ := exists_cons_of_ne_nil known
  rw [shape, tidy first (by simp [shape])]
  exact lookup_cons_self

theorem Tables.Fits.declared_has {tb : Tables} (fits : tb.Fits inst fin)
    (known : tb.inToReg.mems ≠ [] ∨ tb.outToReg.mems ≠ []) {r : Gpr} {name : RegName}
    (mem : name ∈ (getMemOp inst 0).2) (same : r.name.same name = true)
    : (tb.declared (inst.text 0)).has (.reg r.name) = true := by
  have found : tb.toReg (inst.text 0) = some (getMemOp inst 0).2 := by
    rw [Tables.toReg]
    by_cases outs : tb.outToReg.mems = []
    · rw [outs]
      exact fits.ins.lookup (known.resolve_right (not_not_intro outs))
    · rw [fits.outs.lookup outs]
      rfl
  rw [Tables.declared, found]
  exact has_ofList (whole_reg r) (mem_map_of_mem mem) same

/-- Gadgets that access the first block declare the registers in its address. -/
theorem Post.Emits.declares_address (emits : p.Emits inst fin scratch g)
    (apart : inst.Apart) (notPop : inst.popCategory = false) (accesses : 0 ∈ p.blocks)
    {r : Gpr} {name : RegName} (mem : name ∈ (getMemOp inst 0).2)
    (same : r.name.same name = true)
    : g.use__.has (.reg r.name) = true := by
  cases p with
  | record left right what =>
    cases what with
    | block idx =>
      obtain rfl : 0 = idx := mem_singleton.mp accesses
      obtain ⟨isLeft, _, unused, _, isBlock, tb, _, fits, _, known, made⟩ := emits
      rw [Recorded.source, genFeistelCipher_mem (apart 0 (isBlock 0 rfl) left isLeft)
        (fits.fresh unused)] at made
      cases made
      rw [fits.ins.lookup (known notPop 0 rfl)]
      have listed := has_ofList (whole_reg r) (mem_map_of_mem (f := Loc.reg) mem) same
      obtain ⟨loc, inside, equal⟩ := has_iff.mp listed
      exact has_union_right (whole_reg r) inside equal
    | _ => cases accesses
  | restoreMem bak idx =>
    obtain rfl : 0 = idx := mem_singleton.mp accesses
    obtain ⟨isData, _, tb, fits, known, rfl⟩ := emits
    exact genStoreChangeMem_declares tb _ (fits.declared_has known mem same)
  | _ => cases accesses

end

end FastPokeEmu.Floppy
