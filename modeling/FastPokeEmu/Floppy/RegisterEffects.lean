import FastPokeEmu.Floppy.StackDiscipline

/-! Registers that the code of a copy gadget changes, against those that it declares: the order
of gadgets rests on the declarations.
-/

namespace FastPokeEmu.Floppy

open List

/-- A register is declared under one of its names. -/
def Gadget.Declares (g : Gadget) (r : Gpr) : Prop :=
  ∃ part, .reg (.gpr ⟨r, part⟩) ∈ g.define ∨ .reg (.gpr ⟨r, part⟩) ∈ g.kill

/-- All registers that the code can change are declared. -/
def Gadget.Covers (g : Gadget) : Prop :=
  ∀ (cpu : Cpu) (s : St), Undisturbed cpu s g.asm
    → ∀ r, (cpu.run s g.asm).gpr r ≠ s.gpr r → g.Declares r

section

variable {g : Gadget}

theorem Gadget.declares_of_has {r : Gpr} (present : g.kill.has (.reg r.name) = true)
    : g.Declares r := by
  obtain ⟨y, mem, same⟩ := LocSet.has_iff.mp present
  cases y with
  | reg name =>
    cases name with
    | gpr a =>
      obtain ⟨reg, part⟩ := a
      have equal : r = reg := by
        simp only [Loc.same, RegName.same, Gpr.name, Bool.or_eq_true, Bool.and_eq_true,
          beq_iff_eq] at same
        rcases same with same | same
        · exact congrArg GReg.reg same
        · exact same.1.1.1
      exact ⟨part, .inr (equal ▸ mem)⟩
    | _ => simp [Loc.same, RegName.same, Gpr.name] at same
  | _ => simp [Loc.same] at same

/-- Straight code whose destinations are declared. -/
theorem Gadget.covers_of_straight {names : List Gpr} (straight : Straight names g.asm)
    (declared : ∀ r ∈ names, r ≠ .esp → g.Declares r)
    : g.Covers := by
  obtain ⟨is, code, even, named⟩ := straight
  intro cpu s _ r changed
  rw [code, cpu.run_ins] at changed
  have notEsp : r ≠ .esp := by
    rintro rfl
    apply changed
    rw [Cpu.foldl_exec_esp even]
    exact BitVec.add_zero _
  by_contra undeclared
  apply changed
  rw [← cpu.run_ins]
  refine cpu.run_gpr (Cpu.forall_instructions is (named.imp fun i subset names => ?_) rfl)
  rcases mem_cons.mp (subset names) with esp | mem
  · exact notEsp esp
  · exact undeclared (declared r mem notEsp)

theorem Gadget.covers_of_only {t : Gpr} (only : ∀ i ∈ Cpu.instructions g.asm, ∀ r ∈ i.gprs, r = t)
    (declared : g.Declares t)
    : g.Covers := by
  intro cpu s _ r changed
  by_contra undeclared
  apply changed
  apply cpu.run_gpr
  intro i mem names
  exact undeclared (only i mem r names ▸ declared)

end

/-- Registers that are copied to memory through others. -/
def RegName.storedVia : RegName → Bool
  | .eip | .ip | .cr _ | .dr _ | .xcr0 => true
  | _ => false

/-- Registers that are loaded through others. -/
def RegName.loadedVia : RegName → Bool
  | .cr _ | .dr _ | .xcr0 => true
  | _ => false

namespace LocSet

theorem mem_of_diff {s t : LocSet} {x : Loc} (mem : x ∈ s.diff t) : x ∈ s := by
  induction t generalizing s with
  | nil => exact mem
  | cons y rest ih => exact mem_of_mem_eraseP (ih mem)

end LocSet

section

variable {tb : Tables} {g : Gadget} {m : MemOp} {reg : RegName} {size : Nat}

theorem genReg2Mem_spec {addr size : Nat} (made : genReg2Mem tb reg addr size = some g)
    : reg2MemAsm reg (.abs addr) size = some g.asm
      ∧ (g.define = [] ∨ g.define = [.mem (.abs addr)]) ∧ g.kill = [] := by
  obtain ⟨asm, code, made⟩ := Option.bind_eq_some_iff.mp made
  simp only at made
  split at made
  · cases made
    exact ⟨code, .inl rfl, rfl⟩
  · cases made
    exact ⟨code, .inr rfl, rfl⟩

theorem genReg2Mem_not_declares {addr size : Nat} (made : genReg2Mem tb reg addr size = some g)
    (r : Gpr)
    : ¬ g.Declares r := by
  obtain ⟨_, define, kill⟩ := genReg2Mem_spec made
  rintro ⟨part, defined | killed⟩
  · rcases define with empty | word
    · rw [empty] at defined
      cases defined
    · rw [word] at defined
      cases mem_singleton.mp defined
  · rw [kill] at killed
    cases killed

/-- Code of copies to memory that do not go through another register. -/
theorem reg2MemAsm_straight {asm : List Asm} (code : reg2MemAsm reg m size = some asm)
    (direct : reg.storedVia = false)
    : Straight [] asm := by
  have nothing : [] ⊆ [Gpr.esp] := nil_subset _
  cases reg with
  | eip | ip | cr | dr | xcr0 => cases direct
  | tr => cases code
  | eflags =>
    cases code
    exact straight_pushf m
  | mxcsr | mm | xmm =>
    cases code
    exact .silent rfl rfl
  | st n =>
    simp only [reg2MemAsm] at code
    split at code <;> cases code
    · exact .silent rfl rfl
    · exact ⟨[.fxch n, .fstpt m, .fxch n], rfl, rfl, nothing, nothing, nothing⟩
  | seg sg =>
    simp only [reg2MemAsm] at code
    split at code <;> cases code
    exact .silent rfl rfl
  | gpr r =>
    obtain ⟨part, rfl⟩ := reg2MemAsm_gpr code
    exact .silent rfl rfl

/-- Code of loads into registers other than general purpose ones. -/
theorem mem2RegAsm_straight {asm : List Asm} (code : mem2RegAsm m reg size = some asm)
    (direct : reg.loadedVia = false) (notGpr : ∀ r, reg ≠ .gpr r)
    : Straight [] asm := by
  have nothing : [] ⊆ [Gpr.esp] := nil_subset _
  cases reg with
  | cr | dr | xcr0 => cases direct
  | gpr r => exact (notGpr r rfl).elim
  | eip | ip | tr =>
    cases code
    exact ⟨[], rfl, rfl, trivial⟩
  | eflags =>
    cases code
    exact ⟨[.andlMem flagMask m, .pushMem m, .popf], rfl, rfl, nothing,
      List.Subset.refl _, List.Subset.refl _⟩
  | mxcsr | mm | xmm =>
    cases code
    exact .silent rfl rfl
  | st n =>
    simp only [mem2RegAsm] at code
    split at code <;> cases code
    · exact .silent rfl rfl
    · exact ⟨[.fxch n, .fldt m, .fxch n], rfl, rfl, nothing, nothing, nothing⟩
  | seg sg =>
    simp only [mem2RegAsm] at code
    split at code
    · cases code
      exact ⟨[], rfl, rfl, trivial⟩
    · split at code <;> cases code
      exact .silent rfl rfl

theorem genMem2Reg_spec (made : genMem2Reg tb m reg size = some [g])
    : mem2RegAsm m reg size = some g.asm ∧ .reg reg ∈ g.define ∧ g.kill = []
      ∧ ∀ r, .reg (.gpr r) ∈ g.define → reg = .gpr r := by
  obtain ⟨asm, code, made⟩ := Option.bind_eq_some_iff.mp made
  simp only at made
  split at made
  · cases made
  · cases made
    refine ⟨code, LocSet.mem_union_left (s := [.reg reg]) mem_cons_self, rfl, fun r defined => ?_⟩
    rcases LocSet.mem_of_union (s := [.reg reg]) defined with own | fpu
    · cases mem_singleton.mp own
      rfl
    · cases reg with
      | st n => cases mem_singleton.mp fpu
      | _ => cases fpu

theorem genReg2Mem_covers {addr size : Nat} (made : genReg2Mem tb reg addr size = some g)
    (direct : reg.storedVia = false)
    : g.Covers :=
  Gadget.covers_of_straight (reg2MemAsm_straight (genReg2Mem_spec made).1 direct) nofun

theorem genMem2Reg_covers (made : genMem2Reg tb m reg size = some [g])
    (direct : reg.loadedVia = false)
    : g.Covers := by
  obtain ⟨code, defined, _, _⟩ := genMem2Reg_spec made
  by_cases isGpr : ∃ r, reg = .gpr r
  · obtain ⟨r, rfl⟩ := isGpr
    obtain ⟨part, only⟩ := mem2RegAsm_gpr code
    apply Gadget.covers_of_only (t := r.reg)
    · rw [only]
      intro i mem other named
      obtain rfl := mem_singleton.mp mem
      exact mem_singleton.mp named
    · exact ⟨r.part, .inl defined⟩
  · apply Gadget.covers_of_straight (mem2RegAsm_straight code direct fun r same =>
      isGpr ⟨r, same⟩)
    exact nofun

theorem genStoreMem_covers (src dest : MemOp) : (genStoreMem tb src dest).Covers := by
  apply Gadget.covers_of_only (t := carrier src dest)
  · intro i mem r named
    have one : i = .load src ⟨carrier src dest, .full⟩
        ∨ i = .store ⟨carrier src dest, .full⟩ dest := by
      simpa [Cpu.instructions, genStoreMem, Gadget.make, copyWord] using mem
    rcases one with rfl | rfl
    · exact mem_singleton.mp named
    · cases named
  · exact ⟨.full, .inr mem_cons_self⟩

theorem genStoreChangeMem_kill (src dest : MemOp) (mnemonic : String)
    : .reg (carrier src dest).name ∈ (genStoreChangeMem tb src dest mnemonic).kill :=
  mem_singleton.mpr rfl

theorem genStoreChangeMem_covers (src dest : MemOp) (mnemonic : String)
    : (genStoreChangeMem tb src dest mnemonic).Covers := by
  apply Gadget.covers_of_only (t := carrier src dest)
  · rw [genStoreChangeMem_asm]
    intro i mem r named
    have one : i = .load dest ⟨carrier src dest, .full⟩ ∨ i = .cmpMem ⟨carrier src dest, .full⟩ src
        ∨ i = .load src ⟨carrier src dest, .full⟩
        ∨ i = .store ⟨carrier src dest, .full⟩ dest := by
      simpa [Cpu.instructions, copyWord] using mem
    rcases one with rfl | rfl | rfl | rfl
    · exact mem_singleton.mp named
    · cases named
    · exact mem_singleton.mp named
    · cases named
  · exact ⟨.full, .inr (genStoreChangeMem_kill src dest mnemonic)⟩

end

end FastPokeEmu.Floppy
