import FastPokeEmu.Floppy.Root

/-! The copy gadgets for whole words, written out: their code and what they declare. -/

namespace FastPokeEmu.Floppy

open List Option

variable {bak len : Nat} {mnemonic : String} {backup restore : List Gadget}

/-- Registers that a gadget declares on behalf of an operand. -/
def Tables.declared (tb : Tables) (m : MemOp) : LocSet := .ofList (((tb.toReg m).getD []).map .reg)

@[simp] theorem resizeReg_name (r : Gpr) : resizeReg r.name 4 = some r.name := by
  cases r <;> rfl

theorem genMem2Reg_gpr (tb : Tables) (m : MemOp) (r : Gpr)
    : genMem2Reg tb m r.name 4
      = some [⟨[.ins (.load m ⟨r, .full⟩)], "mem2reg", [.reg r.name], [], [.mem m],
          tb.declared m⟩] := by
  cases r <;> rfl

theorem genReg2Mem_gpr (tb : Tables) {addr : Nat} (r : Gpr)
    (fresh : tb.isBackup addr = false)
    : genReg2Mem tb r.name addr 4
      = some ⟨[.ins (.store ⟨r, .full⟩ (.abs addr))], "reg2mem", [.mem (.abs addr)], [],
          [.reg r.name], []⟩ := by
  cases r <;> simp [genReg2Mem, fresh, reg2MemAsm] <;> rfl

section

variable {tb : Tables} {scratch src1 dest : Nat}

/-- Code that mixes something into an L block and stores it in an R block. -/
def mixAsm (left right : Nat) (t : Gpr) (x : Ins) : List Asm :=
  [.ins (.load (.abs left) ⟨t, .full⟩), .ins x, .ins (.store ⟨t, .full⟩ (.abs right))]

/-- Code that records EAX. -/
def mixEaxAsm (left right : Nat) : List Asm :=
  [.ins (.push .eax), .ins (.push .ecx), .ins (.load (.abs left) ⟨.ecx, .full⟩),
    .ins (.aluReg .xor ⟨.eax, .full⟩ ⟨.ecx, .full⟩), .ins (.store ⟨.ecx, .full⟩ (.abs right)),
    .ins (.pop .ecx), .ins (.pop .eax)]

/-- Code that records EFLAGS. -/
def mixFlagsAsm (scratch left right : Nat) : List Asm :=
  [.ins (.push .eax), .ins (.push .ecx), .ins (.load (.abs left) ⟨.eax, .full⟩),
    .ins .pushf, .ins (.popMem (.abs scratch)),
    .ins (.aluMem .xor (.abs scratch) ⟨.eax, .full⟩),
    .ins (.store ⟨.eax, .full⟩ (.abs right)), .ins (.pop .ecx), .ins (.pop .eax)]

/-- Code of the gadget that sets EFLAGS from a word. -/
def flagsAsm (src : Nat) : List Asm :=
  [.ins (.andlMem flagMask (.abs src)), .ins (.pushMem (.abs src)), .ins .popf]

/-- Code that restores EFLAGS. -/
def restoreFlagsAsm (bak : Nat) : List Asm :=
  .ins (.push .eax) :: (flagsAsm bak ++ [.ins (.pop .eax)])

theorem genFeistelCipher_gpr {r : Gpr} (other : r ≠ .eax) (fresh : tb.isBackup dest = false)
    : genFeistelCipher tb scratch src1 (.reg r.name) dest 4
      = some ⟨mixAsm src1 dest .eax (.aluReg .xor ⟨r, .full⟩ ⟨.eax, .full⟩),
          "mem2reg-feistel-reg2mem", [.mem (.abs dest)], [.reg Gpr.eax.name],
          [.mem (.abs src1), .reg r.name], tb.declared (.abs src1)⟩ := by
  have temp : feistelTemp (.reg r.name) 4 = some Gpr.eax.name := by
    cases r <;> first | exact absurd rfl other | rfl
  have xor : feistelXor scratch (.reg r.name) Gpr.eax.name 4
      = some ([.ins (.aluReg .xor ⟨r, .full⟩ ⟨.eax, .full⟩)], []) := by
    cases r <;> rfl
  rw [genFeistelCipher, temp]
  simp only [bind_eq_bind, bind_some, genMem2Reg_gpr, genReg2Mem_gpr tb _ fresh, xor]
  cases r <;> first | exact absurd rfl other | rfl

theorem genFeistelCipher_eax (fresh : tb.isBackup dest = false)
    : genFeistelCipher tb scratch src1 (.reg Gpr.eax.name) dest 4
      = some ⟨mixEaxAsm src1 dest,
          "mem2reg-feistel-reg2mem", [.mem (.abs dest)], [],
          [.mem (.abs src1), .reg Gpr.eax.name], tb.declared (.abs src1)⟩ := by
  have temp : feistelTemp (.reg Gpr.eax.name) 4 = some Gpr.ecx.name := rfl
  have xor : feistelXor scratch (.reg Gpr.eax.name) Gpr.ecx.name 4
      = some ([.ins (.aluReg .xor ⟨.eax, .full⟩ ⟨.ecx, .full⟩)], []) := rfl
  rw [genFeistelCipher, temp]
  simp only [bind_eq_bind, bind_some, genMem2Reg_gpr, genReg2Mem_gpr tb _ fresh, xor]
  rfl

theorem genFeistelCipher_eflags (fresh : tb.isBackup dest = false)
    : genFeistelCipher tb scratch src1 (.reg .eflags) dest 4
      = some ⟨mixFlagsAsm scratch src1 dest,
          "mem2reg-feistel-reg2mem", [.mem (.abs dest)], [],
          [.mem (.abs src1), .reg .eflags], tb.declared (.abs src1)⟩ := by
  have temp : feistelTemp (.reg .eflags) 4 = some Gpr.eax.name := rfl
  have xor : feistelXor scratch (.reg .eflags) Gpr.eax.name 4
      = some ([.ins .pushf, .ins (.popMem (.abs scratch)),
          .ins (.aluMem .xor (.abs scratch) ⟨.eax, .full⟩)], []) := rfl
  rw [genFeistelCipher, temp]
  simp only [bind_eq_bind, bind_some, genMem2Reg_gpr, genReg2Mem_gpr tb _ fresh, xor]
  rfl

/-- Recording a word of memory. -/
theorem genFeistelCipher_mem {m : MemOp} (away : m ≠ .abs src1)
    (fresh : tb.isBackup dest = false)
    : genFeistelCipher tb scratch src1 (.mem m) dest 4
      = some ⟨mixAsm src1 dest (carrier m m) (.aluMem .xor m ⟨carrier m m, .full⟩),
          "mem2reg-feistel-reg2mem", [.mem (.abs dest)], [.reg (carrier m m).name],
          [.mem (.abs src1), .mem m],
          (tb.declared (.abs src1)).union
            (.ofList (((tb.inToReg.mems.lookup m).getD []).map .reg))⟩ := by
  have temp : feistelTemp (.mem m) 4 = some (carrier m m).name := by
    cases mentions : m.mentionsEax <;> simp [feistelTemp, Source.mentionsEax, carrier, mentions]
  have xor : feistelXor scratch (.mem m) (carrier m m).name 4
      = some ([.ins (.aluMem .xor m ⟨carrier m m, .full⟩)], []) := by
    simp [feistelXor]
    rfl
  rw [genFeistelCipher, temp]
  simp only [bind_eq_bind, bind_some, genMem2Reg_gpr, genReg2Mem_gpr tb _ fresh, xor]
  generalize carrier m m = t
  simp [mixAsm, Gadget.merge, Gadget.add, Gadget.make, LocSet.ofList, LocSet.union, LocSet.diff,
    LocSet.add, LocSet.has, Loc.same, RegName.same_refl, LocSet.inter, Source.loc, away, Gpr.name]

end

/-- The 32-bit name of a register is known under the names of its known names. -/
theorem RegName.same_name_trans {r : Gpr} {y z : RegName} (first : r.name.same y = true)
    (second : y.same z = true)
    : r.name.same z = true := by
  cases y with
  | gpr a =>
    cases z with
    | gpr b =>
      obtain ⟨ra, pa⟩ := a
      obtain ⟨rb, pb⟩ := b
      cases r <;> cases ra <;> simp [RegName.same, Gpr.name, Gpr.hasHalves] at first <;>
        cases rb <;> simp [RegName.same, Gpr.name, Gpr.hasHalves] at second ⊢ <;>
        simp_all
    | _ => simp [RegName.same] at second
  | _ => simp [RegName.same, Gpr.name] at first

namespace LocSet

variable {s t : LocSet} {x y : Loc}

/-- Locations that are known under all names of their names. -/
def Whole (x : Loc) : Prop := ∀ y z, x.same y = true → y.same z = true → x.same z = true

theorem whole_reg (r : Gpr) : Whole (.reg r.name) := by
  intro y z first second
  cases y with
  | reg a =>
    cases z with
    | reg b => exact RegName.same_name_trans first second
    | _ => simp [Loc.same] at second
  | _ => simp [Loc.same] at first

theorem has_add {s : LocSet} (whole : Whole x) (same : x.same y = true)
    : (s.add y).has x = true := by
  rw [add]
  split
  next present =>
    obtain ⟨z, mem, equal⟩ := has_iff.mp present
    exact has_iff.mpr ⟨z, mem, whole y z same equal⟩
  · exact has_iff.mpr ⟨y, mem_append_right _ (mem_singleton_self y), same⟩

theorem has_add_of_has {s : LocSet} (present : s.has x = true) : (s.add y).has x = true := by
  rw [add]
  split
  · exact present
  · obtain ⟨z, mem, equal⟩ := has_iff.mp present
    exact has_iff.mpr ⟨z, mem_append_left _ mem, equal⟩

theorem mem_of_union {x : Loc} (mem : x ∈ s.union t) : x ∈ s ∨ x ∈ t := by
  induction t generalizing s with
  | nil => exact .inl mem
  | cons y rest ih =>
    rcases ih mem with old | later
    · rw [add] at old
      split at old
      · exact .inl old
      · rcases mem_append.mp old with old | new
        · exact .inl old
        · exact .inr (mem_singleton.mp new ▸ mem_cons_self)
    · exact .inr (mem_cons_of_mem _ later)

theorem mem_union_left {x : Loc} (mem : x ∈ s) : x ∈ s.union t := by
  induction t generalizing s with
  | nil => exact mem
  | cons y rest ih =>
    refine ih ?_
    rw [add]
    split
    · exact mem
    · exact mem_append_left _ mem

theorem has_union_left {x : Loc} (present : s.has x = true) : (s.union t).has x = true := by
  induction t generalizing s with
  | nil => exact present
  | cons y rest ih => exact ih (has_add_of_has present)

theorem has_union_right (whole : Whole x) (mem : y ∈ t) (same : x.same y = true)
    : (s.union t).has x = true := by
  induction t generalizing s with
  | nil => cases mem
  | cons z rest ih =>
    rcases mem_cons.mp mem with rfl | later
    · exact has_union_left (s := s.add y) (t := rest) (has_add whole same)
    · exact ih later

theorem has_ofList {xs : List Loc} (whole : Whole x) (mem : y ∈ xs) (same : x.same y = true)
    : (ofList xs).has x = true :=
  has_union_right whole mem same

end LocSet

section

variable (tb : Tables) {src dest : MemOp}

theorem genStoreMem_asm (src dest : MemOp)
    : (genStoreMem tb src dest).asm = (copyWord src dest).map .ins := rfl

theorem genStoreChangeMem_sets (ne : src ≠ dest) (mnemonic : String)
    : (genStoreChangeMem tb src dest mnemonic).define = [.mem dest]
      ∧ (genStoreChangeMem tb src dest mnemonic).kill = [.reg (carrier src dest).name]
      ∧ (genStoreChangeMem tb src dest mnemonic).use = [.mem dest, .mem src] := by
  cases known : tb.toReg src <;>
    simp [genStoreChangeMem, genCmpMem, genStoreMem, carrier_comm src dest, Gadget.add,
      Gadget.make, LocSet.ofList, LocSet.union, LocSet.diff, LocSet.add, LocSet.has, Loc.same,
      RegName.same_refl, LocSet.inter, known, ne, Gpr.name]

theorem genStoreChangeMem_declares (mnemonic : String) {x : Loc}
    (declared : (tb.declared dest).has x = true)
    : (genStoreChangeMem tb src dest mnemonic).use__.has x = true := by
  refine LocSet.has_union_left ?_
  exact LocSet.has_union_left declared

end

/-- General purpose registers that loading a register changes; those other than the
register itself are not declared.
-/
def RegName.touched : RegName → List Gpr
  | .gpr r => [r.reg]
  | .cr _ | .dr _ => [.eax]
  | .xcr0 => [.eax, .edx]
  | _ => []

/-- Resizing stays within one register. -/
theorem resizeReg_gpr {r : GReg} {size : Nat} {name : RegName}
    (resized : resizeReg (.gpr r) size = some name)
    : ∃ part, name = .gpr ⟨r.reg, part⟩ := by
  obtain ⟨reg, part⟩ := r
  simp only [resizeReg] at resized
  split at resized
  · split at resized
    · exact ⟨_, (Option.some.inj resized).symm⟩
    · split at resized
      · exact ⟨_, (Option.some.inj resized).symm⟩
      · split at resized
        · exact ⟨_, (Option.some.inj resized).symm⟩
        · cases resized
  · split at resized
    · split at resized
      · exact ⟨_, (Option.some.inj resized).symm⟩
      · split at resized
        · exact ⟨_, (Option.some.inj resized).symm⟩
        · cases resized
    · exact ⟨_, (Option.some.inj resized).symm⟩

theorem mem2RegAsm_gpr {m : MemOp} {r : GReg} {size : Nat} {asm : List Asm}
    (code : mem2RegAsm m (.gpr r) size = some asm)
    : ∃ part, asm = [.ins (.load m ⟨r.reg, part⟩)] := by
  obtain ⟨name, resized, code⟩ := bind_eq_some_iff.mp code
  obtain ⟨part, rfl⟩ := resizeReg_gpr resized
  exact ⟨part, (some.inj code).symm⟩

theorem reg2MemAsm_gpr {m : MemOp} {r : GReg} {size : Nat} {asm : List Asm}
    (code : reg2MemAsm (.gpr r) m size = some asm)
    : ∃ part, asm = [.ins (.store ⟨r.reg, part⟩ m)] := by
  obtain ⟨name, resized, code⟩ := bind_eq_some_iff.mp code
  obtain ⟨part, rfl⟩ := resizeReg_gpr resized
  exact ⟨part, (some.inj code).symm⟩

/-- The names under which a whole register can be saved. -/
def GReg.Sizable (r : GReg) : Prop := r.reg.hasHalves = true ∨ r.part = .full ∨ r.part = .word

theorem resizeReg_whole {r : GReg} (sizable : r.Sizable)
    : resizeReg (.gpr r) 4 = some r.reg.name := by
  obtain ⟨reg, part⟩ := r
  rcases sizable with halves | full | word
  · simp only at halves
    simp [resizeReg, halves, Gpr.name]
  · simp only at full
    subst full
    exact resizeReg_name reg
  · simp only at word
    subst word
    cases reg <;> rfl

/-- Saving and restoring a general purpose register. -/
theorem registerBackup_gpr {tb : Tables} {r : GReg} (sizable : r.Sizable) (named : mnemonic ≠ "")
    (res : registerBackup tb (.gpr r) bak len mnemonic = some (backup, restore))
    : (∃ g,
        backup = [g]
        ∧ g.asm = [.ins (.store ⟨r.reg, .full⟩ (.abs bak))])
      ∧ restore
        = [⟨[.ins (.load (.abs bak) ⟨r.reg, .full⟩)], mnemonic, [.reg r.reg.name], [],
            [.mem (.abs bak)], tb.declared (.abs bak)⟩] := by
  simp only [registerBackup, resizeReg_whole sizable, genMem2Reg_gpr, bind_eq_bind,
    bind_some, bind_eq_some_iff] at res
  obtain ⟨g, saved, final⟩ := res
  cases final
  refine ⟨⟨g, rfl, ?_⟩, ?_⟩
  · have asm : reg2MemAsm r.reg.name (.abs bak) 4
        = some [.ins (.store ⟨r.reg, .full⟩ (.abs bak))] := by
      cases r.reg <;> rfl
    simp only [genReg2Mem, asm, bind_eq_bind, bind_some] at saved
    split at saved <;> cases saved <;> rfl
  · simp [Gadget.merge, named]

theorem registerBackup_eflags {tb : Tables} (named : mnemonic ≠ "")
    (res : registerBackup tb .eflags bak len mnemonic = some (backup, restore))
    : restore
      = [⟨restoreFlagsAsm bak, mnemonic, [.reg .eflags], [], [.mem (.abs bak)],
          tb.declared (.abs bak)⟩] := by
  have loaded : genMem2Reg tb (.abs bak) .eflags 4
      = some [⟨flagsAsm bak, "mem2reg", [.reg .eflags], [], [.mem (.abs bak)],
          tb.declared (.abs bak)⟩] := rfl
  have whole : resizeReg .eflags 4 = some .eflags := rfl
  simp only [registerBackup, whole, loaded, bind_eq_bind, bind_some,
    bind_eq_some_iff] at res
  obtain ⟨g, saved, final⟩ := res
  cases final
  simp [Gadget.merge, named, LocSet.diff, restoreFlagsAsm]

theorem genMem2Reg_asm {tb : Tables} {m : MemOp} {reg : RegName} {size : Nat}
    {gs : List Gadget} (res : genMem2Reg tb m reg size = some gs)
    : gs = []
      ∨ ∃ g,
          gs = [g]
          ∧ g.kill = []
          ∧ g.use.has (.reg .eflags) = false
          ∧ mem2RegAsm m reg size = some g.asm := by
  simp only [genMem2Reg, bind_eq_bind, bind_eq_some_iff] at res
  obtain ⟨asm, made, rest⟩ := res
  split at rest
  · exact Or.inl (Option.some.inj rest).symm
  · refine Or.inr ⟨_, (Option.some.inj rest).symm, rfl, ?_, made⟩
    cases reg <;> rfl

/-- Restoring any other register runs the code of `gen_mem2reg`. -/
theorem registerBackup_other {tb : Tables} {name : RegName} (notFlags : name ≠ .eflags)
    (res : registerBackup tb name bak len mnemonic = some (backup, restore))
    : ∀ g ∈ restore,
        g.kill = []
        ∧ g.use.has (.reg .eflags) = false
        ∧ ∃ whole size,
            mem2RegAsm (.abs bak) whole size = some g.asm
            ∧ whole.touched = name.touched
            ∧ whole ≠ .eflags := by
  by_cases isSeg : ∃ sg, name = .seg sg
  · obtain ⟨sg, rfl⟩ := isSeg
    simp only [registerBackup, bind_eq_bind, bind_eq_some_iff] at res
    obtain ⟨_, _, gs, made, final⟩ := res
    cases final
    intro g mem
    rcases genMem2Reg_asm made with rfl | ⟨g', rfl, kill, use, asm⟩
    · cases mem
    · rw [mem_singleton.mp mem]
      exact ⟨kill, use, _, _, asm, rfl, notFlags⟩
  · unfold registerBackup at res
    split at res
    next sg =>
      exact absurd ⟨sg, rfl⟩ isSeg
    · simp only [bind_eq_bind, bind_eq_some_iff, if_neg notFlags] at res
      obtain ⟨whole, resized, _, _, gs, made, final⟩ := res
      have within : whole.touched = name.touched ∧ whole ≠ .eflags := by
        cases name with
        | gpr r =>
          obtain ⟨part, rfl⟩ := resizeReg_gpr resized
          exact ⟨rfl, by simp⟩
        | _ =>
          cases resized
          exact ⟨rfl, notFlags⟩
      cases final
      intro g mem
      rcases genMem2Reg_asm made with rfl | ⟨g', rfl, kill, use, asm⟩
      · cases mem
      · have same : g.kill = g'.kill ∧ g.use = g'.use ∧ g.asm = g'.asm := by
          simp only [Gadget.merge, foldl_nil, map_some, toList_some,
            mem_singleton] at mem
          rw [mem]
          split <;> exact ⟨rfl, rfl, rfl⟩
        rw [same.1, same.2.1, same.2.2]
        exact ⟨kill, use, _, _, asm, within⟩

end FastPokeEmu.Floppy
