import FastPokeEmu.Floppy.FeistelEffects
import FastPokeEmu.Floppy.SimpleEffects
import FastPokeEmu.Floppy.FlatMachine

/-! Copies that change registers which they do not declare: those of control and debug
registers, of XCR0 and of EIP go through EAX, ECX and EDX.
-/

namespace FastPokeEmu.Floppy

open ByteMemory List Gadget

variable {addr : Nat} {i : Ins}

/-- Registers with values that no such copy loads, and a stack away from an address. -/
def marked (addr : Nat) : St where
  gpr r :=
    match r with
    | .eax => 2
    | .ecx => 3
    | .esp => .ofInt 32 addr + 0x1000
    | _ => 0
  eflags := 0
  seg _ := 1
  base _ := 0
  cr _ := 1
  dr _ := 1
  ext _ := 0
  mem _ := 0

/-- Instructions that store next to an address only. -/
def StoresNear (addr : Nat) (i : Ins) : Prop :=
  i.stack ≠ .push → ∀ (s : St), ∀ a ∈ flatCpu.footprint s i, (a - .ofInt 32 addr).toNat < 0x100

theorem storesNear_places {addr d n : Nat} {m : MemOp} (small : d + n ≤ 0x100)
    (offset : ∀ gpr, m.offset gpr = .ofInt 32 addr + BitVec.ofNat 32 d)
    (stores : ∀ s, flatCpu.footprint s i = flatCpu.places s m n)
    : StoresNear addr i := by
  intro _ s a mem
  rw [stores] at mem
  obtain ⟨j, less, rfl⟩ := flatCpu.mem_places.mp mem
  have place : flatCpu.place s m j = m.offset s.gpr + BitVec.ofNat 32 j := rfl
  rw [place, offset]
  bv_omega

theorem storesNear_abs {addr n : Nat} (small : n ≤ 0x100)
    (stores : ∀ s, flatCpu.footprint s i = flatCpu.places s (.abs addr) n)
    : StoresNear addr i :=
  storesNear_places (d := 0) (by omega) (fun _ => (BitVec.add_zero _).symm) stores

theorem storesNear_nothing (nothing : ∀ s, flatCpu.footprint s i = []) : StoresNear addr i := by
  intro _ s a mem
  rw [nothing] at mem
  cases mem

theorem storesNear_push (move : i.stack = .push) : StoresNear addr i :=
  fun other => (other move).elim

theorem undisturbed_marked {code : List Asm}
    (near : ∀ i ∈ Cpu.instructions code, StoresNear addr i)
    : Undisturbed flatCpu (marked addr) code := by
  refine ⟨fun _ _ => rfl, fun step mem move i small hit => ?_⟩
  have close := near step.2 (flatCpu.mem_instructions_of_steps mem) move step.1 _ hit
  have place : flatCpu.tr (marked addr) .ss ((marked addr).gpr .esp - 8 + BitVec.ofNat 32 i)
      = .ofInt 32 addr + 0x1000 - 8 + BitVec.ofNat 32 i := rfl
  rw [place] at close
  bv_omega

theorem Gadget.not_covers {g : Gadget} {r : Gpr} (is : List Ins) (code : is.map .ins = g.asm)
    (near : is.Forall (StoresNear addr)) (undeclared : ¬ g.Declares r)
    (changed : (is.foldl flatCpu.exec (marked addr)).gpr r ≠ (marked addr).gpr r)
    : ¬ g.Covers := by
  intro covers
  apply undeclared
  apply covers flatCpu (marked addr) (undisturbed_marked (Cpu.forall_instructions is near code))
  rw [← code, flatCpu.run_ins]
  exact changed

theorem exec_load_zero {s : St} (zero : ∀ a, s.mem a = 0) (m : MemOp) (r : Gpr)
    : flatCpu.exec s (.load m ⟨r, .full⟩) = s.setGpr r 0 := by
  have fetched : flatCpu.fetch s m 32 4 = 0 := by
    have all : read 32 (fun _ : Word => (0 : Byte)) (fun _ => 0) 4 = 0 := by decide
    exact Eq.trans (read_congr fun i _ => zero _) all
  exact congrArg (s.setGpr r) fetched

theorem flat_getEip (s : St) {r : Gpr} (other : r ≠ .esp)
    : (flatCpu.run s (genGetEip r)).gpr r = 0 := by
  have fetched : flatCpu.fetch (flatCpu.pushWord s 0) .stackTop 32 4 = 0 := by
    have top := top_pushWord (s := s) (rfl : flatCpu.tr s = flat) 0 rfl
    refine Eq.trans (read_congr fun i _ => congrArg (flatCpu.pushWord s 0).mem ?_) top
    have place : flatCpu.place (flatCpu.pushWord s 0) .stackTop i
        = BitVec.ofInt 32 0 + (flatCpu.pushWord s 0).gpr .esp + 0 + BitVec.ofNat 32 i := rfl
    have topPlace : flatCpu.stackPlace (flatCpu.pushWord s 0) i
        = (flatCpu.pushWord s 0).gpr .esp + BitVec.ofNat 32 i := rfl
    rw [place, topPlace]
    bv_omega
  have loaded : (flatCpu.exec (flatCpu.pushWord s 0) (.load .stackTop ⟨r, .full⟩)).gpr r = 0 := by
    simp only [Cpu.exec, Part.bytes, fetched, St.setReg, St.setGpr, Function.update_self]
  exact (Function.update_of_ne other _ _).trans loaded

section

variable {tb : Tables} {g : Gadget} {t : RegName} {loads stores : List Asm}

theorem genReg2Mem_not_covers {reg : RegName} {addr size : Nat}
    (made : genReg2Mem tb reg addr size = some g) (via : reg.storedVia = true)
    : ¬ g.Covers := by
  obtain ⟨code, _, _⟩ := genReg2Mem_spec made
  have undeclared := genReg2Mem_not_declares made .eax
  have quiet {i : Ins} (nothing : ∀ s, flatCpu.footprint s i = []) : StoresNear addr i :=
    storesNear_nothing nothing
  have stores : StoresNear addr (.store ⟨.eax, .full⟩ (.abs addr)) :=
    storesNear_abs (n := 4) (by decide) (fun _ => rfl)
  have viaEip (code : some (genGetEip .eax ++ [.ins (.store ⟨.eax, .full⟩ (.abs addr))])
      = some g.asm)
      : ¬ g.Covers := by
    refine not_covers [.callNext 0, .load .stackTop ⟨.eax, .full⟩, .ret,
      .store ⟨.eax, .full⟩ (.abs addr)] (Option.some.inj code)
      ⟨storesNear_push rfl, quiet (fun _ => rfl), quiet (fun _ => rfl), stores⟩ undeclared ?_
    have eax := flat_getEip (marked addr) (by decide : Gpr.eax ≠ .esp)
    exact fun same => absurd (eax.symm.trans same) (by decide : ¬ (0 : Word) = 2)
  cases reg with
  | eip | ip => exact viaEip code
  | cr n =>
    refine not_covers [.movFromCr n .eax, .store ⟨.eax, .full⟩ (.abs addr)]
      (Option.some.inj code) ⟨quiet (fun _ => rfl), stores⟩ undeclared ?_
    exact (by decide : (1 : Word) ≠ 2)
  | dr n =>
    refine not_covers [.movFromDr n .eax, .store ⟨.eax, .full⟩ (.abs addr)]
      (Option.some.inj code) ⟨quiet (fun _ => rfl), stores⟩ undeclared ?_
    exact (by decide : (1 : Word) ≠ 2)
  | xcr0 =>
    refine not_covers [.xgetbv, .store ⟨.edx, .full⟩ (.abs addr),
      .store ⟨.eax, .full⟩ ((MemOp.abs addr).plus 4)] (Option.some.inj code)
      ⟨quiet (fun _ => rfl), storesNear_abs (n := 4) (by decide) (fun _ => rfl),
        storesNear_places (d := 4) (n := 4) (by decide) (fun _ => ?_) (fun _ => rfl)⟩
      undeclared ?_
    · exact BitVec.ofInt_add _ _
    · exact (by decide : (0 : Word) ≠ 2)
  | _ => cases via

theorem genMem2Reg_not_covers {m : MemOp} {reg : RegName} {size : Nat}
    (made : genMem2Reg tb m reg size = some [g]) (via : reg.loadedVia = true)
    : ¬ g.Covers := by
  obtain ⟨code, _, kill, define⟩ := genMem2Reg_spec made
  have undeclared : ¬ g.Declares .eax := by
    rintro ⟨part, defined | killed⟩
    · rw [define _ defined] at via
      cases via
    · rw [kill] at killed
      cases killed
  have quiet {i : Ins} (nothing : ∀ s, flatCpu.footprint s i = []) : StoresNear 0 i :=
    storesNear_nothing nothing
  cases reg with
  | cr n =>
    simp only [mem2RegAsm] at code
    split at code
    · refine not_covers [.load m ⟨.eax, .full⟩, .aluImm .or 0x80000001 .eax,
        .aluImm .and 0xc005003f .eax, .movToCr 0 .eax] (Option.some.inj code)
        ⟨quiet (fun _ => rfl), quiet (fun _ => rfl), quiet (fun _ => rfl), quiet (fun _ => rfl)⟩
        undeclared ?_
      rw [foldl_cons, exec_load_zero (fun _ => rfl)]
      exact (by decide : ((0 : Word) ||| 0x80000001) &&& 0xc005003f ≠ 2)
    · refine not_covers [.load m ⟨.eax, .full⟩, .movToCr n .eax] (Option.some.inj code)
        ⟨quiet (fun _ => rfl), quiet (fun _ => rfl)⟩ undeclared ?_
      rw [foldl_cons, exec_load_zero (fun _ => rfl)]
      exact (by decide : (0 : Word) ≠ 2)
  | dr n =>
    refine not_covers [.load m ⟨.eax, .full⟩, .movToDr n .eax] (Option.some.inj code)
      ⟨quiet (fun _ => rfl), quiet (fun _ => rfl)⟩ undeclared ?_
    rw [foldl_cons, exec_load_zero (fun _ => rfl)]
    exact (by decide : (0 : Word) ≠ 2)
  | xcr0 =>
    refine not_covers [.load m ⟨.edx, .full⟩, .load (m.plus 4) ⟨.eax, .full⟩, .xsetbv]
      (Option.some.inj code) ⟨quiet (fun _ => rfl), quiet (fun _ => rfl), quiet (fun _ => rfl)⟩
      undeclared ?_
    rw [foldl_cons, exec_load_zero (fun _ => rfl), foldl_cons, exec_load_zero (fun _ => rfl)]
    exact (by decide : (0 : Word) ≠ 2)
  | _ => cases via

variable {scratch src1 dest size : Nat} {src2 : Source}

/-- A Feistel gadget declares the temporary and what it kills, in the 32-bit sense. -/
theorem FeistelParts.not_declares {loads xors stores : List Asm} {kills : List Loc}
    (parts : FeistelParts scratch src1 src2 dest size g t loads xors stores kills)
    (unsaved : src2.saved = false) {r : Gpr} (other : r ∉ t.gprs)
    (spared : ∀ part, .reg (.gpr ⟨r, part⟩) ∉ kills)
    : ¬ g.Declares r := by
  rintro ⟨part, defined | killed⟩
  · rw [parts.define _ defined] at other
    exact other mem_cons_self
  · rw [parts.kill unsaved] at killed
    rcases LocSet.mem_of_union killed with kills' | temp
    · rcases LocSet.mem_of_union (s := []) kills' with nothing | kill
      · cases nothing
      · exact spared part kill
    · cases mem_singleton.mp temp
      exact other mem_cons_self

/-- Recording EIP leaves the address in ECX. -/
theorem FeistelParts.not_covers_eip
    (parts : FeistelParts scratch src1 src2 dest size g t loads
      (genGetEip .ecx ++ [.ins (.aluImm .sub 0 .ecx),
        .ins (.aluReg .xor ⟨.ecx, .full⟩ ⟨.eax, .full⟩)]) stores [])
    (unsaved : src2.saved = false) (other : .ecx ∉ t.gprs)
    : ¬ g.Covers := by
  obtain ⟨load, rfl, _, _, reads⟩ := mem2RegAsm_temp parts.temp parts.load
  obtain ⟨store, n, rfl, _, storeGprs, few, writes⟩ := reg2MemAsm_temp parts.temp parts.store
  have undeclared := parts.not_declares unsaved other (fun _ => not_mem_nil)
  have code := parts.code
  rw [unsaved, if_neg Bool.false_ne_true] at code
  refine not_covers [load, .callNext 0, .load .stackTop ⟨.ecx, .full⟩, .ret,
    .aluImm .sub 0 .ecx, .aluReg .xor ⟨.ecx, .full⟩ ⟨.eax, .full⟩, store] code.symm
    ⟨storesNear_nothing (reads flatCpu), storesNear_push rfl, storesNear_nothing (fun _ => rfl),
      storesNear_nothing (fun _ => rfl), storesNear_nothing (fun _ => rfl),
      storesNear_nothing (fun _ => rfl), storesNear_abs (few.trans (by decide)) (writes flatCpu)⟩
    undeclared ?_
  let after := flatCpu.run (flatCpu.exec (marked dest) load) (genGetEip .ecx)
  have address : after.gpr .ecx = 0 := flat_getEip _ (by decide)
  have moved : (flatCpu.exec after (.aluImm .sub 0 .ecx)).gpr .ecx = 0 := by
    have sub : (flatCpu.exec after (.aluImm .sub 0 .ecx)).gpr .ecx = after.gpr .ecx - 0 := by
      simp only [Cpu.exec, Cpu.aluTo, St.setReg, St.setGpr, Function.update_self]
      rfl
    rw [sub, address]
    decide
  have xored := flatCpu.exec_gpr (s := flatCpu.exec after (.aluImm .sub 0 .ecx))
    (i := .aluReg .xor ⟨.ecx, .full⟩ ⟨.eax, .full⟩) (by decide : Gpr.ecx ∉ [Gpr.eax])
  have stored := flatCpu.exec_gpr (s := flatCpu.exec (flatCpu.exec after (.aluImm .sub 0 .ecx))
    (.aluReg .xor ⟨.ecx, .full⟩ ⟨.eax, .full⟩)) (i := store) (r := .ecx)
    (by rw [storeGprs]; exact not_mem_nil)
  intro same
  exact absurd ((stored.trans (xored.trans moved)).symm.trans same) (by decide : ¬ (0 : Word) = 3)

/-- Recording a register through ECX with a wide temporary leaves the value in EAX. -/
theorem FeistelParts.not_covers_wide {fetch : Ins}
    (parts : FeistelParts scratch src1 src2 dest size g t loads
      [.ins fetch, .ins (.aluReg .xor ⟨.ecx, .full⟩ ⟨.eax, .full⟩)] stores [.reg Gpr.ecx.name])
    (unsaved : src2.saved = false)
    (fetches : ∀ s : St, s.seg = (marked dest).seg → s.cr = (marked dest).cr
      → s.dr = (marked dest).dr → flatCpu.exec s fetch = s.setGpr .ecx 1)
    (near : StoresNear dest fetch)
    (wide : (if size ≤ 8 then some (.mm 0) else if size ≤ 16 then some (.xmm 0) else none) = some t)
    : ¬ g.Covers := by
  have code := parts.code
  rw [unsaved, if_neg Bool.false_ne_true] at code
  have spared : ∀ part, .reg (.gpr ⟨.eax, part⟩) ∉ [Loc.reg Gpr.ecx.name] := by
    intro part
    cases part <;> decide
  have load := parts.load
  have store := parts.store
  have split : t = .mm 0 ∨ t = .xmm 0 := by
    split at wide
    · exact .inl (Option.some.inj wide).symm
    · split at wide
      · exact .inr (Option.some.inj wide).symm
      · cases wide
  rcases split with rfl | rfl
  all_goals
    cases load
    cases store
    refine not_covers [_, fetch, .aluReg .xor ⟨.ecx, .full⟩ ⟨.eax, .full⟩, _] code.symm
      ⟨storesNear_nothing (fun _ => rfl), near, storesNear_nothing (fun _ => rfl),
        storesNear_abs (n := _) (by decide) (fun _ => rfl)⟩
      (parts.not_declares unsaved not_mem_nil spared) ?_
    rw [foldl_cons, foldl_cons, fetches (flatCpu.exec (marked dest) _) rfl rfl rfl]
    exact (by decide : (2 : Word) ^^^ 1 ≠ 2)

theorem genFeistelCipher_not_covers
    (made : genFeistelCipher tb scratch src1 src2 dest size = some g)
    (hidden : src2.hidden size = true)
    : ¬ g.Covers := by
  obtain ⟨t, loads, xors, stores, kills, parts⟩ := genFeistelCipher_parts made
  have xor := parts.xor
  have temp := parts.temp
  cases src2 with
  | mem m => cases hidden
  | reg reg =>
    -- A size of more than four bytes makes the temporary a vector register.
    have wide (large : decide (4 < size) = true) : ¬ size ≤ 4 :=
      Nat.not_le_of_gt (of_decide_eq_true large)
    have spares (temp : (if size ≤ 4 then some Gpr.eax.name else if size ≤ 8 then some (.mm 0)
          else if size ≤ 16 then some (.xmm 0) else none) = some t)
        : .ecx ∉ t.gprs := by
      split at temp
      · cases temp
        decide
      · split at temp
        · cases temp
          decide
        · split at temp
          · cases temp
            decide
          · cases temp
    cases reg with
    | eip | ip =>
      cases xor
      exact parts.not_covers_eip rfl (spares temp)
    | seg sg =>
      cases xor
      refine parts.not_covers_wide rfl (fun s seg _ _ => ?_) (storesNear_nothing (fun _ => rfl))
        ((if_neg (wide hidden)).symm.trans temp)
      exact congrArg (fun seg => s.setGpr .ecx ((seg sg).setWidth 32)) seg
    | cr n =>
      cases xor
      refine parts.not_covers_wide rfl (fun s _ cr _ => ?_) (storesNear_nothing (fun _ => rfl))
        ((if_neg (wide hidden)).symm.trans temp)
      exact congrArg (fun cr => s.setGpr .ecx (cr n)) cr
    | dr n =>
      cases xor
      refine parts.not_covers_wide rfl (fun s _ _ dr => ?_) (storesNear_nothing (fun _ => rfl))
        ((if_neg (wide hidden)).symm.trans temp)
      exact congrArg (fun dr => s.setGpr .ecx (dr n)) dr
    | _ => cases hidden

end

end FastPokeEmu.Floppy
