import FastPokeEmu.Floppy.RegisterEffects

/-! Registers that the code of a Feistel gadget changes. The gadget saves its temporaries when
it records EAX or EFLAGS, and declares them otherwise.
-/

namespace FastPokeEmu.Floppy

open List Option LocSet

/-- Operands for which the temporaries are saved. -/
def Source.saved : Source → Bool
  | .reg (.gpr ⟨.eax, _⟩) | .reg .eflags => true
  | _ => false

section

variable {tb : Tables} {scratch src1 dest size : Nat} {src2 : Source} {g : Gadget} {m : MemOp}
  {asm : List Asm}

/-- Registers that the xor of an operand names, apart from the temporary. -/
def Source.via : Source → List Gpr
  | .reg .eip | .reg .ip | .reg (.seg _) | .reg (.cr _) | .reg (.dr _) => [.ecx, .eax]
  | .reg .xcr0 => [.eax, .edx]
  | .reg .eflags => [.eax]
  | _ => []

def RegName.gprs : RegName → List Gpr
  | .gpr r => [r.reg]
  | _ => []

theorem straight_viaEcx {fetch : List Asm} (first : Straight [.ecx] fetch)
    : Straight [.ecx, .eax] (fetch ++ [.ins (.aluReg .xor ⟨.ecx, .full⟩ ⟨.eax, .full⟩)]) := by
  apply Straight.append
  · exact first.mono (cons_subset_cons _ (nil_subset _))
  · apply Straight.one rfl
    · exact (by decide : Gpr.esp ∉ [Gpr.eax])
    · exact subset_cons_self _ _

theorem straight_temp {i : Ins} {rs : List Gpr} (keep : i.stack = .keep) (writes : i.gprs = rs)
    (temp : rs ⊆ [.eax, .ecx])
    : Straight rs [.ins i] := by
  subst writes
  exact .one keep (fun same => absurd (temp same) (by decide)) (List.Subset.refl _)

theorem feistelXor_straight {t : RegName} {kill : List Loc}
    (made : feistelXor scratch src2 t size = some (asm, kill)) (temp : t.gprs ⊆ [.eax, .ecx])
    : Straight (src2.via ++ t.gprs) asm := by
  have left {code : List Asm} (straight : Straight src2.via code)
      : Straight (src2.via ++ t.gprs) code := straight.mono (subset_append_left _ _)
  have right {code : List Asm} (straight : Straight t.gprs code)
      : Straight (src2.via ++ t.gprs) code := straight.mono (subset_append_right _ _)
  have silent {i : Ins} (keep : i.stack = .keep) (writes : i.gprs = [])
      : Straight (src2.via ++ t.gprs) [.ins i] :=
    (Straight.silent keep writes).mono (nil_subset _)
  -- An operand that is moved to ECX first.
  have viaEcx {i : Ins} (keep : i.stack = .keep) (writes : i.gprs = [.ecx])
      : Straight [.ecx, .eax] [.ins i, .ins (.aluReg .xor ⟨.ecx, .full⟩ ⟨.eax, .full⟩)] :=
    straight_viaEcx (straight_temp keep writes (by simp))
  -- The temporary under the name for the size of the operand.
  have sized {name : GReg} (resized : resizeReg t size = some (.gpr name))
      : t.gprs = [name.reg] := by
    cases t with
    | gpr r =>
      obtain ⟨part, same⟩ := resizeReg_gpr resized
      cases same
      rfl
    | _ => cases resized
  cases src2 with
  | mem m =>
    obtain ⟨name, resized, made⟩ := bind_eq_some_iff.mp made
    cases name with
    | gpr dst =>
      cases made
      rw [sized resized] at temp right ⊢
      exact right (straight_temp (i := .aluMem .xor m dst) rfl rfl temp)
    | mm | xmm =>
      cases made
      exact silent rfl rfl
    | _ => cases made
  | reg reg =>
    cases reg with
    | eflags =>
      cases made
      have save : Straight [.eax] [.ins .pushf, .ins (.popMem (.abs scratch))] :=
        (straight_pushf _).mono (nil_subset _)
      have xor : Straight [.eax] [.ins (.aluMem .xor (.abs scratch) ⟨.eax, .full⟩)] :=
        straight_temp rfl rfl (by simp)
      exact left (save.append xor)
    | eip | ip =>
      cases made
      have minus : Straight [Gpr.ecx] [.ins (.aluImm .sub 0 .ecx)] :=
        straight_temp rfl rfl (by simp)
      exact left (straight_viaEcx ((straight_getEip (by decide)).append minus))
    | seg | cr | dr =>
      cases made
      exact left (viaEcx rfl rfl)
    | mxcsr =>
      cases t with
      | gpr r =>
        cases made
        have save : Straight [r.reg] [.ins (.storeExt 4 .mxcsr (.abs scratch))] :=
          (Straight.silent rfl rfl).mono (nil_subset _)
        exact right (save.append (straight_temp rfl rfl temp))
      | _ => cases made
    | xcr0 =>
      have save : Straight [.eax, .edx]
          [.ins .xgetbv, .ins (.store ⟨.edx, .full⟩ (.abs scratch)),
          .ins (.store ⟨.eax, .full⟩ ((MemOp.abs scratch).plus 4))] :=
        ⟨[.xgetbv, .store ⟨.edx, .full⟩ (.abs scratch),
          .store ⟨.eax, .full⟩ ((MemOp.abs scratch).plus 4)], rfl, rfl,
          subset_cons_self _ _, nil_subset _, nil_subset _⟩
      have xored {i : Ins} (keep : i.stack = .keep) (writes : i.gprs = [])
          : Straight [.eax, .edx] [.ins i] :=
        (Straight.silent keep writes).mono (nil_subset _)
      cases t with
      | mm | xmm =>
        cases made
        exact left (save.append (xored rfl rfl))
      | _ => cases made
    | gpr r =>
      obtain ⟨name, resized, made⟩ := bind_eq_some_iff.mp made
      cases name with
      | gpr dst =>
        cases made
        rw [sized resized] at temp right ⊢
        exact right (straight_temp (i := .aluReg .xor r dst) rfl rfl temp)
      | _ => cases made
    | mm | xmm =>
      cases t <;> cases made
      exact silent rfl rfl
    | st | tr => cases made

/-- The temporary is EAX or ECX, or a vector register. -/
theorem feistelTemp_cases {t : RegName} (made : feistelTemp src2 size = some t)
    : t = Gpr.eax.name ∨ t = Gpr.ecx.name ∨ (∃ n, t = .mm n) ∨ ∃ n, t = .xmm n := by
  have general (mentioned : Bool)
      (made : (if size ≤ 4 then some (if mentioned then Gpr.ecx.name else Gpr.eax.name)
        else if size ≤ 8 then some (.mm 0)
        else if size ≤ 16 then some (.xmm 0)
        else none) = some t)
      : t = Gpr.eax.name ∨ t = Gpr.ecx.name ∨ (∃ n, t = .mm n) ∨ ∃ n, t = .xmm n := by
    split at made
    · cases made
      cases mentioned
      · exact .inl rfl
      · exact .inr (.inl rfl)
    · split at made
      · cases made
        exact .inr (.inr (.inl ⟨0, rfl⟩))
      · split at made <;> cases made
        exact .inr (.inr (.inr ⟨0, rfl⟩))
  cases src2 with
  | mem m => exact general _ made
  | reg reg =>
    cases reg with
    | mm n =>
      cases made
      exact .inr (.inr (.inl ⟨_, rfl⟩))
    | xmm n =>
      cases made
      exact .inr (.inr (.inr ⟨_, rfl⟩))
    | _ => exact general _ made

theorem feistelTemp_gprs {t : RegName} (made : feistelTemp src2 size = some t)
    : t.gprs ⊆ [.eax, .ecx] ∧ ∀ r ∈ t.gprs, t = r.name := by
  rcases feistelTemp_cases made with rfl | rfl | ⟨n, rfl⟩ | ⟨n, rfl⟩ <;>
    simp [RegName.gprs, Gpr.name]

/-- Registers and words do not meet. -/
theorem inter_reg_mem {s t : LocSet} (regs : ∀ x ∈ s, ∃ r, x = .reg r)
    (words : ∀ y ∈ t, ∃ m, y = .mem m)
    : s.inter t = [] := by
  have apart {x y : Loc} (first : x ∈ s) (second : y ∈ t)
      : x.same y = false ∧ y.same x = false := by
    obtain ⟨r, rfl⟩ := regs x first
    obtain ⟨m, rfl⟩ := words y second
    exact ⟨rfl, rfl⟩
  rw [LocSet.inter]
  split
  · refine filter_eq_nil_iff.mpr fun x mem present => ?_
    obtain ⟨y, there, same⟩ := has_iff.mp present
    rw [(apart mem there).1] at same
    cases same
  · refine filter_eq_nil_iff.mpr fun y mem present => ?_
    obtain ⟨x, there, same⟩ := has_iff.mp present
    rw [(apart there mem).2] at same
    cases same

/-- The parts of a Feistel gadget, and what it declares. -/
structure FeistelParts (scratch src1 : Nat) (src2 : Source) (dest size : Nat) (g : Gadget)
    (t : RegName) (loads xors stores : List Asm) (kills : List Loc) : Prop where
  temp : feistelTemp src2 size = some t
  load : mem2RegAsm (.abs src1) t size = some loads
  xor : feistelXor scratch src2 t size = some (xors, kills)
  store : reg2MemAsm t (.abs dest) size = some stores
  code : g.asm
    = if src2.saved then [.ins (.push .eax), .ins (.push .ecx)] ++ (loads ++ xors ++ stores)
        ++ [.ins (.pop .ecx), .ins (.pop .eax)]
      else loads ++ xors ++ stores
  kill : src2.saved = false → g.kill = (LocSet.ofList kills).union [.reg t]
  define : ∀ r, .reg (.gpr r) ∈ g.define → t = .gpr r

/-- What a Feistel gadget kills besides the temporary are registers. -/
theorem feistelXor_kill {t : RegName} {kill : List Loc}
    (made : feistelXor scratch src2 t size = some (asm, kill))
    : kill = [] ∨ kill = [.reg Gpr.ecx.name] ∨ kill = [.reg Gpr.eax.name, .reg Gpr.edx.name] := by
  cases src2 with
  | mem m =>
    obtain ⟨name, _, made⟩ := bind_eq_some_iff.mp made
    cases name with
    | gpr | mm | xmm =>
      cases made
      exact .inl rfl
    | _ => cases made
  | reg reg =>
    cases reg with
    | seg | cr | dr =>
      cases made
      exact .inr (.inl rfl)
    | xcr0 =>
      cases t with
      | mm | xmm =>
        cases made
        exact .inr (.inr rfl)
      | _ => cases made
    | gpr r =>
      obtain ⟨name, _, made⟩ := bind_eq_some_iff.mp made
      cases name with
      | gpr =>
        cases made
        exact .inl rfl
      | _ => cases made
    | mm | xmm | mxcsr =>
      cases t <;> cases made
      exact .inl rfl
    | st | tr => cases made
    | eflags | eip | ip =>
      cases made
      exact .inl rfl

theorem mem2RegAsm_temp {t : RegName} (temp : feistelTemp src2 size = some t)
    (code : mem2RegAsm m t size = some asm)
    : ∃ i, asm = [.ins i]
        ∧ i.stack = .keep
        ∧ i.gprs = t.gprs
        ∧ ∀ (cpu : Cpu) s, cpu.footprint s i = [] := by
  rcases feistelTemp_cases temp with rfl | rfl | ⟨n, rfl⟩ | ⟨n, rfl⟩
  · obtain ⟨part, rfl⟩ := mem2RegAsm_gpr code
    exact ⟨_, rfl, rfl, rfl, fun _ _ => rfl⟩
  · obtain ⟨part, rfl⟩ := mem2RegAsm_gpr code
    exact ⟨_, rfl, rfl, rfl, fun _ _ => rfl⟩
  · exact ⟨_, (Option.some.inj code).symm, rfl, rfl, fun _ _ => rfl⟩
  · exact ⟨_, (Option.some.inj code).symm, rfl, rfl, fun _ _ => rfl⟩

theorem reg2MemAsm_temp {t : RegName} (temp : feistelTemp src2 size = some t)
    (code : reg2MemAsm t m size = some asm)
    : ∃ i n, asm = [.ins i]
        ∧ i.stack = .keep
        ∧ i.gprs = []
        ∧ n ≤ 16
        ∧ ∀ (cpu : Cpu) s, cpu.footprint s i = cpu.places s m n := by
  have few (part : Part) : part.bytes ≤ 16 := by cases part <;> decide
  rcases feistelTemp_cases temp with rfl | rfl | ⟨n, rfl⟩ | ⟨n, rfl⟩
  · obtain ⟨part, rfl⟩ := reg2MemAsm_gpr code
    exact ⟨_, part.bytes, rfl, rfl, rfl, few part, fun _ _ => rfl⟩
  · obtain ⟨part, rfl⟩ := reg2MemAsm_gpr code
    exact ⟨_, part.bytes, rfl, rfl, rfl, few part, fun _ _ => rfl⟩
  · exact ⟨_, 4, (Option.some.inj code).symm, rfl, rfl, by decide, fun _ _ => rfl⟩
  · exact ⟨_, 16, (Option.some.inj code).symm, rfl, rfl, Nat.le_refl 16, fun _ _ => rfl⟩

theorem genMem2Reg_temp {t : RegName} {gs : List Gadget} (temp : feistelTemp src2 size = some t)
    (made : genMem2Reg tb m t size = some gs)
    : ∃ g1, gs = [g1] := by
  obtain ⟨asm, code, made⟩ := bind_eq_some_iff.mp made
  obtain ⟨i, rfl, _⟩ := mem2RegAsm_temp temp code
  cases made
  exact ⟨_, rfl⟩

theorem genFeistelCipher_parts (made : genFeistelCipher tb scratch src1 src2 dest size = some g)
    : ∃ t loads xors stores kills,
        FeistelParts scratch src1 src2 dest size g t loads xors stores kills := by
  obtain ⟨t, temp, made⟩ := bind_eq_some_iff.mp made
  obtain ⟨g1, first, made⟩ := bind_eq_some_iff.mp made
  obtain ⟨g3, last, made⟩ := bind_eq_some_iff.mp made
  obtain ⟨⟨xors, kills⟩, middle, made⟩ := bind_eq_some_iff.mp made
  obtain ⟨g1, rfl⟩ := genMem2Reg_temp temp first
  obtain ⟨load, _, kill1, define1⟩ := genMem2Reg_spec first
  obtain ⟨store, define3, kill3⟩ := genReg2Mem_spec last
  refine ⟨t, g1.asm, xors, g3.asm, kills, ?_⟩
  simp only [singleton_append, Gadget.merge, foldl_cons, foldl_nil, if_true,
    bind_eq_bind, bind_some] at made
  generalize second : Gadget.make xors "feistel" [] kills [src2.loc] _ = g2 at made
  have asm : ((g1.add g2).add g3).asm = g1.asm ++ xors ++ g3.asm := by
    rw [← second]
    rfl
  have words : ∀ y ∈ g3.define, ∃ m, y = .mem m := by
    intro y mem
    rcases define3 with empty | one
    · rw [empty] at mem
      cases mem
    · rw [one] at mem
      exact ⟨_, mem_singleton.mp mem⟩
  have kill : ((g1.add g2).add g3).kill = LocSet.ofList kills := by
    have inner : (g1.add g2).kill = LocSet.ofList kills := by
      have sum : (g1.add g2).kill = (g1.kill.union g2.kill).diff (g1.kill.inter g2.define) := rfl
      rw [sum, kill1, ← second]
      rcases feistelXor_kill middle with rfl | rfl | rfl <;> rfl
    have regs : ∀ x ∈ (g1.add g2).kill, ∃ r, x = .reg r := by
      rw [inner]
      intro x mem
      rcases feistelXor_kill middle with rfl | rfl | rfl
      · cases mem
      · exact ⟨_, mem_singleton.mp mem⟩
      · rcases mem_cons.mp mem with rfl | mem
        · exact ⟨_, rfl⟩
        · exact ⟨_, mem_singleton.mp mem⟩
    have sum : ((g1.add g2).add g3).kill
        = ((g1.add g2).kill.union g3.kill).diff ((g1.add g2).kill.inter g3.define) := rfl
    rw [sum, inter_reg_mem regs words, kill3]
    exact inner
  have define (r : GReg) (defined : .reg (.gpr r) ∈ ((g1.add g2).add g3).define)
      : t = .gpr r := by
    rcases mem_of_union (mem_of_diff defined) with inner | outer
    · rcases mem_of_union (mem_of_diff inner) with own | other
      · exact define1 r own
      · rw [← second] at other
        cases other
    · obtain ⟨m, same⟩ := words _ outer
      cases same
  split at made
  · cases made
    exact ⟨temp, load, middle, store, by rw [asm]; rfl, fun saved => (by cases saved),
      fun r defined => define r (mem_of_diff defined)⟩
  · cases made
    exact ⟨temp, load, middle, store, by rw [asm]; rfl, fun saved => (by cases saved),
      fun r defined => define r (mem_of_diff defined)⟩
  next notEax notFlags =>
    cases made
    have unsaved : src2.saved = false := by
      rw [Source.saved]
      · exact notEax
      · exact notFlags
    refine ⟨temp, load, middle, store, ?_, fun _ => congrArg (LocSet.union · _) kill,
      fun r defined => define r (mem_of_diff defined)⟩
    rw [unsaved]
    exact asm

/-- Operands that a Feistel gadget fetches through a register that it does not declare. -/
def Source.hidden (src2 : Source) (size : Nat) : Bool :=
  match src2 with
  | .reg .eip | .reg .ip => true
  | .reg (.seg _) | .reg (.cr _) | .reg (.dr _) => decide (4 < size)
  | _ => false

section

variable {t : RegName} {loads xors stores : List Asm} {kills : List Loc}
  (parts : FeistelParts scratch src1 src2 dest size g t loads xors stores kills)

include parts

theorem FeistelParts.straight : Straight (src2.via ++ t.gprs) (loads ++ xors ++ stores) := by
  have temp := (feistelTemp_gprs parts.temp).1
  have xor := feistelXor_straight parts.xor temp
  obtain ⟨load, rfl, keep, writes, _⟩ := mem2RegAsm_temp parts.temp parts.load
  obtain ⟨store, n, rfl, keep', writes', _⟩ := reg2MemAsm_temp parts.temp parts.store
  refine Straight.append (Straight.append ?_ xor) ?_
  · exact (straight_temp keep writes temp).mono (subset_append_right _ _)
  · exact (Straight.silent keep' writes').mono (nil_subset _)

/-- Saved code is short. -/
theorem FeistelParts.length
    (saved : src2.saved = true)
    : (loads ++ xors ++ stores).length < 100 := by
  obtain ⟨_, rfl, _⟩ := mem2RegAsm_temp parts.temp parts.load
  obtain ⟨_, _, rfl, _⟩ := reg2MemAsm_temp parts.temp parts.store
  have xor : xors.length ≤ 3 := by
    have code := parts.xor
    cases src2 with
    | mem m => cases saved
    | reg reg =>
      cases reg with
      | eflags =>
        cases code
        exact Nat.le_refl 3
      | gpr r =>
        obtain ⟨name, resized, code⟩ := bind_eq_some_iff.mp code
        cases name <;> cases code
        exact Nat.le_add_left 1 2
      | _ => cases saved
  simp only [length_append, length_singleton]
  omega

/-- Registers that the operand is fetched through are declared, unless it is hidden. -/
theorem FeistelParts.declares_via
    (saved : src2.saved = false) (shown : src2.hidden size = false) {r : Gpr}
    (via : r ∈ src2.via)
    (own : t = r.name → ((LocSet.ofList kills).union [.reg t]).has (.reg r.name) = true)
    : ((LocSet.ofList kills).union [.reg t]).has (.reg r.name) = true := by
  have code := parts.xor
  -- Segment, control and debug registers go through ECX, which is killed, to the temporary.
  have viaEcx (temp : Gpr.eax.name = t) (kill : [.reg Gpr.ecx.name] = kills)
      (via : r ∈ [Gpr.ecx, .eax])
      : ((LocSet.ofList kills).union [.reg t]).has (.reg r.name) = true := by
    rcases mem_cons.mp via with rfl | isEax
    · rw [← kill]
      exact has_union_left rfl
    · exact own (mem_singleton.mp isEax ▸ temp.symm)
  cases src2 with
  | mem m => cases via
  | reg reg =>
    have small (wide : decide (4 < size) = false) : size ≤ 4 :=
      Nat.le_of_not_lt (of_decide_eq_false wide)
    cases reg with
    | eip | ip => cases shown
    | eflags => cases saved
    | seg | cr | dr =>
      have temp := Option.some.inj ((if_pos (small shown)).symm.trans parts.temp)
      exact viaEcx temp (congrArg Prod.snd (Option.some.inj code)) via
    | xcr0 =>
      apply has_union_left
      have kill : kills = [.reg Gpr.eax.name, .reg Gpr.edx.name] := by
        cases t with
        | mm | xmm => exact (congrArg Prod.snd (Option.some.inj code)).symm
        | _ => cases code
      rw [kill]
      rcases mem_cons.mp via with rfl | isEdx
      · rfl
      · obtain rfl := mem_singleton.mp isEdx
        rfl
    | _ => cases via

end

theorem genFeistelCipher_covers (made : genFeistelCipher tb scratch src1 src2 dest size = some g)
    (shown : src2.hidden size = false)
    : g.Covers := by
  obtain ⟨t, loads, xors, stores, kills, parts⟩ := genFeistelCipher_parts made
  have straight := parts.straight
  have code := parts.code
  cases saved : src2.saved with
  | true =>
    have short := parts.length saved
    obtain ⟨is, shape, even, named⟩ := straight
    rw [saved, if_pos rfl, shape] at code
    rw [shape, length_map] at short
    intro cpu s undisturbed r changed
    rw [code] at undisturbed changed
    obtain ⟨apart, i, member, writes⟩ := undisturbed.run_saved even short r changed
    have among := (forall_iff_forall_mem.mp named) i member writes
    have own : src2.via ++ t.gprs ⊆ [.eax, .ecx] := by
      refine append_subset.mpr ⟨?_, (feistelTemp_gprs parts.temp).1⟩
      cases src2 with
      | mem m => cases saved
      | reg reg =>
        cases reg with
        | gpr r => exact nil_subset _
        | eflags => exact cons_subset_cons _ (nil_subset _)
        | _ => cases saved
    exfalso
    rcases mem_cons.mp among with esp | among
    · exact apart.2.2 esp
    · rcases mem_cons.mp (own among) with eax | ecx
      · exact apart.1 eax
      · exact apart.2.1 (mem_singleton.mp ecx)
  | false =>
    rw [saved, if_neg Bool.false_ne_true] at code
    rw [← code] at straight
    apply Gadget.covers_of_straight straight
    intro r member _
    apply Gadget.declares_of_has
    rw [parts.kill saved]
    have own (same : t = r.name)
        : ((LocSet.ofList kills).union [.reg t]).has (.reg r.name) = true :=
      has_union_right (whole_reg r) mem_cons_self
        (same ▸ Loc.same_refl (.reg r.name))
    rcases mem_append.mp member with via | temp
    · apply parts.declares_via saved shown via own
    · exact own ((feistelTemp_gprs parts.temp).2 r temp)

end

end FastPokeEmu.Floppy
