import FastPokeEmu.Floppy.SimpleCopies

/-! What one copy of simple aggregation does: which bytes of the operand arrive at the picked
words, and what else changes on the way.
-/

namespace FastPokeEmu.Floppy

open ByteMemory List Function

/-- Number of bytes that saving a register writes. -/
def RegName.savedBytes : RegName → Nat
  | .seg _ => 2
  | .st _ => 10
  | .xmm _ => 16
  | .xcr0 => 8
  -- `ldmxcsr` is a load
  | .mxcsr | .tr => 0
  | _ => 4

/-- General purpose registers that saving a register changes; no gadget declares them. -/
def RegName.savedThrough : RegName → List Gpr
  | .cr _ | .dr _ | .eip | .ip => [.eax]
  | .xcr0 => [.eax, .edx]
  | _ => []

/-- Number of low bytes of a register that its copy holds. -/
def RegName.copiedBytes : RegName → Nat
  -- the text of a high byte is resized to that of the low byte
  | .gpr r => if r.part = .high then 0 else r.part.bytes
  | .seg _ => 2
  | .cr _ | .dr _ | .eflags | .mm _ => 4
  | .st _ => 10
  | .xmm _ => 16
  -- EIP is that of the gadget, the halves of XCR0 are exchanged, and MXCSR is loaded
  | .eip | .ip | .xcr0 | .mxcsr | .tr => 0

/-- Copies that push a word on the way. -/
def RegName.pushes : RegName → Bool
  | .eflags | .eip | .ip => true
  | _ => false

def RegName.isSt : RegName → Bool
  | .st _ => true
  | _ => false

/-- A byte of a register; instruction pointer and task register are not modelled. -/
def RegName.byte (cpu : Cpu) (s : St) (i : Nat) : RegName → Byte
  | .gpr r => byteAt (s.reg r) i
  | .seg sg => byteAt (s.seg sg) i
  | .cr n => byteAt (s.cr n) i
  | .dr n => byteAt (s.dr n) i
  | .eflags => byteAt (cpu.pushed s.eflags) i
  | .st n => byteAt (s.ext (.st n)) i
  | .mm n => byteAt (s.ext (.mm n)) i
  | .xmm n => byteAt (s.ext (.xmm n)) i
  | .mxcsr => byteAt (s.ext .mxcsr) i
  | .xcr0 => byteAt (s.ext .xcr0) i
  | .eip | .ip | .tr => 0

namespace Copy

variable (c : Copy)

/-- Number of bytes that the gadget writes from the picked word on. -/
def bytes : Nat :=
  match c.op.kind with
  | .reg (some name) => name.savedBytes
  | _ => 4

/-- General purpose registers that the gadget changes. -/
def touched (inst : Inst) (c : Copy) : List Gpr :=
  match c.op.kind with
  | .reg (some name) => name.savedThrough
  | _ => [inst.carrier]

def pushes : Bool :=
  match c.op.kind with
  | .reg (some name) => name.pushes
  | _ => false

def isSt : Bool :=
  match c.op.kind with
  | .reg (some name) => name.isSt
  | _ => false

def isMem : Bool :=
  match c.op.kind with
  | .mem _ => true
  | _ => false

/-- Physical addresses that the gadget may write, given the stack pointer. -/
def writes (τ : Translation) (esp : Word) (c : Copy) : List Word :=
  (List.range c.bytes).map (τ.data c.dest)
  ++ if c.pushes then (List.range 4).map (fun i => τ .ss (esp - 4 + BitVec.ofNat 32 i)) else []

end Copy

/-- What a piece of code may change. -/
structure Frame (written : List Word) (touched : List Gpr) (fpu : Bool) (s s' : St) : Prop where
  mem : ∀ a, a ∉ written → s'.mem a = s.mem a
  gpr : ∀ r, r ∉ touched → s'.gpr r = s.gpr r
  eflags : s'.eflags = s.eflags
  seg : s'.seg = s.seg
  cr : s'.cr = s.cr
  dr : s'.dr = s.dr
  st : fpu = false → ∀ n, s'.ext (.st n) = s.ext (.st n)
  mm : ∀ n, s'.ext (.mm n) = s.ext (.mm n)
  xmm : ∀ n, s'.ext (.xmm n) = s.ext (.xmm n)

namespace Frame

variable {written : List Word} {touched : List Gpr} {fpu : Bool} {s s' s'' : St}

theorem refl (written : List Word) (touched : List Gpr) (fpu : Bool) (s : St)
    : Frame written touched fpu s s :=
  ⟨fun _ _ => rfl, fun _ _ => rfl, rfl, rfl, rfl, rfl, fun _ _ => rfl, fun _ => rfl, fun _ => rfl⟩

theorem trans (first : Frame written touched fpu s s')
    (second : Frame written touched fpu s' s'')
    : Frame written touched fpu s s'' where
  mem a away := (second.mem a away).trans (first.mem a away)
  gpr r away := (second.gpr r away).trans (first.gpr r away)
  eflags := second.eflags.trans first.eflags
  seg := second.seg.trans first.seg
  cr := second.cr.trans first.cr
  dr := second.dr.trans first.dr
  st plain n := (second.st plain n).trans (first.st plain n)
  mm n := (second.mm n).trans (first.mm n)
  xmm n := (second.xmm n).trans (first.xmm n)

theorem mono {written' : List Word} {touched' : List Gpr} {fpu' : Bool}
    (frame : Frame written touched fpu s s') (memory : written ⊆ written')
    (registers : touched ⊆ touched') (floating : fpu' = false → fpu = false)
    : Frame written' touched' fpu' s s' :=
  { frame with
    mem := fun a away => frame.mem a (fun member => away (memory member))
    gpr := fun r away => frame.gpr r (fun member => away (registers member))
    st := fun plain => frame.st (floating plain) }

theorem setGpr (s : St) (r : Gpr) (value : Word)
    : Frame [] [r] false s (s.setGpr r value) where
  mem _ _ := rfl
  gpr _ away := Cpu.update_gpr_of_notMem away
  eflags := rfl
  seg := rfl
  cr := rfl
  dr := rfl
  st _ _ := rfl
  mm _ := rfl
  xmm _ := rfl

theorem withExt (frame : Frame written touched fpu s s') (ext : ExtReg → BitVec 128)
    (mm : ∀ n, ext (.mm n) = s'.ext (.mm n)) (xmm : ∀ n, ext (.xmm n) = s'.ext (.xmm n))
    : Frame written touched true s { s' with ext := ext } :=
  { frame with
    st := fun plain => nomatch plain
    mm := fun n => (mm n).trans (frame.mm n)
    xmm := fun n => (xmm n).trans (frame.xmm n) }

end Frame

section

variable {cpu : Cpu} {τ : Translation} {s : St}

theorem place_abs (tr : cpu.tr s = τ) (a i : Nat) : cpu.place s (.abs a) i = τ.data a i := by
  rw [Cpu.place, Layout.offset_abs, tr]
  rfl

theorem Frame.put {written : List Word} {touched : List Gpr} {fpu : Bool} {s' : St}
    (frame : Frame written touched fpu s s') (tr : cpu.tr s' = τ) {w : Nat}
    (value : BitVec w) {dest n m : Nat} (fits : n ≤ m)
    : Frame ((List.range m).map (τ.data dest) ++ written) touched fpu s
        (cpu.put s' (.abs dest) value n) :=
  { frame with
    mem := fun a away => by
      have apart := mem_append.not.mp away
      push Not at apart
      refine (cpu.put_mem_of_notMem value (fun member => apart.1 ?_)).trans (frame.mem a apart.2)
      obtain ⟨i, small, same⟩ := cpu.mem_places.mp member
      rw [place_abs tr] at same
      exact mem_map.mpr ⟨i, mem_range.mpr (by omega), same⟩ }

theorem put_abs_at (tr : cpu.tr s = τ) {w : Nat} (value : BitVec w) {dest n i : Nat}
    (inside : i < n) (small : n ≤ 4096)
    : (cpu.put s (.abs dest) value n).mem (τ.data dest i) = byteAt value i := by
  rw [← place_abs tr]
  refine write_place s.mem value inside (fun j less same => ?_)
  rw [place_abs tr, place_abs tr] at same
  have near : τ.Near := tr ▸ cpu.near _ _ _
  exact near .ds _ i j (by omega) (by omega) same

/-- A word is pushed and taken off again. -/
theorem pushWord_frame (tr : cpu.tr s = τ) (value : Word)
    : Frame ((List.range 4).map (fun i => τ .ss (s.gpr .esp - 4 + BitVec.ofNat 32 i))) []
        false s (Cpu.drop (cpu.pushWord s value)) where
  mem a away := by
    refine write_other s.mem value (fun i small same => away ?_)
    refine mem_map.mpr ⟨i, mem_range.mpr small, ?_⟩
    rw [same, Cpu.slotPlace, tr]
  gpr r _ := by
    simp only [Cpu.drop, Cpu.pushWord, St.setGpr]
    by_cases isEsp : r = .esp
    · rw [isEsp, update_self, update_self, BitVec.sub_add_cancel]
    · rw [update_of_ne isEsp, update_of_ne isEsp]
  eflags := rfl
  seg := rfl
  cr := rfl
  dr := rfl
  st _ _ := rfl
  mm _ := rfl
  xmm _ := rfl

theorem top_pushWord (tr : cpu.tr s = τ) (value : Word)
    (tr' : cpu.tr (cpu.pushWord s value) = τ)
    : cpu.top (cpu.pushWord s value) = value := by
  refine Cpu.top_eq tr' (fun i small => ?_)
  have esp : (cpu.pushWord s value).gpr .esp = s.gpr .esp - 4 := by
    simp only [Cpu.pushWord, update_self]
  rw [esp]
  exact Cpu.pushWord_byte tr value small

theorem byteAt_and {x mask : Word} {i : Nat} (ones : ∀ j < 8, mask.getLsbD (8 * i + j) = true)
    : byteAt (x &&& mask) i = byteAt x i := by
  apply BitVec.eq_of_getLsbD_eq
  intro k bound
  simp [byteAt, bound, ones k bound]

theorem byteAt_value {r : GReg} (low : r.part ≠ .high) {i : Nat} (inside : i < r.part.bytes)
    (gpr : Gpr → Word)
    : byteAt (r.value gpr) i = byteAt (gpr r.reg) i := by
  obtain ⟨reg, part⟩ := r
  cases part with
  | full => rfl
  | word =>
    have ones : ∀ i < 2, ∀ j < 8, (0xffff : Word).getLsbD (8 * i + j) = true := by decide
    exact byteAt_and (ones i inside)
  | low =>
    have ones : ∀ i < 1, ∀ j < 8, (0xff : Word).getLsbD (8 * i + j) = true := by decide
    exact byteAt_and (ones i inside)
  | high => exact absurd rfl low

/-- Resizing keeps the low bytes unless they are those of a high half. -/
theorem resizeReg_bytes {r : GReg} {reg : Gpr} {part : Part} {size : Nat}
    (low : r.part ≠ .high) (fits : size ≤ r.part.bytes)
    (resized : resizeReg (.gpr r) size = some (.gpr ⟨reg, part⟩))
    : reg = r.reg ∧ part ≠ .high ∧ size ≤ part.bytes := by
  obtain ⟨whole, p⟩ := r
  have sized (part' : Part) (low : part' ≠ .high) (same : size = part'.bytes)
      (made : some (RegName.gpr ⟨whole, part'⟩) = some (.gpr ⟨reg, part⟩))
      : reg = whole ∧ part ≠ .high ∧ size ≤ part.bytes := by
    cases made
    exact ⟨rfl, low, same.le⟩
  simp only [resizeReg] at resized
  split at resized
  · split_ifs at resized with one two four
    · exact sized .low (by decide) one resized
    · exact sized .word (by decide) two resized
    · exact sized .full (by decide) four resized
  · split_ifs at resized with isWord two four
    · exact sized .word (by decide) two resized
    · exact sized .full (by decide) four resized
    · cases resized
      exact ⟨rfl, low, fits⟩

/-- Copying the instruction pointer. -/
theorem getEip_frame (dest : Nat)
    (steady
      : ∀ step ∈ cpu.steps s (genGetEip .eax ++ [.ins (.store ⟨.eax, .full⟩ (.abs dest))]),
          cpu.tr step.1 = τ)
    : Frame
        ((List.range 4).map (τ.data dest)
          ++ (List.range 4).map (fun i => τ .ss (s.gpr .esp - 4 + BitVec.ofNat 32 i)))
        [.eax] false s
        (cpu.run s (genGetEip .eax ++ [.ins (.store ⟨.eax, .full⟩ (.abs dest))])) := by
  have pushed := pushWord_frame (steady (s, .callNext 0) (by simp [genGetEip, Cpu.steps,
    Cpu.asmSteps])) (cpu.label 0)
  have last := steady (_, .store ⟨.eax, .full⟩ (.abs dest)) (mem_of_getLast? (by rfl))
  refine Frame.put ?_ last _ (Nat.le_refl 4)
  have swap (s' : St) (value : Word)
      : Cpu.drop (s'.setGpr .eax value) = (Cpu.drop s').setGpr .eax value := by
    simp only [Cpu.drop, St.setGpr]
    rw [update_comm (by decide), update_of_ne (by decide)]
  have shape := swap (cpu.pushWord s (cpu.label 0))
    (cpu.fetch (cpu.pushWord s (cpu.label 0)) .stackTop 32 4)
  have frame := (pushed.mono (List.Subset.refl _) (nil_subset [Gpr.eax]) (fun h => h)).trans
    ((Frame.setGpr (Cpu.drop (cpu.pushWord s (cpu.label 0))) .eax
      (cpu.fetch (cpu.pushWord s (cpu.label 0)) .stackTop 32 4)).mono (nil_subset _)
        (List.Subset.refl _) (fun h => h))
  rw [← shape] at frame
  exact frame

/-- Copying a register changes little, and the copy holds the low bytes of the register. -/
theorem run_reg2Mem {name : RegName} {dest len : Nat} {asm : List Asm}
    (made : reg2MemAsm name (.abs dest) len = some asm)
    (steady : ∀ step ∈ cpu.steps s asm, cpu.tr step.1 = τ)
    : Frame
        ((List.range name.savedBytes).map (τ.data dest)
          ++ if name.pushes then
            (List.range 4).map (fun i => τ .ss (s.gpr .esp - 4 + BitVec.ofNat 32 i))
          else [])
        name.savedThrough name.isSt s (cpu.run s asm)
      ∧ (len ≤ name.copiedBytes
        → ∀ i < len, (cpu.run s asm).mem (τ.data dest i) = name.byte cpu s i) := by
  have first {i : Ins} {rest : List Asm} (shape : asm = .ins i :: rest) : cpu.tr s = τ :=
    steady (s, i) (by simp [shape, Cpu.steps, Cpu.asmSteps])
  have second {i j : Ins} {rest : List Asm} (shape : asm = .ins i :: .ins j :: rest)
      : cpu.tr (cpu.exec s i) = τ :=
    steady (cpu.exec s i, j) (by simp [shape, Cpu.steps, Cpu.asmSteps, Cpu.execAsm])
  cases name with
  | gpr r =>
    simp only [reg2MemAsm, Option.bind_eq_some_iff] at made
    obtain ⟨whole, resized, rest⟩ := made
    obtain ⟨part, rfl⟩ := resizeReg_gpr resized
    cases rest
    have bytes : part.bytes ≤ 4 := by cases part <;> decide
    refine ⟨(Frame.refl _ _ _ s).put (first rfl) _ bytes, fun fits i inside => ?_⟩
    by_cases low : r.part = .high
    · simp only [RegName.copiedBytes, if_pos low] at fits
      omega
    · simp only [RegName.copiedBytes, if_neg low] at fits
      obtain ⟨_, low', fits'⟩ := resizeReg_bytes low fits resized
      refine (put_abs_at (first rfl) _ (show i < part.bytes by omega) (by omega)).trans ?_
      have left : byteAt (GReg.value ⟨r.reg, part⟩ s.gpr) i = byteAt (s.gpr r.reg) i :=
        byteAt_value (r := ⟨r.reg, part⟩) low' (show i < part.bytes by omega) s.gpr
      exact left.trans (byteAt_value low (by omega) s.gpr).symm
  | seg sg =>
    simp only [reg2MemAsm] at made
    split at made
    · cases made
      exact ⟨(Frame.refl _ _ _ s).put (first rfl) _ (Nat.le_refl 2), fun fits i inside =>
        put_abs_at (first rfl) (s.seg sg) (inside.trans_le fits) (by decide)⟩
    · cases made
  | cr n | dr n =>
    cases made
    exact ⟨(Frame.setGpr s .eax _).put (second rfl) _ (Nat.le_refl 4), fun fits i inside =>
      put_abs_at (second rfl) _ (inside.trans_le fits) (by decide)⟩
  | mm n =>
    cases made
    exact ⟨(Frame.refl _ _ _ s).put (first rfl) _ (Nat.le_refl 4), fun fits i inside =>
      put_abs_at (first rfl) (s.ext (.mm n)) (inside.trans_le fits) (by decide)⟩
  | xmm n =>
    cases made
    exact ⟨(Frame.refl _ _ _ s).put (first rfl) _ (Nat.le_refl 16), fun fits i inside =>
      put_abs_at (first rfl) (s.ext (.xmm n)) (inside.trans_le fits) (by decide)⟩
  | eflags =>
    cases made
    have top := top_pushWord (first rfl) (cpu.pushed s.eflags) (second rfl)
    refine ⟨(pushWord_frame (first rfl) _).put (second rfl) _ (Nat.le_refl 4),
      fun fits i inside => ?_⟩
    exact (put_abs_at (second rfl) _ (inside.trans_le fits) (by decide)).trans
      (congrArg (byteAt · i) top)
  | eip | ip =>
    cases made
    exact ⟨getEip_frame dest steady, fun fits i inside =>
      absurd (inside.trans_le fits) (Nat.not_lt_zero i)⟩
  | mxcsr =>
    cases made
    exact ⟨⟨fun _ _ => rfl, fun _ _ => rfl, rfl, rfl, rfl, rfl, fun _ _ => rfl,
      fun _ => rfl, fun _ => rfl⟩, fun fits i inside =>
        absurd (inside.trans_le fits) (Nat.not_lt_zero i)⟩
  | st n =>
    simp only [reg2MemAsm] at made
    split at made
    next isTop =>
      cases made
      subst isTop
      refine ⟨((Frame.refl _ _ true s).put (first rfl) (s.ext (.st 0))
        (Nat.le_refl 10)).withExt _ (fun _ => rfl) (fun _ => rfl), fun fits i inside => ?_⟩
      exact put_abs_at (first rfl) (s.ext (.st 0)) (inside.trans_le fits) (by decide)
    next below =>
      cases made
      have other : ExtReg.st 0 ≠ .st n := fun same => below (by cases same; rfl)
      have kept (s' : St) (r : ExtReg) (isOther : ∀ k, r ≠ .st k)
          : (cpu.exec s' (.fxch n)).ext r = s'.ext r := by
        simp only [Cpu.exec]
        rw [update_of_ne (isOther n), update_of_ne (isOther 0)]
      have exchanged : (cpu.exec s (.fxch n)).ext (.st 0) = s.ext (.st n) := by
        simp only [Cpu.exec]
        rw [update_of_ne other, update_self]
      refine ⟨((((Frame.refl _ _ true s).withExt _ ?_ ?_).put (second rfl)
        ((cpu.exec s (.fxch n)).ext (.st 0)) (Nat.le_refl 10)).withExt _ (fun _ => rfl)
          (fun _ => rfl)).withExt _ ?_ ?_, fun fits i inside => ?_⟩
      · exact fun k => kept s (.mm k) (by simp)
      · exact fun k => kept s (.xmm k) (by simp)
      · exact fun k => kept _ (.mm k) (by simp)
      · exact fun k => kept _ (.xmm k) (by simp)
      · have inTen : i < 10 := inside.trans_le fits
        exact (put_abs_at (second rfl) ((cpu.exec s (.fxch n)).ext (.st 0)) inTen
          (by decide)).trans (congrArg (byteAt · i) exchanged)
  | xcr0 =>
    cases made
    refine ⟨?_, fun fits i inside => absurd (inside.trans_le fits) (Nat.not_lt_zero i)⟩
    have third := steady (_, .store ⟨.eax, .full⟩ (.abs (dest + 4))) (mem_of_getLast? (by rfl))
    have halves : Frame [] [.eax, .edx] false s (cpu.exec s .xgetbv) :=
      ((Frame.setGpr s .eax _).mono (by simp) (by simp) (fun h => h)).trans
        ((Frame.setGpr _ .edx _).mono (by simp) (by simp) (fun h => h))
    refine ((halves.put (second rfl) _ (Nat.le_refl 4)).put third _ (Nat.le_refl 4)).mono ?_
      (List.Subset.refl _) (fun h => h)
    intro a mem
    simp only [append_nil, mem_append, mem_map, mem_range] at mem
    refine mem_append_left _ (mem_map.mpr ?_)
    rcases mem with ⟨i, small, rfl⟩ | ⟨i, small, rfl⟩
    · refine ⟨4 + i, mem_range.mpr (show 4 + i < 8 by omega), ?_⟩
      rw [Layout.data_eq, Layout.data_eq, Nat.add_assoc]
    · exact ⟨i, mem_range.mpr (show i < 8 by omega), rfl⟩
  | tr => cases made

/-- Copying a word of the memory operand. -/
theorem run_mem2Mem (src : MemOp) (dest : Nat) (steady
      : ∀ step ∈ cpu.steps s ((copyWord src (.abs dest)).map .ins), cpu.tr step.1 = τ)
    : Frame ((List.range 4).map (τ.data dest)) [carrier src (.abs dest)] false s
        (cpu.run s ((copyWord src (.abs dest)).map .ins))
      ∧ ∀ i < 4,
          (cpu.run s ((copyWord src (.abs dest)).map .ins)).mem (τ.data dest i)
            = s.mem (cpu.place s src i) := by
  have last := steady (_, .store ⟨carrier src (.abs dest), .full⟩ (.abs dest))
    (mem_of_getLast? (by rfl))
  refine ⟨?_, fun i inside => ?_⟩
  · have frame : Frame ((List.range 4).map (τ.data dest) ++ []) [carrier src (.abs dest)]
        false s (cpu.run s ((copyWord src (.abs dest)).map .ins)) :=
      (Frame.setGpr s (carrier src (.abs dest)) (cpu.fetch s src 32 4)).put last _
        (Nat.le_refl 4)
    rwa [append_nil] at frame
  · refine (put_abs_at last _ inside (by decide)).trans ?_
    have loaded : (cpu.exec s (.load src ⟨carrier src (.abs dest), .full⟩)).reg
        ⟨carrier src (.abs dest), .full⟩ = cpu.fetch s src 32 4 :=
      update_self ..
    exact (congrArg (byteAt · i) loaded).trans (byteAt_assemble (by decide) _ inside)

end

section

variable {inst : Inst} {cpu : Cpu} {τ : Translation} {s : St} {c : Copy} {g : Gadget}

theorem Copy.gadget_reg {name : RegName} (kind : c.op.kind = .reg (some name))
    (made : c.gadget inst = some g)
    : reg2MemAsm name (.abs c.dest) c.op.len = some g.asm ∧ .reg name ∈ g.use := by
  have noBackup : Tables.empty.isBackup c.dest = false := rfl
  simp only [Copy.gadget, kind, genReg2Mem, Option.bind_eq_bind, Option.bind_eq_some_iff,
    noBackup, Bool.and_false, Bool.false_eq_true, if_false] at made
  obtain ⟨asm, code, final⟩ := made
  cases final
  exact ⟨code, LocSet.mem_union_left (s := [.reg name]) (mem_singleton.mpr rfl)⟩

theorem Copy.gadget_mem {n : Nat} (kind : c.op.kind = .mem n) (made : c.gadget inst = some g)
    : g.asm = (copyWord (inst.text 0) (.abs c.dest)).map .ins
      ∧ g.kill = [.reg inst.carrier.name] := by
  simp only [Copy.gadget, kind, Option.some.injEq] at made
  subst made
  rw [← inst.carrier_abs c.dest 0, carrier_comm]
  exact ⟨rfl, rfl⟩

/-- What a copy changes. -/
theorem run_copy_frame (made : c.gadget inst = some g)
    (steady : ∀ step ∈ cpu.steps s g.asm, cpu.tr step.1 = τ)
    : Frame (c.writes τ (s.gpr .esp)) (c.touched inst) c.isSt s (cpu.run s g.asm) := by
  cases kind : c.op.kind with
  | reg name =>
    cases name with
    | none => simp [Copy.gadget, kind] at made
    | some name =>
      simp only [Copy.writes, Copy.bytes, Copy.pushes, Copy.touched, Copy.isSt, kind]
      exact (run_reg2Mem (Copy.gadget_reg kind made).1 steady).1
  | mem n =>
    obtain ⟨asm, _⟩ := Copy.gadget_mem kind made
    rw [asm] at steady ⊢
    have frame := (run_mem2Mem (inst.text 0) c.dest steady).1
    rw [carrier_comm, inst.carrier_abs] at frame
    simp only [Copy.writes, Copy.bytes, Copy.pushes, Copy.touched, Copy.isSt, kind]
    exact frame.mono (subset_append_left _ _) (List.Subset.refl _) (fun h => h)
  | other => simp [Copy.gadget, kind] at made

theorem Copy.esp_notMem_touched (inst : Inst) (c : Copy) : Gpr.esp ∉ c.touched inst := by
  cases kind : c.op.kind with
  | reg name =>
    cases name with
    | none =>
      simp only [Copy.touched, kind, Inst.carrier, carrier]
      split <;> simp
    | some name =>
      simp only [Copy.touched, kind]
      cases name <;> simp [RegName.savedThrough]
  | _ =>
    simp only [Copy.touched, kind, Inst.carrier, carrier]
    split <;> simp

/-- What a list of copies changes, by induction on the list. -/
theorem run_copies_frame {cs : List Copy} {gs : List Gadget} (emits : Emits inst cs gs)
    (steady : ∀ step ∈ cpu.steps s (gs.flatMap Gadget.asm), cpu.tr step.1 = τ)
    : Frame (cs.flatMap (Copy.writes τ (s.gpr .esp))) (cs.flatMap (Copy.touched inst))
        (cs.any Copy.isSt) s (cpu.run s (gs.flatMap Gadget.asm)) := by
  induction emits generalizing s with
  | nil => exact Frame.refl _ _ _ s
  | @cons c g cs gs made rest ih =>
    simp only [flatMap_cons, Cpu.steps_append, mem_append] at steady
    simp only [flatMap_cons, Cpu.run_append]
    have head := run_copy_frame made (fun step mem => steady step (Or.inl mem))
    have tail := ih (fun step mem => steady step (Or.inr mem))
    rw [head.gpr _ (c.esp_notMem_touched inst)] at tail
    refine (head.mono ?_ ?_ ?_).trans (tail.mono ?_ ?_ ?_)
    · exact subset_append_left _ _
    · exact subset_append_left _ _
    · simp +contextual
    · exact subset_append_right _ _
    · exact subset_append_right _ _
    · simp +contextual

end

end FastPokeEmu.Floppy
