import FastPokeEmu.Floppy.FlatMachine
import FastPokeEmu.Floppy.RegisterEffects

/-! Saving a register, changing it and restoring it, as `handle_reg_read` and
`handle_reg_write` arrange for. The two directions are generated apart from each other:
general purpose and XMM registers always come back, the others only for some values.
-/

namespace FastPokeEmu.Floppy

open ByteMemory List Function
open BitVec (eq_of_getLsbD_eq getLsbD getLsbD_setWidth ofInt ofNat ofNat_add)

/-- A register with the gadgets that one of the handlers emits for it, if they save the
register in the word `bak`.
-/
inductive BacksUp (name : RegName) (bak : Nat) (e : Emitted) : Prop
  | read (inst : Inst) (isInit : Bool) (op : Operand) (st st' : GenState)
      (emitted : handleRegRead inst isInit op (some name) st = some (e, st'))
      (backs : e.backup ≠ []) (word : st'.feistelIn[st.countR]? = some bak)
  | write (choices : Choices) (isInit : Bool) (op : Operand) (st st' : GenState)
      (emitted : handleRegWrite choices isInit op (some name) st = some (e, st'))
      (backs : e.backup ≠ []) (word : st'.feistelOut[st.countL]? = some bak)

/-- Registers of these classes are restored; CS and the instruction pointer are not. -/
def RegName.Restored : RegName → Prop
  | .gpr r => r.Sizable
  | .seg sg => sg ≠ .cs
  | .eflags | .mxcsr | .cr _ | .mm _ | .xmm _ => True
  | _ => False

/-- The code that saves a register. -/
def RegName.saving (bak : Nat) : RegName → List Ins
  | .gpr r => [.store ⟨r.reg, .full⟩ (.abs bak)]
  | .seg sg => [.storeSeg sg (.abs bak)]
  | .eflags => [.pushf, .popMem (.abs bak)]
  | .mxcsr => [.loadExt 4 (.abs bak) .mxcsr]
  | .cr n => [.movFromCr n .eax, .store ⟨.eax, .full⟩ (.abs bak)]
  | .mm n => [.storeExt 4 (.mm n) (.abs bak)]
  | .xmm n => [.storeExt 16 (.xmm n) (.abs bak)]
  | _ => []

/-- The code that restores a register. -/
def RegName.restoring (bak : Nat) : RegName → List Ins
  | .gpr r => [.load (.abs bak) ⟨r.reg, .full⟩]
  | .seg sg => [.loadSeg (.abs bak) sg]
  | .eflags => [.push .eax, .andlMem flagMask (.abs bak), .pushMem (.abs bak), .popf, .pop .eax]
  | .mxcsr => [.loadExt 4 (.abs bak) .mxcsr]
  | .cr n =>
    if n = 0 then
      [.load (.abs bak) ⟨.eax, .full⟩, .aluImm .or 0x80000001 .eax,
        .aluImm .and 0xc005003f .eax, .movToCr 0 .eax]
    else [.load (.abs bak) ⟨.eax, .full⟩, .movToCr n .eax]
  | .mm n => [.loadExt 4 (.abs bak) (.mm n)]
  | .xmm n => [.loadExt 16 (.abs bak) (.xmm n)]
  | _ => []

section

variable {name : RegName} {bak : Nat} {e : Emitted} {tb : Tables} {backup restore : List Gadget}

theorem Saves.registerBackup {inst : Inst} {fresh : Bool} {len : Nat}
    (saves : Saves inst tb bak fresh (.reg name len) backup restore) (backs : backup ≠ [])
    : ∃ tb len mnemonic,
        mnemonic ≠ ""
        ∧ Floppy.registerBackup tb name bak len mnemonic = some (backup, restore) := by
  cases saves with
  | reg named backed => exact ⟨_, _, _, named, backed⟩
  | old => exact absurd rfl backs

/-- Both handlers build the two gadgets in the same way. -/
theorem BacksUp.registerBackup (backs : BacksUp name bak e)
    : ∃ tb len mnemonic,
        mnemonic ≠ ""
        ∧ Floppy.registerBackup tb name bak len mnemonic = some (e.backup, e.restore) := by
  cases backs with
  | read inst isInit op st st' emitted backs word =>
    cases handleRegRead_cases emitted with
    | skipped => exact (backs rfl).elim
    | handled _ _ added _ atBak emits =>
      rw [(whenInit_grown addInput_grown added).countR] at atBak
      cases atBak.symm.trans word
      exact (loadEmitted_cases emits).1.registerBackup backs
  | write choices isInit op st st' emitted backs word =>
    -- the instruction does not matter for a register
    have inst : Inst :=
      ⟨[], fun _ => ⟨none, 0, 0, none, none, 0, false, false⟩, false, false, false⟩
    cases handleRegWrite_cases inst emitted with
    | skipped => exact (backs rfl).elim
    | handled _ _ added padded _ atBak emits =>
      rw [((whenInit_grown addOutput_grown added).trans (padR_grown padded)).countL] at atBak
      cases atBak.symm.trans word
      exact (storeEmitted_cases emits).1.registerBackup backs

theorem genMem2Reg_code {m : MemOp} {size : Nat} {gs : List Gadget}
    (made : genMem2Reg tb m name size = some gs)
    : mem2RegAsm m name size = some (gs.flatMap (·.asm)) := by
  simp only [genMem2Reg, Option.bind_eq_bind, Option.bind_eq_some_iff] at made
  obtain ⟨asm, code, rest⟩ := made
  rw [code]
  split at rest
  next empty =>
    cases rest
    rw [isEmpty_iff.mp empty]
    rfl
  · cases rest
    simp [Gadget.make]

/-- Other registers are saved and loaded by the plain gadgets; a merge of one gadget has its
code.
-/
theorem registerBackup_code {len : Nat} {mnemonic : String}
    (made : registerBackup tb name bak len mnemonic = some (backup, restore))
    (notGpr : ∀ r, name ≠ .gpr r)
    : ∃ size,
        reg2MemAsm name (.abs bak) size = some (backup.flatMap (·.asm))
        ∧ (name ≠ .eflags → mem2RegAsm (.abs bak) name size = some (restore.flatMap (·.asm))) := by
  unfold registerBackup at made
  split at made
  · simp only [Option.bind_eq_bind, Option.bind_eq_some_iff] at made
    obtain ⟨g, saved, gs, loaded, final⟩ := made
    cases final
    refine ⟨len, ?_, fun _ => genMem2Reg_code loaded⟩
    simpa using (genReg2Mem_spec saved).1
  · simp only [Option.bind_eq_bind, Option.bind_eq_some_iff] at made
    obtain ⟨whole, resized, g, saved, gs, loaded, final⟩ := made
    have same : whole = name := by
      cases name with
      | gpr r => exact (notGpr r rfl).elim
      | _ =>
        cases resized
        rfl
    subst same
    cases final
    refine ⟨4, by simpa using (genReg2Mem_spec saved).1, fun other => ?_⟩
    rw [genMem2Reg_code loaded]
    rcases genMem2Reg_asm loaded with rfl | ⟨g', rfl, _⟩
    · rfl
    · simp only [Gadget.merge, foldl_nil, if_neg other, Option.map_id']
      split <;> simp

/-- What the two gadgets run. -/
theorem BacksUp.code (backs : BacksUp name bak e) (restored : name.Restored)
    : e.backup.flatMap (·.asm) = (name.saving bak).map .ins
      ∧ e.restore.flatMap (·.asm) = (name.restoring bak).map .ins := by
  obtain ⟨tb, len, mnemonic, named, made⟩ := backs.registerBackup
  generalize e.backup = backup at made ⊢
  generalize e.restore = restore at made ⊢
  have other (notGpr : ∀ r, name ≠ .gpr r) := registerBackup_code made notGpr
  cases name with
  | gpr r =>
    obtain ⟨⟨g, rfl, asm⟩, rfl⟩ := registerBackup_gpr restored named made
    simp [asm, RegName.saving, RegName.restoring]
  | seg sg =>
    obtain ⟨size, saved, loaded⟩ := other (by simp)
    have loaded := loaded (by simp)
    have notCs : sg ≠ .cs := restored
    simp only [reg2MemAsm] at saved
    simp only [mem2RegAsm, if_neg notCs] at loaded
    split at saved
    next sized =>
      rw [if_pos sized] at loaded
      exact ⟨(Option.some.inj saved).symm, (Option.some.inj loaded).symm⟩
    · cases saved
  | eflags =>
    obtain ⟨size, saved, _⟩ := other (by simp)
    rw [registerBackup_eflags named made]
    exact ⟨(Option.some.inj saved).symm, rfl⟩
  | cr n =>
    obtain ⟨size, saved, loaded⟩ := other (by simp)
    have loaded := loaded (by simp)
    refine ⟨(Option.some.inj saved).symm, ?_⟩
    simp only [mem2RegAsm] at loaded
    simp only [RegName.restoring]
    split at loaded
    next zero =>
      rw [if_pos zero]
      exact (Option.some.inj loaded).symm
    next nonzero =>
      rw [if_neg nonzero]
      exact (Option.some.inj loaded).symm
  | mxcsr | mm n | xmm n =>
    obtain ⟨size, saved, loaded⟩ := other (by simp)
    exact ⟨(Option.some.inj saved).symm, (Option.some.inj (loaded (by simp))).symm⟩
  | _ => exact restored.elim

end

/-- Write a value to a register; a selector brings the base of its segment along. -/
def RegName.assign (cpu : Cpu) (value : BitVec 128) (s : St) : RegName → St
  | .gpr r => s.setGpr r.reg (value.setWidth 32)
  | .seg sg => cpu.loadSelector s sg (value.setWidth 16)
  | .eflags => { s with eflags := value.setWidth 32 }
  | .mxcsr => { s with ext := update s.ext .mxcsr value }
  | .cr n => { s with cr := update s.cr n (value.setWidth 32) }
  | .mm n => { s with ext := update s.ext (.mm n) value }
  | .xmm n => { s with ext := update s.ext (.xmm n) value }
  | _ => s

/-- The register has the same value in both states, over its full width. -/
def RegName.Same (s s' : St) : RegName → Prop
  | .gpr r => s'.gpr r.reg = s.gpr r.reg
  | .seg sg => s'.seg sg = s.seg sg
  | .eflags => s'.eflags = s.eflags
  | .mxcsr => (s'.ext .mxcsr).setWidth 32 = (s.ext .mxcsr).setWidth 32
  | .cr n => s'.cr n = s.cr n
  | .mm n => (s'.ext (.mm n)).setWidth 64 = (s.ext (.mm n)).setWidth 64
  | .xmm n => s'.ext (.xmm n) = s.ext (.xmm n)
  | _ => True

/-- Save a register, write a value to it, and restore it. -/
def RegName.roundTrip (cpu : Cpu) (name : RegName) (e : Emitted) (value : BitVec 128) (s : St)
    : St :=
  cpu.run (name.assign cpu value (cpu.run s (e.backup.flatMap (·.asm))))
    (e.restore.flatMap (·.asm))

/-- The same on the level of instructions. -/
def RegName.trip (cpu : Cpu) (bak : Nat) (value : BitVec 128) (s : St) (name : RegName) : St :=
  (name.restoring bak).foldl cpu.exec
    (name.assign cpu value ((name.saving bak).foldl cpu.exec s))

theorem BacksUp.roundTrip {name : RegName} {bak : Nat} {e : Emitted}
    (backs : BacksUp name bak e) (restored : name.Restored) (cpu : Cpu) (value : BitVec 128)
    (s : St)
    : name.roundTrip cpu e value s = name.trip cpu bak value s := by
  obtain ⟨saves, restores⟩ := backs.code restored
  rw [RegName.roundTrip, saves, restores, cpu.run_ins, cpu.run_ins, RegName.trip]

namespace Cpu

variable (cpu : Cpu)

/-- Memory that saving and restoring may write: the word of the backup, with the words after
it for wide registers, and two words below the top of the stack.
-/
def spill (s : St) (bak : Nat) : List Word :=
  cpu.places s (.abs bak) 16
  ++ (List.range 8).map (fun i => cpu.tr s .ss (s.gpr .esp - 8 + ofNat 32 i))

/-- Neither the page tables nor the descriptors are in that memory, and the stack is apart
from the backup. Among the segments only DS decides where the backup is.
-/
structure Sheltered (s : St) (bak : Nat) : Prop where
  tables
    : ∀ mem, (∀ a ∉ cpu.spill s bak, mem a = s.mem a)
      → (∀ base cr, cpu.translation base cr mem = cpu.translation base cr s.mem)
        ∧ cpu.descriptor mem = cpu.descriptor s.mem
  stack
    : ∀ i < 4, ∀ j < 8,
        cpu.place s (.abs bak) i ≠ cpu.tr s .ss (s.gpr .esp - 8 + ofNat 32 j)
  segments
    : ∀ base, base .ds = s.base .ds → cpu.translation base s.cr s.mem .ds = cpu.tr s .ds

/-- What is found at the address of the backup, if it is read with other segment bases and
control registers than the value was saved with.
-/
def readBack {w : Nat} (s : St) (bak : Nat) (base : Seg → Word) (cr : Nat → Word)
    (saved : BitVec w) (n : Nat) : BitVec w :=
  read w (write s.mem (cpu.place s (.abs bak)) saved n)
    (fun i => cpu.translation base cr s.mem .ds (ofInt 32 bak + ofNat 32 i)) n

end Cpu

/-- When a register comes back. DS and the control registers take part in the translation of
the backup's address; CR0 and EFLAGS pass through a mask; MMX registers lose their upper
half; MXCSR is never saved.
-/
def RegName.Returns (cpu : Cpu) (s : St) (bak : Nat) (value : BitVec 128) : RegName → Prop
  | .seg .ds =>
    cpu.readBack s bak
        (update s.base .ds (cpu.descriptor s.mem (value.setWidth 16))) s.cr
        (s.seg .ds) 2
      = s.seg .ds
  | .cr n =>
    let found := cpu.readBack s bak s.base (update s.cr n (value.setWidth 32)) (s.cr n) 4
    (if n = 0 then (found ||| 0x80000001#32) &&& 0xc005003f#32 else found) = s.cr n
  | .eflags =>
    cpu.popped (cpu.flags .and (cpu.pushed s.eflags) flagMask (value.setWidth 32))
        (cpu.pushed s.eflags &&& flagMask)
      = s.eflags
  | .mxcsr => cpu.word s (.abs bak) = (s.ext .mxcsr).setWidth 32
  | .mm n => (s.ext (.mm n)).extractLsb' 32 32 = 0
  | _ => True

section

variable {cpu : Cpu} {s : St} {bak : Nat} (sheltered : cpu.Sheltered s bak) {n : Nat} {w : Nat}

include sheltered

theorem Cpu.Sheltered.saved (saved : BitVec w) (short : n ≤ 16)
    : (∀ base cr,
          cpu.translation base cr (write s.mem (cpu.place s (.abs bak)) saved n)
            = cpu.translation base cr s.mem)
      ∧ cpu.descriptor (write s.mem (cpu.place s (.abs bak)) saved n)
        = cpu.descriptor s.mem := by
  apply sheltered.tables
  intro a away
  apply write_other
  intro i small same
  apply away
  apply mem_append_left
  exact cpu.mem_places.mpr ⟨i, by omega, same.symm⟩

theorem Cpu.Sheltered.fetch {saved : BitVec w} (s' : St) (short : n ≤ 16)
    (mem : s'.mem = write s.mem (cpu.place s (.abs bak)) saved n)
    : cpu.fetch s' (.abs bak) w n = cpu.readBack s bak s'.base s'.cr saved n := by
  have tr : cpu.tr s' = cpu.translation s'.base s'.cr s.mem := by
    rw [Cpu.tr, mem]
    exact (sheltered.saved saved short).1 _ _
  have place (i : Nat) : cpu.place s' (.abs bak) i
      = cpu.translation s'.base s'.cr s.mem .ds (ofInt 32 bak + ofNat 32 i) := by
    rw [Cpu.place, tr]
    rfl
  rw [Cpu.fetch, Cpu.readBack, mem]
  exact read_congr (fun i _ => by rw [place i])

omit sheltered in
theorem Cpu.readBack_self (cpu : Cpu) (s : St) (bak : Nat) (saved : BitVec w) (short : n ≤ 16)
    : cpu.readBack s bak s.base s.cr saved n = assemble w n (byteAt saved) := by
  apply read_write
  intro i small j small' same
  exact cpu.near s.base s.cr s.mem .ds _ i j (by omega) (by omega) same

omit sheltered in
theorem Cpu.readBack_whole (cpu : Cpu) (s : St) (bak : Nat) (saved : BitVec w) (short : n ≤ 16)
    (fits : 8 * n = w)
    : cpu.readBack s bak s.base s.cr saved n = saved := by
  rw [cpu.readBack_self s bak saved short, assemble_byteAt fits]

variable (value : BitVec 128)

theorem trip_gpr (r : GReg) : RegName.Same s (RegName.trip cpu bak value s (.gpr r)) (.gpr r) := by
  have found := sheltered.fetch
    (RegName.assign cpu value (cpu.put s (.abs bak) (s.gpr r.reg) 4) (.gpr r))
    (by decide : 4 ≤ 16) rfl
  show update _ r.reg _ r.reg = _
  rw [update_self]
  exact found.trans (cpu.readBack_whole s bak (s.gpr r.reg) (by decide) rfl)

/-- The selector is read through DS, which may be the register itself. -/
theorem trip_seg (sg : Seg)
    : RegName.Same s (RegName.trip cpu bak value s (.seg sg)) (.seg sg)
      ↔ RegName.Returns cpu s bak value (.seg sg) := by
  have found := sheltered.fetch
    (RegName.assign cpu value (cpu.put s (.abs bak) (s.seg sg) 2) (.seg sg))
    (by decide : 2 ≤ 16) rfl
  have descriptor := (sheltered.saved (s.seg sg) (by decide : 2 ≤ 16)).2
  have same : RegName.Same s (RegName.trip cpu bak value s (.seg sg)) (.seg sg)
      ↔ cpu.readBack s bak
          (update s.base sg (cpu.descriptor s.mem (value.setWidth 16))) s.cr
          (s.seg sg) 2
        = s.seg sg := by
    show update _ sg _ sg = _ ↔ _
    rw [update_self, ← descriptor]
    exact Iff.of_eq (congrArg (· = s.seg sg) found)
  rw [same]
  by_cases isDs : sg = .ds
  · subst isDs
    exact Iff.rfl
  · have base : update s.base sg (cpu.descriptor s.mem (value.setWidth 16)) .ds = s.base .ds :=
      update_of_ne (Ne.symm isDs) _ _
    have always : RegName.Returns cpu s bak value (.seg sg) := by
      cases sg <;> trivial
    rw [Cpu.readBack, sheltered.segments _ base]
    exact iff_of_true (cpu.readBack_whole s bak (s.seg sg) (by decide) rfl) always

/-- Half of an MMX register is saved, and loading it clears the other half. -/
theorem trip_mm (n : Nat)
    : RegName.Same s (RegName.trip cpu bak value s (.mm n)) (.mm n)
      ↔ RegName.Returns cpu s bak value (.mm n) := by
  have found := sheltered.fetch
    (RegName.assign cpu value (cpu.put s (.abs bak) (s.ext (.mm n)) 4) (.mm n))
    (by decide : 4 ≤ 16) rfl
  have half := cpu.readBack_self s bak (s.ext (.mm n)) (by decide : 4 ≤ 16)
  have loaded : (RegName.trip cpu bak value s (.mm n)).ext (.mm n)
      = assemble 128 4 (byteAt (s.ext (.mm n))) := by
    show update _ (ExtReg.mm n) _ (ExtReg.mm n) = _
    rw [update_self]
    exact found.trans half
  show ((RegName.trip cpu bak value s (.mm n)).ext (.mm n)).setWidth 64 = _ ↔ _ = _
  rw [loaded]
  constructor
  · intro same
    apply eq_of_getLsbD_eq
    intro k bound
    have bit := congrArg (getLsbD · (32 + k)) same
    have inside : 32 + k < 64 := by omega
    have outside : ¬ 32 + k < 8 * 4 := by omega
    simp only [getLsbD_setWidth, getLsbD_assemble_byteAt (by decide : 8 * 4 ≤ 128), inside,
      outside, decide_true, decide_false, Bool.false_and, Bool.and_false, Bool.true_and] at bit
    simp [bound, ← bit]
  · intro clear
    apply eq_of_getLsbD_eq
    intro k bound
    rw [getLsbD_setWidth, getLsbD_setWidth,
      getLsbD_assemble_byteAt (by decide : 8 * 4 ≤ 128)]
    by_cases low : k < 8 * 4
    · simp [low]
    · have bit := congrArg (getLsbD · (k - 32)) clear
      have whole : 32 + (k - 32) = k := by omega
      have inside : k - 32 < 32 := by omega
      simp only [BitVec.getLsbD_extractLsb', whole, inside, decide_true, Bool.true_and] at bit
      simp [bit]

theorem trip_xmm (n : Nat) : RegName.Same s (RegName.trip cpu bak value s (.xmm n)) (.xmm n) := by
  have found := sheltered.fetch
    (RegName.assign cpu value (cpu.put s (.abs bak) (s.ext (.xmm n)) 16) (.xmm n))
    (by decide : 16 ≤ 16) rfl
  show update _ (ExtReg.xmm n) _ (ExtReg.xmm n) = _
  rw [update_self]
  exact found.trans (cpu.readBack_whole s bak (s.ext (.xmm n)) (by decide) rfl)

/-- The word is addressed with the new control register, and CR0 is masked. -/
theorem trip_cr (n : Nat)
    : RegName.Same s (RegName.trip cpu bak value s (.cr n)) (.cr n)
      ↔ RegName.Returns cpu s bak value (.cr n) := by
  have found := sheltered.fetch
    (RegName.assign cpu value (cpu.put (s.setGpr .eax (s.cr n)) (.abs bak) (s.cr n) 4) (.cr n))
    (by decide : 4 ≤ 16) rfl
  have loaded : (RegName.trip cpu bak value s (.cr n)).cr n
      = if n = 0 then
          (cpu.readBack s bak s.base (update s.cr n (value.setWidth 32)) (s.cr n) 4
            ||| 0x80000001#32) &&& 0xc005003f#32
        else
          cpu.readBack s bak s.base (update s.cr n (value.setWidth 32)) (s.cr n) 4 := by
    by_cases zero : n = 0
    · subst zero
      rw [if_pos rfl]
      exact congrArg (fun found => (found ||| 0x80000001#32) &&& 0xc005003f#32) found
    · rw [if_neg zero]
      simp only [RegName.trip, RegName.restoring, if_neg zero]
      show update _ n _ n = _
      rw [update_self]
      exact found
  show _ = _ ↔ _ = _
  rw [loaded]

omit sheltered in
/-- MXCSR is loaded when it should be stored, and loaded again. -/
theorem trip_mxcsr
    : RegName.Same s (RegName.trip cpu bak value s .mxcsr) .mxcsr
      ↔ RegName.Returns cpu s bak value .mxcsr := by
  have loaded : (RegName.trip cpu bak value s .mxcsr).ext .mxcsr
      = cpu.fetch s (.abs bak) 128 4 := by
    rfl
  show ((RegName.trip cpu bak value s .mxcsr).ext .mxcsr).setWidth 32 = _ ↔ _ = _
  rw [loaded]
  have narrow : (cpu.fetch s (.abs bak) 128 4).setWidth 32 = cpu.word s (.abs bak) := by
    apply eq_of_getLsbD_eq
    intro k bound
    rw [getLsbD_setWidth, Cpu.word, Cpu.fetch, Cpu.fetch, ByteMemory.read,
      ByteMemory.read, getLsbD_assemble (by decide), getLsbD_assemble (by decide)]
    simp [bound]
  rw [narrow]

end

/-- A word in memory is masked, pushed and popped to EFLAGS. -/
theorem Cpu.exec_mask_popf {κ : Type} [DecidableEq κ] {cpu : Cpu} {words : Words κ Word}
    {τ : Translation} {s : St} {m : MemOp} {k : κ} (mask : Word) (tr : cpu.tr s = τ)
    (points : ∀ gpr, Points words τ gpr m k)
    (masked : cpu.tr (cpu.exec s (.andlMem mask m)) = τ)
    (pushed : cpu.tr (cpu.exec (cpu.exec s (.andlMem mask m)) (.pushMem m)) = τ)
    : (cpu.exec (cpu.exec (cpu.exec s (.andlMem mask m)) (.pushMem m)) .popf).eflags
      = cpu.popped (cpu.flags .and (words.value s.mem k) mask s.eflags)
          (words.value s.mem k &&& mask) := by
  have word : cpu.word s m = words.value s.mem k := fetch_eq tr (points _)
  generalize state : cpu.exec s (.andlMem mask m) = after at masked pushed ⊢
  have mem : after.mem = write s.mem (words.place k) (words.value s.mem k &&& mask) 4 := by
    rw [← state]
    show (cpu.put s m (cpu.word s m &&& mask) 4).mem = _
    rw [word, put_eq tr (points _)]
  have flags : after.eflags = cpu.flags .and (words.value s.mem k) mask s.eflags := by
    rw [← state, ← word]
    rfl
  have stored : cpu.word after m = words.value s.mem k &&& mask := by
    have value := words.value_write s.mem k (words.value s.mem k &&& mask)
    rw [Cpu.word, fetch_eq masked (points _), mem, value, update_self]
  have top : cpu.top (cpu.exec after (.pushMem m)) = words.value s.mem k &&& mask := by
    rw [← stored]
    refine top_eq pushed (fun i small => ?_)
    exact pushWord_byte masked _ small
  show cpu.popped after.eflags (cpu.top (cpu.exec after (.pushMem m))) = _
  rw [flags, top]

namespace Cpu

variable {cpu : Cpu} {s s' : St} {bak : Nat}

/-- A state that differs in the memory of the backup and the stack only. -/
structure Within (cpu : Cpu) (s : St) (bak : Nat) (s' : St) : Prop where
  base : s'.base = s.base
  cr : s'.cr = s.cr
  mem : ∀ a ∉ cpu.spill s bak, s'.mem a = s.mem a

theorem Sheltered.tr (sheltered : cpu.Sheltered s bak) (within : cpu.Within s bak s')
    : cpu.tr s' = cpu.tr s := by
  rw [Cpu.tr, within.base, within.cr]
  exact (sheltered.tables s'.mem within.mem).1 _ _

theorem Within.put (within : cpu.Within s bak s') (tr : cpu.tr s' = cpu.tr s) (value : Word)
    : cpu.Within s bak (cpu.put s' (.abs bak) value 4) where
  base := within.base
  cr := within.cr
  mem a away := by
    refine (write_other s'.mem value (fun i small same => away ?_)).trans (within.mem a away)
    have place : cpu.place s' (.abs bak) i = cpu.place s (.abs bak) i := by
      rw [Cpu.place, tr]
      rfl
    apply mem_append_left
    exact cpu.mem_places.mpr ⟨i, by omega, place.symm.trans same.symm⟩

theorem Within.push (within : cpu.Within s bak s') (tr : cpu.tr s' = cpu.tr s) (value : Word)
    {k : Nat} (high : k ≤ 4)
    (esp : s'.gpr .esp - 4 = s.gpr .esp - 8 + ofNat 32 k)
    : cpu.Within s bak (cpu.pushWord s' value) where
  base := within.base
  cr := within.cr
  mem a away := by
    refine (write_other s'.mem value (fun i small same => away ?_)).trans (within.mem a away)
    apply mem_append_right
    apply mem_map.mpr
    refine ⟨k + i, by simp; omega, ?_⟩
    rw [same, slotPlace, tr, esp, BitVec.add_assoc, ofNat_add]

/-- The backup as the only word. -/
def backupWord (cpu : Cpu) (s : St) (bak : Nat) : Words Unit Word where
  place _ := cpu.place s (.abs bak)
  distinct _ _ i j small small' same :=
    ⟨rfl, cpu.near s.base s.cr s.mem .ds _ i j (by omega) (by omega) same⟩

theorem points_backupWord (gpr : Gpr → Word)
    : Points (cpu.backupWord s bak) (cpu.tr s) gpr (.abs bak) () := fun _ _ => rfl

theorem Sheltered.safe (sheltered : cpu.Sheltered s bak) (within : cpu.Within s bak s')
    {k : Nat} (high : k ≤ 4)
    (esp : s'.gpr .esp - 4 = s.gpr .esp - 8 + ofNat 32 k)
    : cpu.Safe (cpu.backupWord s bak) (cpu.tr s) s' where
  tr := sheltered.tr within
  slot i small _ j small' same := by
    rw [slotPlace, sheltered.tr within, esp, BitVec.add_assoc, ← ofNat_add] at same
    exact sheltered.stack j small' (k + i) (by omega) same.symm

end Cpu

/-- The state after EFLAGS have been saved. -/
def savedFlags (cpu : Cpu) (s : St) (bak : Nat) : St :=
  { s with
    mem := write (cpu.pushWord s (cpu.pushed s.eflags)).mem (cpu.place s (.abs bak))
      (cpu.pushed s.eflags) 4 }

section

variable {cpu : Cpu} {s : St} {bak : Nat} (sheltered : cpu.Sheltered s bak)

include sheltered

theorem saving_eflags
    : (RegName.saving bak .eflags).foldl cpu.exec s = savedFlags cpu s bak
      ∧ cpu.Within s bak (savedFlags cpu s bak) := by
  have start : cpu.Within s bak s := ⟨rfl, rfl, fun _ _ => rfl⟩
  have esp : s.gpr .esp - 4 = s.gpr .esp - 8 + ofNat 32 4 := by bv_omega
  have pushed := start.push rfl (cpu.pushed s.eflags) (by decide) esp
  have tr := sheltered.tr pushed
  have safe := sheltered.safe start (by decide) esp
  refine ⟨Cpu.exec_pushf_popMem safe tr (Cpu.points_backupWord s.gpr), rfl, rfl, ?_⟩
  have place : cpu.place (cpu.pushWord s (cpu.pushed s.eflags)) (.abs bak)
      = cpu.place s (.abs bak) := by
    funext i
    rw [Cpu.place, tr]
    rfl
  have written := (pushed.put tr (cpu.pushed s.eflags)).mem
  rw [Cpu.put, place] at written
  exact written

/-- EFLAGS come back through the mask, as far as the processor accepts it. -/
theorem trip_eflags (value : BitVec 128)
    : RegName.Same s (RegName.trip cpu bak value s .eflags) .eflags
      ↔ RegName.Returns cpu s bak value .eflags := by
  obtain ⟨saves, within⟩ := saving_eflags sheltered
  -- the states before `andl`, `push` and `popf` of the restoring code
  let changed := RegName.assign cpu value (savedFlags cpu s bak) .eflags
  let kept := cpu.pushWord changed (changed.gpr .eax)
  let masked := cpu.exec kept (.andlMem flagMask (.abs bak))
  let pushed := cpu.exec masked (.pushMem (.abs bak))
  have inside : cpu.Within s bak changed := ⟨within.base, within.cr, within.mem⟩
  have esp : changed.gpr .esp - 4 = s.gpr .esp - 8 + ofNat 32 4 := by
    show s.gpr .esp - 4 = _
    bv_omega
  have insideKept : cpu.Within s bak kept := inside.push (sheltered.tr inside) _ (by decide) esp
  have trKept := sheltered.tr insideKept
  have insideMasked : cpu.Within s bak masked :=
    let put := insideKept.put trKept (cpu.word kept (.abs bak) &&& flagMask)
    ⟨put.base, put.cr, put.mem⟩
  have trMasked := sheltered.tr insideMasked
  have deep : masked.gpr .esp - 4 = s.gpr .esp - 8 + ofNat 32 0 := by
    show s.gpr .esp - 4 - 4 = _
    bv_omega
  have trPushed : cpu.tr pushed = cpu.tr s :=
    sheltered.tr (insideMasked.push trMasked _ (by decide) deep)
  have flags := Cpu.exec_mask_popf flagMask trKept Cpu.points_backupWord trMasked trPushed
  have held : (cpu.backupWord s bak).value kept.mem () = cpu.pushed s.eflags := by
    have push := (sheltered.safe inside (by decide) esp).value_pushWord (changed.gpr .eax)
    have written := (cpu.backupWord s bak).value_write
      (cpu.pushWord s (cpu.pushed s.eflags)).mem () (cpu.pushed s.eflags)
    rw [push]
    exact (congrFun written ()).trans (update_self ..)
  rw [held] at flags
  have final : (RegName.trip cpu bak value s .eflags).eflags = (cpu.exec pushed .popf).eflags := by
    rw [RegName.trip, saves]
    rfl
  show _ = _ ↔ _ = _
  rw [final, flags]
  rfl

end

/-- A register that has been saved, changed and restored has its value back exactly in the
cases of `RegName.Returns`. Witness: one lemma for each class of registers.
-/
theorem roundTrip_same_iff {name : RegName} {bak : Nat} {e : Emitted}
    (backs : BacksUp name bak e) (restored : name.Restored) {cpu : Cpu} {s : St}
    (sheltered : cpu.Sheltered s bak) (value : BitVec 128)
    : name.Same s (name.roundTrip cpu e value s) ↔ name.Returns cpu s bak value := by
  rw [backs.roundTrip restored]
  cases name with
  | gpr r => exact iff_of_true (trip_gpr sheltered value r) trivial
  | seg sg => exact trip_seg sheltered value sg
  | eflags => exact trip_eflags sheltered value
  | mxcsr => exact trip_mxcsr value
  | cr n => exact trip_cr sheltered value n
  | mm n => exact trip_mm sheltered value n
  | xmm n => exact iff_of_true (trip_xmm sheltered value n) trivial
  | _ => exact restored.elim

/-- `movq %mm0,%mm1` -/
def moveMm0 : Inst where
  operands := [⟨.reg (some (.mm 1)), 8, .write⟩, ⟨.reg (some (.mm 0)), 8, .read⟩]
  memory _ := ⟨none, 0, 0, none, none, 0, false, false⟩
  xlat := false
  ltr := false
  popCategory := false

/-- Gadgets for the register that is read. -/
def moveMm0Gadgets : Option (Emitted × GenState) :=
  handleRegRead moveMm0 true ⟨.reg (some (.mm 0)), 8, .read⟩ (some (.mm 0)) .start

theorem backsUp_moveMm0 : ∃ e, BacksUp (.mm 0) 0x128d028 e := by
  have made : moveMm0Gadgets.any (fun out =>
      out.1.backup ≠ [] ∧ out.2.feistelIn[0]? = some 0x128d028) = true := by decide +kernel
  obtain ⟨⟨e, st'⟩, emitted, facts⟩ := (Option.any_eq_true _ _).mp made
  obtain ⟨backs, word⟩ := of_decide_eq_true facts
  exact ⟨e, .read moveMm0 true _ .start st' emitted backs word⟩

/-- A flat machine with the same value in all vector registers. -/
def vectorState (value : BitVec 128) : St :=
  { flatState (fun _ => 0x400000) [] with ext := fun _ => value }

theorem sheltered_vectorState (value : BitVec 128)
    : flatCpu.Sheltered (vectorState value) 0x128d028 where
  tables _ _ := ⟨fun _ _ => rfl, rfl⟩
  stack := by
    show ∀ i < 4, ∀ j < 8,
      ofInt 32 0x128d028 + ofNat 32 i ≠ 0x400000#32 - 8 + ofNat 32 j
    decide
  segments _ _ := rfl

theorem roundTrip_same_iff_lowHalf
    : ∃ e,
        BacksUp (.mm 0) 0x128d028 e
        ∧ RegName.Same (vectorState 7)
            (RegName.roundTrip flatCpu (.mm 0) e 0x900000000 (vectorState 7)) (.mm 0) := by
  obtain ⟨e, backs⟩ := backsUp_moveMm0
  have clear : RegName.Returns flatCpu (vectorState 7) 0x128d028 0x900000000 (.mm 0) := by
    show (7 : BitVec 128).extractLsb' 32 32 = 0
    decide
  exact ⟨e, backs,
    (roundTrip_same_iff backs trivial (sheltered_vectorState 7) 0x900000000).mpr clear⟩

/-- The upper half of an MMX register is lost. -/
theorem roundTrip_loses_upperHalf
    : ∃ e,
        BacksUp (.mm 0) 0x128d028 e
        ∧ ¬ RegName.Same (vectorState 0x100000000)
            (RegName.roundTrip flatCpu (.mm 0) e 0 (vectorState 0x100000000)) (.mm 0) := by
  obtain ⟨e, backs⟩ := backsUp_moveMm0
  refine ⟨e, backs, fun same => ?_⟩
  rw [backs.roundTrip trivial] at same
  have clear := (trip_mm (sheltered_vectorState 0x100000000) 0 0).mp same
  have set : (0x100000000 : BitVec 128).extractLsb' 32 32 ≠ 0 := by decide
  exact set clear

end FastPokeEmu.Floppy
