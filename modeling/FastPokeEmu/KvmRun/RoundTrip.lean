import FastPokeEmu.KvmRun.Snapshot

/-! What of a dump survives loading it and saving it again.
-/

namespace FastPokeEmu.KvmRun

open Option

def SregsState.segments (s : SregsState) : List SegmentReg :=
  [s.cs, s.ds, s.es, s.fs, s.gs, s.ss, s.tr, s.ldt]

def SregsState.controls (s : SregsState) : List (BitVec 64) :=
  [s.cr0, s.cr1, s.cr2, s.cr3, s.cr4, s.cr8, s.efer]

/-- The fields that KVM does not have are cleared. -/
def FpuState.shared (f : FpuState) : FpuState :=
  { f with unused := 0, mxcsrMask := 0, xmmReserved := default }

/-- All fields but the emulator. -/
def Header.Agrees (h h' : Header) : Prop := { h' with emulator := h.emulator } = h

structure CpuState.Agrees (s s' : CpuState) : Prop where
  regs : s'.regsState = s.regsState
  segments : s'.sregsState.segments = s.sregsState.segments
  tables : s'.sregsState.idtr = s.sregsState.idtr ∧ s'.sregsState.gdtr = s.sregsState.gdtr
  controls : s'.sregsState.controls = s.sregsState.controls
  msrs : s'.msrsState.entries = s.msrsState.entries
  fpu : s'.fpuState.shared = s.fpuState.shared

/-- Agreement on the header, and on the CPUs and the memory that it counts. -/
structure DumpFile.Agrees (f f' : DumpFile) : Prop where
  hdr : f.hdr.Agrees f'.hdr
  cpus : List.Forall₂ CpuState.Agrees (f.cpus.take f.hdr.cpusno.toNat) f'.cpus
  mem : f'.mem = f.mem.take f.hdr.memSize.toNat

theorem extract_parts {a b c : Nat} (hi : BitVec a) (mid : BitVec b) (lo : BitVec c)
    : (hi ++ mid ++ lo).extractLsb' 0 c = lo
      ∧ (hi ++ mid ++ lo).extractLsb' c b = mid
      ∧ (hi ++ mid ++ lo).extractLsb' (c + b) a = hi := by
  refine ⟨BitVec.extractLsb'_append_eq_right, ?_, ?_⟩
  · rw [BitVec.extractLsb'_append_eq_of_le (Nat.le_refl c), Nat.sub_self]
    exact BitVec.extractLsb'_append_eq_right
  · rw [BitVec.extractLsb'_append_eq_of_le (Nat.le_add_right c b), Nat.add_sub_cancel_left]
    exact BitVec.extractLsb'_append_eq_left

theorem FpuSt.ofBytes_bytes (st : FpuSt) : FpuSt.ofBytes st.bytes = st := by
  cases st with
  | mk mantissa expsign reserved =>
    obtain ⟨lo, mid, hi⟩ := extract_parts reserved expsign mantissa
    simp only [FpuSt.ofBytes, FpuSt.bytes, FpuSt.mk.injEq]
    exact ⟨lo, mid, hi⟩

theorem fillFpu_loadFpu (dst s : FpuState) (kfpu : KvmFpu)
    : (fillFpu dst (loadFpu kfpu s)).shared = s.shared := by
  obtain ⟨fpuip, cs, reserved0⟩ := extract_parts s.reserved0 s.cs s.fpuip
  obtain ⟨fpudp, ds, reserved1⟩ := extract_parts s.reserved1 s.ds s.fpudp
  have st : (s.st.map FpuSt.bytes).map FpuSt.ofBytes = s.st := by
    rw [Vector.map_map]
    exact (Vector.map_congr_left (fun st _ => st.ofBytes_bytes)).trans (Vector.map_id _)
  have xmm : (fillFpu dst (loadFpu kfpu s)).xmm = s.xmm := by
    ext i below
    simp only [fillFpu, loadFpu, Vector.getElem_ofFn, below, dif_pos]
  simp only [fillFpu, loadFpu] at xmm
  simp only [FpuState.shared, fillFpu, loadFpu, FpuState.mk.injEq, true_and, and_true]
  exact ⟨fpuip, cs, reserved0, fpudp, ds, reserved1, st, xmm⟩

/-- What `fillCpu` would leave of a CPU is there already. -/
structure CpuState.Kept (s : CpuState) : Prop where
  usable : ∀ seg ∈ s.sregsState.segments, seg.unusable = 0
  cr1 : s.sregsState.cr1 = 0
  efer : s.sregsState.efer = 0
  msrs : s.msrsState.n = 0

theorem setMsrs_frame (msrs : List KvmMsrEntry) (vcpu : Vcpu)
    : (setMsrs msrs vcpu).regs = vcpu.regs
      ∧ (setMsrs msrs vcpu).sregs = vcpu.sregs
      ∧ (setMsrs msrs vcpu).fpu = vcpu.fpu := by
  unfold setMsrs
  split
  · exact ⟨rfl, rfl, rfl⟩
  · exact ⟨rfl, rfl, rfl⟩

theorem segments_kept_iff (s : SregsState)
    : (fillSregs default (loadSregs s)).segments = s.segments
      ↔ ∀ seg ∈ s.segments, seg.unusable = 0 := by
  have cleared : (fillSregs default (loadSregs s)).segments
      = s.segments.map (fun seg => { seg with unusable := 0 }) := rfl
  have same (seg : SegmentReg) : { seg with unusable := 0 } = seg ↔ seg.unusable = 0 := by
    constructor
    · intro unchanged
      exact (congrArg SegmentReg.unusable unchanged).symm
    · intro usable
      rw [← usable]
  rw [cleared]
  nth_rewrite 2 [← List.map_id s.segments]
  rw [List.map_inj_left]
  simp only [id, same]

theorem controls_kept_iff (s : SregsState)
    : (fillSregs default (loadSregs s)).controls = s.controls ↔ s.cr1 = 0 ∧ s.efer = 0 := by
  have cleared : (fillSregs default (loadSregs s)).controls
      = [s.cr0, 0, s.cr2, s.cr3, s.cr4, s.cr8, 0] := rfl
  rw [cleared]
  simp only [SregsState.controls, List.cons.injEq, true_and, and_true]
  constructor
  · intro both
    exact ⟨both.1.symm, both.2.symm⟩
  · intro both
    exact ⟨both.1.symm, both.2.symm⟩

theorem entries_eq_nil_iff (m : MsrsState) : m.entries = [] ↔ m.n = 0 := by
  have some_ : m.msrRegs.toList ≠ [] := by
    intro empty
    have length := m.msrRegs.length_toList
    rw [empty] at length
    cases length
  rw [MsrsState.entries, List.take_eq_nil_iff, ← BitVec.toNat_inj]
  simp only [some_, or_false]
  rfl

/-- A CPU agrees after loading and saving exactly if it has nothing that saving leaves out. -/
theorem agrees_fillCpu_iff (s : CpuState) (kfpu : KvmFpu) (vcpu : Vcpu)
    : s.Agrees (fillCpu default (loadCpu s (loadFpu kfpu s.fpuState) vcpu)) ↔ s.Kept := by
  obtain ⟨regs, sregs, fpu⟩ := setMsrs_frame (loadMsrs s.msrsState)
    { vcpu with regs := loadRegs s.regsState, sregs := loadSregs s.sregsState,
                fpu := loadFpu kfpu s.fpuState }
  have filled : fillCpu default (loadCpu s (loadFpu kfpu s.fpuState) vcpu)
      = { fpuState := fillFpu default (loadFpu kfpu s.fpuState)
          regsState := s.regsState
          sregsState := fillSregs default (loadSregs s.sregsState)
          exceptionState :=
            { vector := (loadCpu s (loadFpu kfpu s.fpuState) vcpu).exception, errorCode := 0 }
          msrsState := default } := by
    unfold fillCpu loadCpu
    rw [regs, sregs, fpu]
    rfl
  rw [filled]
  constructor
  · intro agrees
    obtain ⟨cr1, efer⟩ := (controls_kept_iff s.sregsState).mp agrees.controls
    exact {
      usable := (segments_kept_iff s.sregsState).mp agrees.segments
      cr1
      efer
      msrs := (entries_eq_nil_iff s.msrsState).mp agrees.msrs.symm
    }
  · intro kept
    exact {
      regs := rfl
      segments := (segments_kept_iff s.sregsState).mpr kept.usable
      tables := ⟨rfl, rfl⟩
      controls := (controls_kept_iff s.sregsState).mpr ⟨kept.cr1, kept.efer⟩
      msrs := ((entries_eq_nil_iff s.msrsState).mpr kept.msrs).symm
      fpu := fillFpu_loadFpu default s.fpuState kfpu
    }

theorem fillCpu_fillCpu (s : CpuState) (vcpu vcpu' : Vcpu)
    : fillCpu (fillCpu s vcpu) vcpu' = fillCpu s vcpu' := rfl

theorem saveCpus_eq (vcpus : List Vcpu) : saveCpus vcpus = vcpus.map (fillCpu default) :=
  Folds.foldl_overwrite fillCpu_fillCpu vcpus default

/-- The CPUs of the machine after the loop, with the records read. -/
theorem loadCpus_spec {kfpu : KvmFpu} {vcpus vcpus' : List Vcpu} {file : List CpuState}
    (res : loadCpus kfpu vcpus file = some vcpus')
    : vcpus'.length = vcpus.length
      ∧ List.Forall₂
          (fun s vcpu' => ∃ kfpu vcpu, vcpu' = loadCpu s (loadFpu kfpu s.fpuState) vcpu)
          (file.take vcpus.length) vcpus' := by
  induction vcpus generalizing kfpu file vcpus' with
  | nil =>
    cases res
    exact ⟨rfl, .nil⟩
  | cons vcpu rest ih =>
    cases file with
    | nil => cases res
    | cons s file =>
      unfold loadCpus at res
      split at res
      · obtain ⟨others, read, final⟩ := bind_eq_some_iff.mp res
        cases final
        obtain ⟨length, cpus⟩ := ih read
        exact ⟨congrArg Nat.succ length, .cons ⟨kfpu, vcpu, rfl⟩ cpus⟩
      · cases res

section

variable {n : Nat}

theorem strncpy_eq_self_iff (v : Vector (BitVec 8) n) : strncpy v = v ↔ NulPadded v := by
  constructor
  · intro same i j before zero
    have here : (strncpy v)[i] = v[i] := by rw [same]
    rw [← here]
    simp only [strncpy, Fin.getElem_fin, Vector.getElem_ofFn]
    exact if_pos ⟨j, before, zero⟩
  · intro padded
    ext i below : 1
    simp only [strncpy, Vector.getElem_ofFn]
    split
    next ended =>
      obtain ⟨j, before, zero⟩ := ended
      exact (padded ⟨i, below⟩ j before zero).symm
    · rfl

theorem nulPadded_strncpy (v : Vector (BitVec 8) n) : NulPadded (strncpy v) := by
  intro i j before zero
  simp only [strncpy, Fin.getElem_fin, Vector.getElem_ofFn] at zero ⊢
  have ended : ∃ k : Fin n, k ≤ i ∧ v[k] = 0 := by
    split at zero
    next earlier =>
      obtain ⟨k, below, nul⟩ := earlier
      exact ⟨k, Fin.le_trans below before, nul⟩
    · exact ⟨j, before, zero⟩
  exact if_pos ended

theorem strncpy_strncpy (v : Vector (BitVec 8) n) : strncpy (strncpy v) = strncpy v :=
  (strncpy_eq_self_iff (strncpy v)).mpr (nulPadded_strncpy v)

end

/-- The strings of a header have nothing after their ends. -/
def Header.Padded (h : Header) : Prop :=
  NulPadded h.kernelVersion ∧ NulPadded h.kernelChecksum ∧ NulPadded h.testcaseChecksum

section

variable {kfpu : KvmFpu} {kvm kvm' : Kvm} {f : DumpFile}

/-- What a file that is accepted makes of the machine. -/
theorem load_some (loaded : load kfpu kvm f = some kvm')
    : f.hdr.magic = expectedMagic
      ∧ f.hdr.version = expectedVersion
      ∧ f.hdr.cpusno.toNat = kvm.cpusno
      ∧ f.hdr.memSize.toNat = kvm.vmMemSize
      ∧ kvm.vmMemSize ≤ f.mem.length
      ∧ ∃ vcpus,
          loadCpus kfpu kvm.vcpus f.cpus = some vcpus
          ∧ kvm'
            = { vcpus
                vmMem := f.mem.take kvm.vmMemSize
                stateType := f.hdr.type
                ioports := f.hdr.ioports
                kernelVersion := strncpy f.hdr.kernelVersion
                kernelChecksum := strncpy f.hdr.kernelChecksum
                testcaseChecksum := strncpy f.hdr.testcaseChecksum } := by
  unfold load at loaded
  split at loaded
  next checks =>
    obtain ⟨magic, version, cpusno, memSize⟩ := checks
    obtain ⟨vcpus, read, final⟩ := bind_eq_some_iff.mp loaded
    split at final
    next enough =>
      exact ⟨magic, version, cpusno, memSize, enough, vcpus, read, (Option.some.inj final).symm⟩
    · cases final
  · cases loaded

theorem header_agrees_iff (loaded : load kfpu kvm f = some kvm')
    : f.hdr.Agrees (fillHeader kvm') ↔ f.hdr.Padded := by
  obtain ⟨magic, version, cpusno, memSize, enough, vcpus, read, rfl⟩ := load_some loaded
  have count : BitVec.ofNat 8 vcpus.length = f.hdr.cpusno := by
    have same : vcpus.length = f.hdr.cpusno.toNat := (loadCpus_spec read).1.trans cpusno.symm
    rw [same, BitVec.ofNat_toNat, BitVec.setWidth_eq]
  have size : BitVec.ofNat 32 (f.mem.take kvm.vmMemSize).length = f.hdr.memSize := by
    rw [List.length_take, Nat.min_eq_left enough, ← memSize, BitVec.ofNat_toNat, BitVec.setWidth_eq]
  simp only [Header.Agrees, Header.ext_iff, fillHeader, Kvm.cpusno, count, strncpy_strncpy,
    strncpy_eq_self_iff, Header.Padded, true_and, and_true]
  constructor
  · intro same
    exact ⟨same.2.2.1, same.2.2.2.1, same.2.2.2.2.1⟩
  · intro strings
    exact ⟨magic.symm, version.symm, strings.1, strings.2.1, strings.2.2, size⟩

/-- Loading and then saving a dump gives an agreeing dump exactly if its strings are padded
with NULs and its CPUs have no unusable segment, no `cr1`, no `efer` and no MSRs. Witness:
these are the fields that saving leaves cleared; all others are converted back.
-/
theorem agrees_save_iff (loaded : load kfpu kvm f = some kvm')
    : f.Agrees (save kvm') ↔ f.hdr.Padded ∧ ∀ s ∈ f.cpus.take f.hdr.cpusno.toNat, s.Kept := by
  have header := header_agrees_iff loaded
  obtain ⟨_, _, cpusno, memSize, _, vcpus, read, rfl⟩ := load_some loaded
  have cpus : List.Forall₂ CpuState.Agrees (f.cpus.take f.hdr.cpusno.toNat) (saveCpus vcpus)
      ↔ ∀ s ∈ f.cpus.take f.hdr.cpusno.toNat, s.Kept := by
    rw [saveCpus_eq, List.forall₂_map_right_iff, cpusno]
    apply Folds.forall₂_iff_left (loadCpus_spec read).2
    intro s vcpu made
    obtain ⟨kfpu, old, rfl⟩ := made
    exact agrees_fillCpu_iff s kfpu old
  constructor
  · intro agrees
    exact ⟨header.mp agrees.hdr, cpus.mp agrees.cpus⟩
  · intro kept
    refine ⟨header.mpr kept.1, cpus.mpr kept.2, ?_⟩
    simp only [save, memSize]

end

/-- A dump of one CPU, without memory. -/
def oneCpu (s : CpuState) : DumpFile where
  hdr :=
    { magic := expectedMagic, version := expectedVersion, emulator := 0,
      kernelVersion := default, kernelChecksum := default, testcaseChecksum := default,
      type := 0, cpusno := 1, memSize := 0, ioports := (0, 0) }
  cpus := [s]
  mem := []

def oneCpuKvm : Kvm where
  vcpus := [default]
  vmMem := []
  stateType := 0
  ioports := (0, 0)
  kernelVersion := default
  kernelChecksum := default
  testcaseChecksum := default

theorem oneCpu_loads {s : CpuState} (few : s.msrsState.n.toNat ≤ maxMsrs)
    : ∃ kvm',
        load default oneCpuKvm (oneCpu s) = some kvm'
        ∧ kvm'.vcpus = [loadCpu s (loadFpu default s.fpuState) default] := by
  have read : loadCpus default oneCpuKvm.vcpus (oneCpu s).cpus
      = some [loadCpu s (loadFpu default s.fpuState) default] := by
    simp only [oneCpuKvm, oneCpu, loadCpus, if_pos few, bind_eq_bind, bind_some]
  unfold load
  rw [if_pos ⟨rfl, rfl, rfl, rfl⟩, read]
  exact ⟨_, rfl, rfl⟩

/-- In long mode, with an unusable LDT and one MSR. -/
def longMode : CpuState :=
  { (default : CpuState) with
    sregsState :=
      { (default : SregsState) with
        ldt := { (default : SegmentReg) with unusable := 1 }
        efer := 0x500 }
    msrsState := { (default : MsrsState) with n := 1 } }

/-- The unusable flag, `efer` and the MSRs of a dump that is loaded are not saved. -/
theorem save_loses_efer
    : ∃ kvm',
        load default oneCpuKvm (oneCpu longMode) = some kvm'
        ∧ (save kvm').cpus.map (fun s => (s.sregsState.ldt.unusable, s.sregsState.efer)) = [(0, 0)]
        ∧ (save kvm').cpus.map (fun s => s.msrsState.entries) = [[]]
        ∧ ¬ (oneCpu longMode).Agrees (save kvm') := by
  obtain ⟨kvm', loaded, vcpus⟩ := oneCpu_loads (s := longMode) (by decide)
  have cpus : (save kvm').cpus
      = [fillCpu default (loadCpu longMode (loadFpu default longMode.fpuState) default)] := by
    rw [save, saveCpus_eq, vcpus]
    rfl
  refine ⟨kvm', loaded, ?_, ?_, ?_⟩
  · rw [cpus]
    rfl
  · rw [cpus]
    rfl
  · intro agrees
    have related := agrees.cpus
    rw [cpus] at related
    have first : longMode.Agrees _ := (List.forall₂_cons.mp related).1
    have kept := (agrees_fillCpu_iff _ _ _).mp first
    exact absurd kept.efer (by decide)

/-- The loop accepts as many records as it needs, if none has too many MSRs. -/
theorem exists_loadCpus {vcpus : List Vcpu} {file : List CpuState} (kfpu : KvmFpu)
    (enough : vcpus.length ≤ file.length)
    (few : ∀ s ∈ file, s.msrsState.n.toNat ≤ maxMsrs)
    : ∃ vcpus', loadCpus kfpu vcpus file = some vcpus' := by
  induction vcpus generalizing kfpu file with
  | nil => exact ⟨[], rfl⟩
  | cons vcpu rest ih =>
    cases file with
    | nil => cases enough
    | cons s file =>
      obtain ⟨others, read⟩ := ih (loadFpu kfpu s.fpuState) (Nat.le_of_succ_le_succ enough)
        fun s mem => few s (.tail _ mem)
      refine ⟨loadCpu s (loadFpu kfpu s.fpuState) vcpu :: others, ?_⟩
      simp only [loadCpus, if_pos (few s (.head _)), read, bind_eq_bind, bind_some]

/-- A file with the expected header is loaded. -/
theorem exists_load (kfpu : KvmFpu) {vm : Kvm} {file : DumpFile}
    (magic : file.hdr.magic = expectedMagic) (version : file.hdr.version = expectedVersion)
    (cpusno : file.hdr.cpusno.toNat = vm.cpusno) (memSize : file.hdr.memSize.toNat = vm.vmMemSize)
    (enough : vm.cpusno ≤ file.cpus.length) (whole : vm.vmMemSize ≤ file.mem.length)
    (few : ∀ s ∈ file.cpus, s.msrsState.n.toNat ≤ maxMsrs)
    : ∃ vm', load kfpu vm file = some vm' := by
  obtain ⟨vcpus, read⟩ := exists_loadCpus kfpu enough few
  refine isSome_iff_exists.mp ?_
  rw [load, if_pos ⟨magic, version, cpusno, memSize⟩, read]
  exact isSome_of_eq_some (if_pos whole)

/-- A CPU with some registers in use. -/
def running (n : BitVec 64) : CpuState :=
  { (default : CpuState) with
    regsState := { (default : RegsState) with rax := n, rip := 0x1000 + n, rflags := 2 }
    sregsState :=
      { (default : SregsState) with
        cs := { (default : SegmentReg) with limit := 0xfffff, selector := 8, present := 1 }
        cr0 := 1
        cr3 := n } }

/-- A dump of two CPUs and some memory. -/
def twoCpus : DumpFile where
  hdr := { (oneCpu default).hdr with cpusno := 2, memSize := 3 }
  cpus := [running 1, running 2]
  mem := [1, 2, 3]

def twoCpusKvm : Kvm := { oneCpuKvm with vcpus := [default, default], vmMem := [0, 0, 0] }

theorem agrees_save_iff_twoCpus
    : ∃ kvm', load default twoCpusKvm twoCpus = some kvm' ∧ twoCpus.Agrees (save kvm') := by
  obtain ⟨kvm', loaded⟩ : ∃ kvm', load default twoCpusKvm twoCpus = some kvm' :=
    exists_load default rfl rfl rfl rfl (Nat.le_refl 2) (Nat.le_refl 3) (by decide)
  refine ⟨kvm', loaded, (agrees_save_iff loaded).mpr ⟨?_, ?_⟩⟩
  · have zeros {n : Nat} : NulPadded (default : Vector (BitVec 8) n) := by
      intro i j _ _
      exact Vector.getElem_replicate i.isLt
    exact ⟨zeros, zeros, zeros⟩
  · intro s member
    have listed : s ∈ [running 1, running 2] := member
    rcases List.mem_pair.mp listed with rfl | rfl <;> exact ⟨by decide, rfl, rfl, rfl⟩

theorem kept_fillCpu (vcpu : Vcpu) : (fillCpu default vcpu).Kept where
  usable := by
    simp only [SregsState.segments, fillCpu, fillSregs, getKvmSegment]
    simp only [List.forall_mem_cons]
    decide
  cr1 := rfl
  efer := rfl
  msrs := rfl

/-- A machine loads what another one of its size has saved, and then saves the same: nothing that
a dump of KVM has is lost on the way. -/
theorem save_load_agrees (kvm vm : Kvm) (kfpu : KvmFpu) (cpus : vm.cpusno = kvm.cpusno)
    (size : vm.vmMemSize = kvm.vmMemSize) (few : kvm.cpusno < 2 ^ 8)
    (small : kvm.vmMemSize < 2 ^ 32)
    : ∃ vm', load kfpu vm (save kvm) = some vm' ∧ vm'.vmMem = kvm.vmMem
        ∧ (save kvm).Agrees (save vm') := by
  have cpusno : (save kvm).hdr.cpusno.toNat = vm.cpusno := by
    rw [cpus]
    exact BitVec.toNat_ofNat _ _ |>.trans (Nat.mod_eq_of_lt few)
  have memSize : (save kvm).hdr.memSize.toNat = vm.vmMemSize := by
    rw [size]
    exact BitVec.toNat_ofNat _ _ |>.trans (Nat.mod_eq_of_lt small)
  have kept : ∀ s ∈ (save kvm).cpus, s.Kept := by
    intro s mem
    rw [save, saveCpus_eq] at mem
    obtain ⟨vcpu, -, rfl⟩ := List.mem_map.mp mem
    exact kept_fillCpu vcpu
  have length : vm.cpusno = (save kvm).cpus.length := by
    rw [save, saveCpus_eq, List.length_map]
    exact cpus
  obtain ⟨vm', loaded⟩ := exists_load kfpu rfl rfl cpusno memSize length.le size.le fun s mem => by
    rw [(kept s mem).msrs]
    exact Nat.zero_le _
  have header := (header_agrees_iff loaded).mpr
    ⟨nulPadded_strncpy _, nulPadded_strncpy _, nulPadded_strncpy _⟩
  obtain ⟨-, -, -, -, -, vcpus', read', rfl⟩ := load_some loaded
  have memory : (save kvm).mem.take vm.vmMemSize = kvm.vmMem := by
    rw [size]
    exact List.take_length
  refine ⟨_, loaded, memory, header, ?_, by rw [memSize]; rfl⟩
  rw [cpusno, save, save, saveCpus_eq vcpus', List.forall₂_map_right_iff]
  refine (Folds.forall₂_iff_left (loadCpus_spec read').2 ?_).mpr fun s mem =>
    kept s (List.mem_of_mem_take mem)
  rintro s _ ⟨kfpu, vcpu, rfl⟩
  exact agrees_fillCpu_iff s kfpu vcpu

/-- A machine whose CPUs have done something. -/
def busyKvm : Kvm :=
  { oneCpuKvm with
    vcpus :=
      [{ (default : Vcpu) with regs := { (default : KvmRegs) with rax := 5, rip := 0x1000 } },
       { (default : Vcpu) with sregs := { (default : KvmSregs) with cr0 := 1, cr3 := 0x2000 } }]
    vmMem := [1, 2, 3] }

theorem save_load_agrees_busyKvm
    : ∃ vm', load default twoCpusKvm (save busyKvm) = some vm' ∧ vm'.vmMem = busyKvm.vmMem
        ∧ (save busyKvm).Agrees (save vm') :=
  save_load_agrees busyKvm twoCpusKvm default rfl rfl (by decide) (by decide)

end FastPokeEmu.KvmRun
