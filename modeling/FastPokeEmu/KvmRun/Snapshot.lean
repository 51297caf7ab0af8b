import FastPokeEmu.KvmRun.Records
import FastPokeEmu.Library.Folds

/-! Loading and saving the state of a virtual machine (`kvm.cc`), and what of a dump survives
both. A failed assertion, and an access outside of an array, is `none`.
-/

namespace FastPokeEmu.KvmRun

/-- `strncpy` between arrays of one size: everything from the first NUL on is NUL. -/
def strncpy {n : Nat} (src : Vector (BitVec 8) n) : Vector (BitVec 8) n :=
  Vector.ofFn (fun i => if ∃ j : Fin n, j ≤ i ∧ src[j] = 0 then 0 else src[i])

/-- Nothing follows the first NUL. -/
def NulPadded {n : Nat} (v : Vector (BitVec 8) n) : Prop :=
  ∀ i j : Fin n, j ≤ i → v[j] = 0 → v[i] = 0

def setKvmSegment (src : SegmentReg) : KvmSegment where
  base := src.base
  limit := src.limit
  selector := src.selector
  type := src.type
  present := src.present
  dpl := src.dpl
  db := src.db
  s := src.s
  l := src.l
  g := src.g
  avl := src.avl
  unusable := src.unusable

def setKvmTable (src : DtableReg) : KvmDtable where
  base := src.base
  limit := src.limit

/-- The flag `unusable` is not copied. -/
def getKvmSegment (dst : SegmentReg) (src : KvmSegment) : SegmentReg :=
  { dst with
    base := src.base
    limit := src.limit
    selector := src.selector
    type := src.type
    present := src.present
    dpl := src.dpl
    db := src.db
    s := src.s
    l := src.l
    g := src.g
    avl := src.avl }

def getKvmTable (src : KvmDtable) : DtableReg where
  base := src.base
  limit := src.limit

def loadRegs (s : RegsState) : KvmRegs where
  rax := s.rax
  rbx := s.rbx
  rcx := s.rcx
  rdx := s.rdx
  rsi := s.rsi
  rdi := s.rdi
  rsp := s.rsp
  rbp := s.rbp
  rip := s.rip
  rflags := s.rflags
  r8 := s.r8
  r9 := s.r9
  r10 := s.r10
  r11 := s.r11
  r12 := s.r12
  r13 := s.r13
  r14 := s.r14
  r15 := s.r15

def fillRegs (kregs : KvmRegs) : RegsState where
  rax := kregs.rax
  rbx := kregs.rbx
  rcx := kregs.rcx
  rdx := kregs.rdx
  rsi := kregs.rsi
  rdi := kregs.rdi
  rsp := kregs.rsp
  rbp := kregs.rbp
  rip := kregs.rip
  rflags := kregs.rflags
  r8 := kregs.r8
  r9 := kregs.r9
  r10 := kregs.r10
  r11 := kregs.r11
  r12 := kregs.r12
  r13 := kregs.r13
  r14 := kregs.r14
  r15 := kregs.r15

def loadSregs (s : SregsState) : KvmSregs where
  cs := setKvmSegment s.cs
  ds := setKvmSegment s.ds
  es := setKvmSegment s.es
  fs := setKvmSegment s.fs
  gs := setKvmSegment s.gs
  ss := setKvmSegment s.ss
  tr := setKvmSegment s.tr
  ldt := setKvmSegment s.ldt
  idt := setKvmTable s.idtr
  gdt := setKvmTable s.gdtr
  cr0 := s.cr0
  cr2 := s.cr2
  cr3 := s.cr3
  cr4 := s.cr4
  cr8 := s.cr8
  efer := s.efer
  apicBase := 0
  interruptBitmap := 0

/-- `cr1`, the debug registers and `efer` are not filled. -/
def fillSregs (s : SregsState) (ksregs : KvmSregs) : SregsState :=
  { s with
    cs := getKvmSegment s.cs ksregs.cs
    ds := getKvmSegment s.ds ksregs.ds
    es := getKvmSegment s.es ksregs.es
    fs := getKvmSegment s.fs ksregs.fs
    gs := getKvmSegment s.gs ksregs.gs
    ss := getKvmSegment s.ss ksregs.ss
    tr := getKvmSegment s.tr ksregs.tr
    ldt := getKvmSegment s.ldt ksregs.ldt
    idtr := getKvmTable ksregs.idt
    gdtr := getKvmTable ksregs.gdt
    cr0 := ksregs.cr0
    cr2 := ksregs.cr2
    cr3 := ksregs.cr3
    cr4 := ksregs.cr4
    cr8 := ksregs.cr8 }

/-- The 16 bytes of a register, which are little-endian. -/
def FpuSt.bytes (st : FpuSt) : BitVec 128 := st.reserved ++ st.expsign ++ st.mantissa

def FpuSt.ofBytes (row : BitVec 128) : FpuSt where
  mantissa := row.extractLsb' 0 64
  expsign := row.extractLsb' 64 16
  reserved := row.extractLsb' 80 48

/-- Eight bytes from `fpuip` on also hold `cs` and `reserved0`, and likewise from `fpudp` on;
the upper eight rows of `xmm` keep what the variable held.
-/
def loadFpu (kfpu : KvmFpu) (s : FpuState) : KvmFpu where
  fpr := s.st.map FpuSt.bytes
  fcw := s.fcw
  fsw := s.fsw
  ftwx := s.ftw
  lastOpcode := s.fop
  lastIp := s.reserved0 ++ s.cs ++ s.fpuip
  lastDp := s.reserved1 ++ s.ds ++ s.fpudp
  mxcsr := s.mxcsr
  xmm := Vector.ofFn (fun i => if below : i.val < 8 then s.xmm[i.val] else kfpu.xmm[i])

/-- `unused`, `mxcsr_mask` and `xmm_reserved` are not filled. -/
def fillFpu (s : FpuState) (kfpu : KvmFpu) : FpuState :=
  { s with
    st := kfpu.fpr.map FpuSt.ofBytes
    fcw := kfpu.fcw
    fsw := kfpu.fsw
    ftw := kfpu.ftwx
    fop := kfpu.lastOpcode
    fpuip := kfpu.lastIp.extractLsb' 0 32
    cs := kfpu.lastIp.extractLsb' 32 16
    reserved0 := kfpu.lastIp.extractLsb' 48 16
    fpudp := kfpu.lastDp.extractLsb' 0 32
    ds := kfpu.lastDp.extractLsb' 32 16
    reserved1 := kfpu.lastDp.extractLsb' 48 16
    mxcsr := kfpu.mxcsr
    xmm := Vector.ofFn (fun i => kfpu.xmm[i.val]) }

/-- The entries in use. -/
def MsrsState.entries (m : MsrsState) : List MsrReg := m.msrRegs.toList.take m.n.toNat

def loadMsrs (m : MsrsState) : List KvmMsrEntry :=
  m.entries.map (fun r => { index := r.idx, data := r.val })

/-- `SetMSRs` -/
def setMsrs (msrs : List KvmMsrEntry) (vcpu : Vcpu) : Vcpu :=
  if msrs.length = 0 then vcpu else { vcpu with msrs }

/-- Set the state of a CPU. -/
def loadCpu (s : CpuState) (kfpu : KvmFpu) (vcpu : Vcpu) : Vcpu :=
  setMsrs (loadMsrs s.msrsState)
    { vcpu with regs := loadRegs s.regsState, sregs := loadSregs s.sregsState, fpu := kfpu }

/-- Fill a CPU record; what gets the MSRs is commented out. -/
def fillCpu (s : CpuState) (vcpu : Vcpu) : CpuState :=
  { s with
    regsState := fillRegs vcpu.regs
    sregsState := fillSregs s.sregsState vcpu.sregs
    fpuState := fillFpu s.fpuState vcpu.fpu
    exceptionState := { vector := vcpu.exception, errorCode := 0 } }

/-- The loop over the CPUs, which reads a record for each of them. -/
def loadCpus : KvmFpu → List Vcpu → List CpuState → Option (List Vcpu)
  | _, [], _ => some []
  | _, _ :: _, [] => none
  | kfpu, vcpu :: vcpus, s :: file =>
    if s.msrsState.n.toNat ≤ maxMsrs then do
      let kfpu := loadFpu kfpu s.fpuState
      let rest ← loadCpus kfpu vcpus file
      some (loadCpu s kfpu vcpu :: rest)
    else none

/-- Load a file, with some contents of the local variable `kfpu`. -/
def load (kfpu : KvmFpu) (kvm : Kvm) (f : DumpFile) : Option Kvm :=
  if f.hdr.magic = expectedMagic ∧ f.hdr.version = expectedVersion
      ∧ f.hdr.cpusno.toNat = kvm.cpusno ∧ f.hdr.memSize.toNat = kvm.vmMemSize then do
    let vcpus ← loadCpus kfpu kvm.vcpus f.cpus
    if kvm.vmMemSize ≤ f.mem.length then
      some
        { vcpus
          vmMem := f.mem.take kvm.vmMemSize
          stateType := f.hdr.type
          ioports := f.hdr.ioports
          kernelVersion := strncpy f.hdr.kernelVersion
          kernelChecksum := strncpy f.hdr.kernelChecksum
          testcaseChecksum := strncpy f.hdr.testcaseChecksum }
    else none
  else none

/-- The header, without overrides from the environment. -/
def fillHeader (kvm : Kvm) : Header where
  magic := expectedMagic
  version := expectedVersion
  emulator := emulatorKvm
  kernelVersion := strncpy kvm.kernelVersion
  kernelChecksum := strncpy kvm.kernelChecksum
  testcaseChecksum := strncpy kvm.testcaseChecksum
  type := kvm.stateType
  memSize := BitVec.ofNat 32 kvm.vmMemSize
  cpusno := BitVec.ofNat 8 kvm.cpusno
  ioports := kvm.ioports

/-- One record is filled again and again; it is cleared only before the loop. -/
def saveCpus (vcpus : List Vcpu) : List CpuState :=
  (vcpus.foldl
    (fun written vcpu => (written.1 ++ [fillCpu written.2 vcpu], fillCpu written.2 vcpu))
    ([], default)).1

def save (kvm : Kvm) : DumpFile where
  hdr := fillHeader kvm
  cpus := saveCpus kvm.vcpus
  mem := kvm.vmMem

end FastPokeEmu.KvmRun
