import Mathlib.Data.Vector.Basic

/-! The dump format of `x86_cpustate.h`, and the structures of KVM that the driver converts
it to and from. Rows of 16 bytes and the reserved bytes of a register are one number.
-/

namespace FastPokeEmu.KvmRun

def expectedMagic : BitVec 16 := 0xefef

def expectedVersion : BitVec 16 := 1

def maxMsrs : Nat := 0x20

def emulatorKvm : BitVec 32 := 4

structure FpuSt where
  mantissa : BitVec 64
  expsign : BitVec 16
  reserved : BitVec 48
deriving Inhabited, DecidableEq

structure FpuState where
  fcw : BitVec 16
  fsw : BitVec 16
  ftw : BitVec 8
  unused : BitVec 8
  fop : BitVec 16
  fpuip : BitVec 32
  cs : BitVec 16
  reserved0 : BitVec 16
  fpudp : BitVec 32
  ds : BitVec 16
  reserved1 : BitVec 16
  mxcsr : BitVec 32
  mxcsrMask : BitVec 32
  st : Vector FpuSt 8
  xmm : Vector (BitVec 128) 8
  xmmReserved : Vector (BitVec 128) 14
deriving Inhabited, DecidableEq

@[ext]
structure Header where
  magic : BitVec 16
  version : BitVec 16
  emulator : BitVec 32
  kernelVersion : Vector (BitVec 8) 16
  kernelChecksum : Vector (BitVec 8) 64
  testcaseChecksum : Vector (BitVec 8) 64
  type : BitVec 32
  cpusno : BitVec 8
  memSize : BitVec 32
  ioports : BitVec 8 × BitVec 8
deriving DecidableEq

structure RegsState where
  rax : BitVec 64
  rbx : BitVec 64
  rcx : BitVec 64
  rdx : BitVec 64
  rsi : BitVec 64
  rdi : BitVec 64
  rsp : BitVec 64
  rbp : BitVec 64
  r8 : BitVec 64
  r9 : BitVec 64
  r10 : BitVec 64
  r11 : BitVec 64
  r12 : BitVec 64
  r13 : BitVec 64
  r14 : BitVec 64
  r15 : BitVec 64
  rip : BitVec 64
  rflags : BitVec 64
deriving Inhabited, DecidableEq

structure SegmentReg where
  base : BitVec 64
  limit : BitVec 32
  selector : BitVec 16
  type : BitVec 8
  present : BitVec 8
  dpl : BitVec 8
  db : BitVec 8
  s : BitVec 8
  l : BitVec 8
  g : BitVec 8
  avl : BitVec 8
  unusable : BitVec 8
deriving Inhabited, DecidableEq

structure DtableReg where
  base : BitVec 64
  limit : BitVec 16
deriving Inhabited, DecidableEq

structure SregsState where
  cs : SegmentReg
  ds : SegmentReg
  es : SegmentReg
  fs : SegmentReg
  gs : SegmentReg
  ss : SegmentReg
  tr : SegmentReg
  ldt : SegmentReg
  idtr : DtableReg
  gdtr : DtableReg
  cr0 : BitVec 64
  cr1 : BitVec 64
  cr2 : BitVec 64
  cr3 : BitVec 64
  cr4 : BitVec 64
  cr8 : BitVec 64
  dr0 : BitVec 64
  dr1 : BitVec 64
  dr2 : BitVec 64
  dr3 : BitVec 64
  dr6 : BitVec 64
  dr7 : BitVec 64
  efer : BitVec 64
deriving Inhabited, DecidableEq

structure MsrReg where
  idx : BitVec 32
  val : BitVec 64
deriving Inhabited, DecidableEq

structure MsrsState where
  n : BitVec 32
  msrRegs : Vector MsrReg maxMsrs
deriving Inhabited, DecidableEq

structure ExceptionState where
  vector : BitVec 32
  errorCode : BitVec 32
deriving Inhabited, DecidableEq

structure CpuState where
  fpuState : FpuState
  regsState : RegsState
  sregsState : SregsState
  exceptionState : ExceptionState
  msrsState : MsrsState
deriving Inhabited, DecidableEq

/-- The records of a file, in its order: header, CPUs, memory. -/
structure DumpFile where
  hdr : Header
  cpus : List CpuState
  mem : List (BitVec 8)
deriving DecidableEq

structure KvmRegs where
  rax : BitVec 64
  rbx : BitVec 64
  rcx : BitVec 64
  rdx : BitVec 64
  rsi : BitVec 64
  rdi : BitVec 64
  rsp : BitVec 64
  rbp : BitVec 64
  r8 : BitVec 64
  r9 : BitVec 64
  r10 : BitVec 64
  r11 : BitVec 64
  r12 : BitVec 64
  r13 : BitVec 64
  r14 : BitVec 64
  r15 : BitVec 64
  rip : BitVec 64
  rflags : BitVec 64
deriving Inhabited

structure KvmSegment where
  base : BitVec 64
  limit : BitVec 32
  selector : BitVec 16
  type : BitVec 8
  present : BitVec 8
  dpl : BitVec 8
  db : BitVec 8
  s : BitVec 8
  l : BitVec 8
  g : BitVec 8
  avl : BitVec 8
  unusable : BitVec 8
deriving Inhabited

structure KvmDtable where
  base : BitVec 64
  limit : BitVec 16
deriving Inhabited

structure KvmSregs where
  cs : KvmSegment
  ds : KvmSegment
  es : KvmSegment
  fs : KvmSegment
  gs : KvmSegment
  ss : KvmSegment
  tr : KvmSegment
  ldt : KvmSegment
  gdt : KvmDtable
  idt : KvmDtable
  cr0 : BitVec 64
  cr2 : BitVec 64
  cr3 : BitVec 64
  cr4 : BitVec 64
  cr8 : BitVec 64
  efer : BitVec 64
  apicBase : BitVec 64
  interruptBitmap : BitVec 256
deriving Inhabited

structure KvmFpu where
  fpr : Vector (BitVec 128) 8
  fcw : BitVec 16
  fsw : BitVec 16
  ftwx : BitVec 8
  lastOpcode : BitVec 16
  lastIp : BitVec 64
  lastDp : BitVec 64
  xmm : Vector (BitVec 128) 16
  mxcsr : BitVec 32
deriving Inhabited

structure KvmMsrEntry where
  index : BitVec 32
  data : BitVec 64
deriving Inhabited

/-- A virtual CPU: what the set ioctls stored, and its last exception. -/
structure Vcpu where
  regs : KvmRegs
  sregs : KvmSregs
  fpu : KvmFpu
  msrs : List KvmMsrEntry
  exception : BitVec 32
deriving Inhabited

/-- A virtual machine, with the driver's variables. -/
structure Kvm where
  vcpus : List Vcpu
  vmMem : List (BitVec 8)
  stateType : BitVec 32
  ioports : BitVec 8 × BitVec 8
  kernelVersion : Vector (BitVec 8) 16
  kernelChecksum : Vector (BitVec 8) 64
  testcaseChecksum : Vector (BitVec 8) 64

def Kvm.cpusno (kvm : Kvm) : Nat := kvm.vcpus.length

def Kvm.vmMemSize (kvm : Kvm) : Nat := kvm.vmMem.length

end FastPokeEmu.KvmRun
