import Mathlib.Data.List.AList

/-! The dump format of `cpustate_x86.py`: its structures, and the ctypes view of them that
`diff_cpustate.py` walks through.
-/

namespace FastPokeEmu.CpuState

mutual

/-- A ctypes value. A `c_char` array is read as a string. -/
inductive Data where
  | num (n : Nat)
  | text (s : String)
  | struct (fields : Fields)
  | array (items : Items)

/-- `_fields_` with the values of an object -/
inductive Fields where
  | nil
  | cons (name : String) (d : Data) (rest : Fields)

inductive Items where
  | nil
  | cons (d : Data) (rest : Items)

end

def Fields.ofList : List (String × Data) → Fields
  | [] => .nil
  | (name, d) :: rest => .cons name d (.ofList rest)

def Items.ofList : List Data → Items
  | [] => .nil
  | d :: rest => .cons d (.ofList rest)

def Items.get : Items → Nat → Option Data
  | .nil, _ => none
  | .cons d _, 0 => some d
  | .cons _ rest, k + 1 => rest.get k

def Fields.get : Fields → String → Option Data
  | .nil, _ => none
  | .cons name d rest, wanted => if name = wanted then some d else rest.get wanted

/-- A numeric attribute of an object. -/
def Data.attr (d : Data) (name : String) : Option Nat :=
  match d with
  | .struct fields =>
    match fields.get name with
    | some (.num n) => some n
    | _ => none
  | _ => none

/-- A structure of numbers. -/
def record (fields : List (String × Nat)) : Data :=
  .struct (.ofList (fields.map (fun f => (f.1, .num f.2))))

def bytesOf {n : Nat} (v : Vector Nat n) : Data := .array (.ofList (v.toList.map .num))

structure FpuSt where
  mantissa : Nat
  expsign : Nat
  reserved : Vector Nat 6
deriving Inhabited

def FpuSt.view (st : FpuSt) : Data :=
  .struct (.ofList
    [("mantissa", .num st.mantissa), ("expsign", .num st.expsign),
      ("reserved", bytesOf st.reserved)])

structure FpuXmm where
  data : Vector Nat 16
deriving Inhabited

def FpuXmm.view (xmm : FpuXmm) : Data := .struct (.ofList [("data", bytesOf xmm.data)])

structure FpuState where
  fcw : Nat
  fsw : Nat
  ftw : Nat
  unused : Nat
  fop : Nat
  fpuip : Nat
  cs : Nat
  reserved0 : Nat
  fpudp : Nat
  ds : Nat
  reserved1 : Nat
  mxcsr : Nat
  mxcsrMask : Nat
  st : Vector FpuSt 8
  xmm : Vector FpuXmm 8
  xmmReserved : Vector FpuXmm 14
deriving Inhabited

def FpuState.view (f : FpuState) : Data :=
  .struct (.ofList
    [("fcw", .num f.fcw), ("fsw", .num f.fsw), ("ftw", .num f.ftw), ("unused", .num f.unused),
      ("fop", .num f.fop), ("fpuip", .num f.fpuip), ("cs", .num f.cs),
      ("reserved0", .num f.reserved0), ("fpudp", .num f.fpudp), ("ds", .num f.ds),
      ("reserved1", .num f.reserved1), ("mxcsr", .num f.mxcsr), ("mxcsr_mask", .num f.mxcsrMask),
      ("st", .array (.ofList (f.st.toList.map FpuSt.view))),
      ("xmm", .array (.ofList (f.xmm.toList.map FpuXmm.view))),
      ("xmm_reserved", .array (.ofList (f.xmmReserved.toList.map FpuXmm.view)))])

structure RegsState where
  rax : Nat
  rbx : Nat
  rcx : Nat
  rdx : Nat
  rsi : Nat
  rdi : Nat
  rsp : Nat
  rbp : Nat
  r8 : Nat
  r9 : Nat
  r10 : Nat
  r11 : Nat
  r12 : Nat
  r13 : Nat
  r14 : Nat
  r15 : Nat
  rip : Nat
  rflags : Nat
deriving Inhabited

def RegsState.view (r : RegsState) : Data :=
  record
    [("rax", r.rax), ("rbx", r.rbx), ("rcx", r.rcx), ("rdx", r.rdx), ("rsi", r.rsi),
      ("rdi", r.rdi), ("rsp", r.rsp), ("rbp", r.rbp), ("r8", r.r8), ("r9", r.r9),
      ("r10", r.r10), ("r11", r.r11), ("r12", r.r12), ("r13", r.r13), ("r14", r.r14),
      ("r15", r.r15), ("rip", r.rip), ("rflags", r.rflags)]

structure SegmentReg where
  base : Nat
  limit : Nat
  selector : Nat
  type : Nat
  present : Nat
  dpl : Nat
  db : Nat
  s : Nat
  l : Nat
  g : Nat
  avl : Nat
  unusable : Nat
deriving Inhabited

def SegmentReg.view (r : SegmentReg) : Data :=
  record
    [("base", r.base), ("limit", r.limit), ("selector", r.selector), ("type", r.type),
      ("present", r.present), ("dpl", r.dpl), ("db", r.db), ("s", r.s), ("l", r.l), ("g", r.g),
      ("avl", r.avl), ("unusable", r.unusable)]

structure DtableReg where
  base : Nat
  limit : Nat
deriving Inhabited

def DtableReg.view (r : DtableReg) : Data := record [("base", r.base), ("limit", r.limit)]

structure SregsState where
  cs : SegmentReg
  ds : SegmentReg
  es : SegmentReg
  fs : SegmentReg
  gs : SegmentReg
  ss : SegmentReg
  tr : SegmentReg
  ldt : SegmentReg
  idtr : DtableReg
  gdtr : DtableReg
  cr0 : Nat
  cr1 : Nat
  cr2 : Nat
  cr3 : Nat
  cr4 : Nat
  cr8 : Nat
  dr0 : Nat
  dr1 : Nat
  dr2 : Nat
  dr3 : Nat
  dr6 : Nat
  dr7 : Nat
  efer : Nat
deriving Inhabited

def SregsState.view (r : SregsState) : Data :=
  .struct (.ofList
    [("cs", r.cs.view), ("ds", r.ds.view), ("es", r.es.view), ("fs", r.fs.view),
      ("gs", r.gs.view), ("ss", r.ss.view), ("tr", r.tr.view), ("ldt", r.ldt.view),
      ("idtr", r.idtr.view), ("gdtr", r.gdtr.view), ("cr0", .num r.cr0), ("cr1", .num r.cr1),
      ("cr2", .num r.cr2), ("cr3", .num r.cr3), ("cr4", .num r.cr4), ("cr8", .num r.cr8),
      ("dr0", .num r.dr0), ("dr1", .num r.dr1), ("dr2", .num r.dr2), ("dr3", .num r.dr3),
      ("dr6", .num r.dr6), ("dr7", .num r.dr7), ("efer", .num r.efer)])

structure MsrReg where
  idx : Nat
  val : Nat
deriving Inhabited

def MsrReg.view (r : MsrReg) : Data := record [("idx", r.idx), ("val", r.val)]

structure MsrsState where
  n : Nat
  msrRegs : Vector MsrReg 0x20
deriving Inhabited

def MsrsState.view (m : MsrsState) : Data :=
  .struct (.ofList
    [("n", .num m.n), ("msr_regs", .array (.ofList (m.msrRegs.toList.map MsrReg.view)))])

structure ExceptionState where
  vector : Nat
  errorCode : Nat
deriving Inhabited

def ExceptionState.view (e : ExceptionState) : Data :=
  record [("vector", e.vector), ("error_code", e.errorCode)]

/-- `cpu_state_t` -/
structure Cpu where
  fpuState : FpuState
  regsState : RegsState
  sregsState : SregsState
  exceptionState : ExceptionState
  msrsState : MsrsState
deriving Inhabited

def Cpu.view (c : Cpu) : Data :=
  .struct (.ofList
    [("fpu_state", c.fpuState.view), ("regs_state", c.regsState.view),
      ("sregs_state", c.sregsState.view), ("exception_state", c.exceptionState.view),
      ("msrs_state", c.msrsState.view)])

/-- `header_t` -/
structure Header where
  magic : Nat
  version : Nat
  emulator : Nat
  kernelVersion : String
  kernelChecksum : String
  testcaseChecksum : String
  type : Nat
  cpusno : Nat
  memSize : Nat
  ioports : Nat × Nat
deriving Inhabited

def Header.view (h : Header) : Data :=
  .struct (.ofList
    [("magic", .num h.magic), ("version", .num h.version), ("emulator", .num h.emulator),
      ("kernel_version", .text h.kernelVersion), ("kernel_checksum", .text h.kernelChecksum),
      ("testcase_checksum", .text h.testcaseChecksum), ("type", .num h.type),
      ("cpusno", .num h.cpusno), ("mem_size", .num h.memSize),
      ("ioports", .array (.ofList [.num h.ioports.1, .num h.ioports.2]))])

/-- A state that was dumped at the end (or the beginning) of a run. -/
def isValidType (typ : Nat) : Bool := typ / 2 == 0

def crashTestcase : Nat := 0x10

def ioTestcase : Nat := 0x40

def emulatorQemu : Nat := 0

def emulatorBochs : Nat := 1

def emulatorKvm : Nat := 4

/-- The names of the known emulators. -/
def emulatorName : Nat → Option String
  | 0 => some "QEMU"
  | 1 => some "BOCHS"
  | 2 => some "VBOX"
  | 3 => some "VMWARE"
  | 4 => some "KVM"
  | _ => none

/-- A dump as it is loaded: only valid ones have CPUs and memory. -/
structure Dump where
  hdr : Header
  cpus : List Cpu
  mem : List UInt8
  cpus_valid : isValidType hdr.type = true → cpus.length = hdr.cpusno
  cpus_invalid : isValidType hdr.type = false → cpus = []
  mem_invalid : isValidType hdr.type = false → mem = []

/-- A symbol of the kernel's ELF file. -/
structure Symbol where
  address : Nat
  size : Nat

/-- `getSymbol` of the kernel -/
abbrev Kernel := String → Option Symbol

end FastPokeEmu.CpuState
