import FastPokeEmu.Library.ByteMemory

/-! The processor that runs generated programs.
A state holds the registers and physical memory. Everything the programs leave to the
processor (address translation, the flags of an operation, what `popf` accepts) is a field
of `Cpu`, with the few laws that the development relies on. Execution is described for
runs without a fault.
-/

namespace FastPokeEmu.Floppy

open ByteMemory
open Function (update)

abbrev Word := BitVec 32

inductive Gpr
  | eax | ecx | edx | ebx | esp | ebp | esi | edi
  deriving DecidableEq, Repr

inductive Seg
  | es | cs | ss | ds | fs | gs
  deriving DecidableEq, Repr

/-- The piece of a general purpose register that a name denotes. -/
inductive Part
  | full | word | low | high
  deriving DecidableEq, Repr

/-- A general purpose register under one of its names, such as `ax` or `ah`. -/
structure GReg where
  reg : Gpr
  part : Part
  deriving DecidableEq, Repr

def Part.bytes : Part → Nat
  | .full => 4
  | .word => 2
  | .low | .high => 1

/-- Floating point, vector and extended state. -/
inductive ExtReg
  | st (n : Nat) | mm (n : Nat) | xmm (n : Nat) | mxcsr | xcr0
  deriving DecidableEq, Repr

structure St where
  gpr : Gpr → Word
  eflags : Word
  seg : Seg → BitVec 16
  /-- Segment bases, as cached when the selector was loaded. -/
  base : Seg → Word
  cr : Nat → Word
  dr : Nat → Word
  ext : ExtReg → BitVec 128
  mem : Word → Byte

inductive Alu
  | xor | cmp | and | or | add | sub
  deriving DecidableEq, Repr

/-- An operand such as `%es:0x8(%ebx,%ecx,4)`; a plain address has a displacement only. The
displacement is the number that `0x%x` prints.
-/
structure MemOp where
  seg : Option Seg
  disp : Option Int
  base : Option GReg
  index : Option GReg
  scale : Nat
  deriving DecidableEq, Repr

/-- The operand that `"0x%x" % addr` prints. -/
def MemOp.abs (addr : Nat) : MemOp := ⟨none, some addr, none, none, 0⟩

/-- A negative displacement is printed as `0x-18`, which the assembler takes for minus eighteen,
or rejects if there are digits above nine.
-/
def MemOp.Legible (m : MemOp) : Prop := 0 ≤ m.disp.getD 0
deriving Decidable

/-- The bit of EFLAGS that `je` tests. -/
def zf (eflags : Word) : Bool := eflags.getLsbD 6

/-- The flags that `gen_mem2reg` lets through. -/
def flagMask : Word := 0xad5

/-- The physical address of an offset in a segment. -/
abbrev Translation := Seg → Word → Word

/-- Distinct bytes of one access have distinct physical addresses. -/
def Translation.Near (tr : Translation) : Prop :=
  ∀ sg a i j,
    i < 4096 → j < 4096 → tr sg (a + BitVec.ofNat 32 i) = tr sg (a + BitVec.ofNat 32 j) → i = j

structure Cpu where
  /-- Segmentation and paging, given the segment bases, the control registers and the
  memory that holds the page tables.
  -/
  translation : (Seg → Word) → (Nat → Word) → (Word → Byte) → Translation
  near : ∀ base cr mem, (translation base cr mem).Near
  /-- The segment base that a selector's descriptor in memory holds. -/
  descriptor : (Word → Byte) → BitVec 16 → Word
  /-- The flags after an operation on two values. -/
  flags : Alu → Word → Word → Word → Word
  flags_cmp : ∀ a b old, zf (flags .cmp a b old) = (a == b)
  /-- The image of EFLAGS that `pushf` stores. -/
  pushed : Word → Word
  /-- EFLAGS after `popf`, given the old value and the popped one. -/
  popped : Word → Word → Word
  popped_mask : ∀ old value, popped old value &&& flagMask = value &&& flagMask
  /-- Addresses the assembler gives to labels. -/
  label : Nat → Word

/-- One instruction. -/
inductive Ins
  | nop
  | load (m : MemOp) (r : GReg)
  | store (r : GReg) (m : MemOp)
  | loadSeg (m : MemOp) (sg : Seg)
  | storeSeg (sg : Seg) (m : MemOp)
  | loadExt (n : Nat) (m : MemOp) (r : ExtReg)
  | storeExt (n : Nat) (r : ExtReg) (m : MemOp)
  | fldt (m : MemOp)
  | fstpt (m : MemOp)
  | fxch (n : Nat)
  | xgetbv
  | xsetbv
  | movImm (value : Word) (r : Gpr)
  | movImmAx (value : BitVec 16)
  | movAxSeg (sg : Seg)
  | movSegReg (sg : Seg) (r : Gpr)
  | movlImm (value : Word) (m : MemOp)
  | movbImm (value : Byte) (m : MemOp)
  | aluMem (op : Alu) (m : MemOp) (r : GReg)
  | aluReg (op : Alu) (src dst : GReg)
  | aluImm (op : Alu) (value : Word) (r : Gpr)
  | cmpMem (r : GReg) (m : MemOp)
  | andlMem (value : Word) (m : MemOp)
  | pxorMem (n : Nat) (m : MemOp) (r : ExtReg)
  | pxorReg (src dst : ExtReg)
  | push (r : Gpr)
  | pop (r : Gpr)
  | pushImm (value : Word)
  | pushMem (m : MemOp)
  | popMem (m : MemOp)
  | pushf
  | popf
  | movToCr (n : Nat) (r : Gpr)
  | movFromCr (n : Nat) (r : Gpr)
  | movToDr (n : Nat) (r : Gpr)
  | movFromDr (n : Nat) (r : Gpr)
  | lea (label : Nat) (r : Gpr)
  | callNext (label : Nat)
  | ret
  | ljmp (selector : BitVec 16)
  | movlLabel (label : Nat) (m : MemOp)
  deriving DecidableEq, Repr

/-- Code of a gadget: `jeOver body` is `je forward; body; forward:`. -/
inductive Asm
  | ins (i : Ins)
  | jeOver (body : List Ins)
  deriving DecidableEq, Repr

def St.setGpr (s : St) (r : Gpr) (value : Word) : St :=
  { s with gpr := update s.gpr r value }

/-- The value of a register under one of its names, zero extended. -/
def GReg.value (r : GReg) (gpr : Gpr → Word) : Word :=
  match r.part with
  | .full => gpr r.reg
  | .word => gpr r.reg &&& 0xffff
  | .low => gpr r.reg &&& 0xff
  | .high => (gpr r.reg >>> 8) &&& 0xff

def St.reg (s : St) (r : GReg) : Word := r.value s.gpr

/-- Writing a narrow name keeps the other bits of the register. -/
def St.setReg (s : St) (r : GReg) (value : Word) : St :=
  let old := s.gpr r.reg
  s.setGpr r.reg <|
    match r.part with
    | .full => value
    | .word => (old &&& 0xffff0000) ||| (value &&& 0xffff)
    | .low => (old &&& 0xffffff00) ||| (value &&& 0xff)
    | .high => (old &&& 0xffff00ff) ||| ((value &&& 0xff) <<< 8)

/-- Offset of a legible operand in its segment; 16-bit address registers wrap at 64 KiB. -/
def MemOp.offset (m : MemOp) (gpr : Gpr → Word) : Word :=
  let disp := BitVec.ofInt 32 (m.disp.getD 0)
  match m.base with
  | none => disp
  | some base =>
    let index :=
      match m.index with
      | none => 0
      | some index => index.value gpr * BitVec.ofNat 32 (max m.scale 1)
    let sum := disp + base.value gpr + index
    if base.part = .word then sum &&& 0xffff else sum

/-- Without a prefix, operands based on ESP or EBP are on the stack. -/
def MemOp.segment (m : MemOp) : Seg :=
  match m.seg with
  | some sg => sg
  | none =>
    match m.base with
    | some ⟨.esp, _⟩ | some ⟨.ebp, _⟩ => .ss
    | _ => .ds

namespace Cpu

variable (cpu : Cpu)

/-- The translation in force. -/
def tr (s : St) : Translation := cpu.translation s.base s.cr s.mem

/-- Physical address of the `i`-th byte of an operand. -/
def place (s : St) (m : MemOp) (i : Nat) : Word :=
  cpu.tr s m.segment (m.offset s.gpr + BitVec.ofNat 32 i)

/-- Physical address of the `i`-th byte of the word on top of the stack. -/
def stackPlace (s : St) (i : Nat) : Word := cpu.tr s .ss (s.gpr .esp + BitVec.ofNat 32 i)

/-- Physical address of the `i`-th byte of the slot that the next push fills. -/
def slotPlace (s : St) (i : Nat) : Word := cpu.tr s .ss (s.gpr .esp - 4 + BitVec.ofNat 32 i)

def fetch (s : St) (m : MemOp) (w n : Nat) : BitVec w := read w s.mem (cpu.place s m) n

/-- The 32-bit word at an operand. -/
def word (s : St) (m : MemOp) : Word := cpu.fetch s m 32 4

def put {w : Nat} (s : St) (m : MemOp) (value : BitVec w) (n : Nat) : St :=
  { s with mem := write s.mem (cpu.place s m) value n }

def pushWord (s : St) (value : Word) : St :=
  { s with
    mem := write s.mem (cpu.slotPlace s) value 4
    gpr := update s.gpr .esp (s.gpr .esp - 4) }

def top (s : St) : Word := read 32 s.mem (cpu.stackPlace s) 4

def drop (s : St) : St := s.setGpr .esp (s.gpr .esp + 4)

def loadSelector (s : St) (sg : Seg) (selector : BitVec 16) : St :=
  { s with
    seg := update s.seg sg selector
    base := update s.base sg (cpu.descriptor s.mem selector) }

def alu : Alu → Word → Word → Word
  | .xor, a, b => a ^^^ b
  | .cmp, a, _ => a
  | .and, a, b => a &&& b
  | .or, a, b => a ||| b
  | .add, a, b => a + b
  | .sub, a, b => a - b

/-- `op value,%r`, with the flags it leaves. -/
def aluTo (s : St) (op : Alu) (value : Word) (r : GReg) : St :=
  { s.setReg r (alu op (s.reg r) value) with
    eflags := cpu.flags op (s.reg r) value s.eflags }

def exec (s : St) : Ins → St
  | .nop => s
  | .load m r => s.setReg r (cpu.fetch s m 32 r.part.bytes)
  | .store r m => cpu.put s m (s.reg r) r.part.bytes
  | .loadSeg m sg => cpu.loadSelector s sg (cpu.fetch s m 16 2)
  | .storeSeg sg m => cpu.put s m (s.seg sg) 2
  | .loadExt n m r => { s with ext := update s.ext r (cpu.fetch s m 128 n) }
  | .storeExt n r m => cpu.put s m (s.ext r) n
  | .fldt m =>
    let value := cpu.fetch s m 128 10
    { s with
      ext := fun r =>
        match r with
        | .st 0 => value
        | .st (n + 1) => s.ext (.st n)
        | r => s.ext r }
  | .fstpt m =>
    { cpu.put s m (s.ext (.st 0)) 10 with
      ext := fun r =>
        match r with
        | .st n => s.ext (.st (n + 1))
        | r => s.ext r }
  | .fxch n =>
    { s with
      ext := update (update s.ext (.st 0) (s.ext (.st n)))
        (.st n) (s.ext (.st 0)) }
  | .xgetbv =>
    (s.setGpr .eax ((s.ext .xcr0).setWidth 32)).setGpr .edx
      ((s.ext .xcr0).extractLsb' 32 32)
  | .xsetbv =>
    { s with
      ext := update s.ext .xcr0 ((s.gpr .edx ++ s.gpr .eax).setWidth 128) }
  | .movImm value r => s.setGpr r value
  | .movImmAx value => s.setReg ⟨.eax, .word⟩ (value.setWidth 32)
  | .movAxSeg sg => cpu.loadSelector s sg ((s.gpr .eax).setWidth 16)
  | .movSegReg sg r => s.setGpr r ((s.seg sg).setWidth 32)
  | .movlImm value m => cpu.put s m value 4
  | .movbImm value m => cpu.put s m value 1
  | .aluMem op m r => cpu.aluTo s op (cpu.fetch s m 32 r.part.bytes) r
  | .aluReg op src dst => cpu.aluTo s op (s.reg src) dst
  | .aluImm op value r => cpu.aluTo s op value ⟨r, .full⟩
  | .cmpMem r m =>
    let a := cpu.fetch s m 32 r.part.bytes
    { s with eflags := cpu.flags .cmp a (s.reg r) s.eflags }
  | .andlMem value m =>
    let a := cpu.word s m
    { cpu.put s m (a &&& value) 4 with eflags := cpu.flags .and a value s.eflags }
  | .pxorMem n m r => { s with ext := update s.ext r (s.ext r ^^^ cpu.fetch s m 128 n) }
  | .pxorReg src dst => { s with ext := update s.ext dst (s.ext dst ^^^ s.ext src) }
  | .push r => cpu.pushWord s (s.gpr r)
  | .pop r => (drop s).setGpr r (cpu.top s)
  | .pushImm value => cpu.pushWord s value
  | .pushMem m => cpu.pushWord s (cpu.word s m)
  -- the address of a popped operand is computed after ESP has been incremented
  | .popMem m => cpu.put (drop s) m (cpu.top s) 4
  | .pushf => cpu.pushWord s (cpu.pushed s.eflags)
  | .popf => { drop s with eflags := cpu.popped s.eflags (cpu.top s) }
  | .movToCr n r => { s with cr := update s.cr n (s.gpr r) }
  | .movFromCr n r => s.setGpr r (s.cr n)
  | .movToDr n r => { s with dr := update s.dr n (s.gpr r) }
  | .movFromDr n r => s.setGpr r (s.dr n)
  | .lea label r => s.setGpr r (cpu.label label)
  | .callNext label => cpu.pushWord s (cpu.label label)
  -- gadgets return only to the instruction after their own call
  | .ret => drop s
  | .ljmp selector => cpu.loadSelector s .cs selector
  | .movlLabel label m => cpu.put s m (cpu.label label) 4

def execAsm (s : St) : Asm → St
  | .ins i => cpu.exec s i
  | .jeOver body => if zf s.eflags then s else body.foldl cpu.exec s

/-- Run the code of a gadget, or of several gadgets one after the other. -/
def run (s : St) (code : List Asm) : St := code.foldl cpu.execAsm s

end Cpu

end FastPokeEmu.Floppy
