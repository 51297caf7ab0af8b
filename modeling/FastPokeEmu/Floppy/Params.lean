import FastPokeEmu.Floppy.CopyGadgets
import FastPokeEmu.Library.Numerals

/-! Gadgets that give registers and memory bytes the values of a test case, or those of the
snapshot (`gen_set_reg` to `gen_set_mem` of `gen_floppy_image.py`).
`none` is an exception of the generator.
-/

namespace FastPokeEmu.Floppy

open ByteMemory

/-- The first processor and the memory of the snapshot. -/
structure Snapshot where
  gpr : Gpr → Word
  eflags : Word
  eip : Word
  seg : Seg → BitVec 16
  cr : Nat → Word
  mem : List Byte

/-- The control registers of a snapshot. -/
def Snapshot.controls : List Nat := [0, 1, 2, 3, 4, 8]

def Gpr.text : Gpr → String
  | .eax => "eax"
  | .ecx => "ecx"
  | .edx => "edx"
  | .ebx => "ebx"
  | .esp => "esp"
  | .ebp => "ebp"
  | .esi => "esi"
  | .edi => "edi"

def Seg.text : Seg → String
  | .es => "es"
  | .cs => "cs"
  | .ss => "ss"
  | .ds => "ds"
  | .fs => "fs"
  | .gs => "gs"

/-- The registers of the class `Register`. -/
inductive PlainReg
  | gpr (r : Gpr)
  | eflags
  | eip
  deriving DecidableEq, Repr

def PlainReg.name : PlainReg → RegName
  | .gpr r => r.name
  | .eflags => .eflags
  | .eip => .eip

/-- A register or some bytes of memory, with the value to give to them. -/
inductive Param
  | reg (r : PlainReg) (value : Word)
  | sreg (sg : Seg) (value : BitVec 16)
  | creg (n : Nat) (value : Word)
  | mem (addr : Nat) (symbol : List Char) (value : List Byte)
  deriving DecidableEq, Repr

def Param.loc : Param → Loc
  | .reg r _ => .reg r.name
  | .sreg sg _ => .reg (.seg sg)
  | .creg n _ => .reg (.cr n)
  | .mem addr _ _ => .byte addr

/-- `gen_set_reg` -/
def genSetReg (reg : PlainReg) (value : Word) : List Gadget :=
  match reg with
  | .eflags =>
    [.make [.ins .nop, .ins (.pushImm value), .ins .nop, .ins .popf] "eflags" [.reg .eflags] []
      [.stackStar] []]
  | .eip => [.make [.ins .nop] "eip" [.reg .eip] [] [] []]
  | .gpr r => [.make [.ins (.movImm value r)] r.text [.reg r.name] [] [] []]

/-- The labels `forward_r` and `target_r`. -/
def forwardLabel (r : Nat) : Nat := 2 * r

@[inherit_doc forwardLabel]
def targetLabel (r : Nat) : Nat := 2 * r + 1

/-- Compute where the long jump ends up, and patch its target. -/
def patchLjmp (r : Nat) : Gadget :=
  .make
    [.ins (.lea (targetLabel r) .ebx), .ins (.lea (forwardLabel r) .eax),
      .ins (.aluReg .sub ⟨.eax, .full⟩ ⟨.ebx, .full⟩), .ins (.callNext (forwardLabel r)),
      .ins (.pop .eax), .ins (.aluReg .add ⟨.eax, .full⟩ ⟨.ebx, .full⟩),
      .ins (.store ⟨.ebx, .full⟩ ⟨none, some (-6), some ⟨.ebx, .full⟩, none, 0⟩)]
    "patch_ljmp_target" [] [.reg Gpr.eax.name, .reg Gpr.ebx.name, .reg .eflags]
    [.memStar, .stackStar, .patchLjmpTarget] []

/-- What setting a segment register makes usable. -/
def Seg.marker : Seg → List Loc
  | .ds => [.memStar]
  | .ss => [.stackStar]
  | _ => []

/-- `gen_set_sreg`, with a random number for the labels -/
def genSetSreg (r : Nat) (sg : Seg) (value : BitVec 16) : List Gadget :=
  match sg with
  | .cs =>
    [patchLjmp r, .make [.ins (.ljmp value)] "cs" [.reg (.seg .cs), .patchLjmpTarget] [] [] []]
  | sg =>
    [.make [.ins (.movImmAx value), .ins (.movAxSeg sg)] sg.text
      (.reg (.seg sg) :: sg.marker) [.reg Gpr.eax.name] [] []]

/-- `gen_set_creg` -/
def genSetCreg (n : Nat) (value : Word) : List Gadget :=
  [.make [.ins (.movImm value .eax), .ins (.movToCr n .eax)]
    (String.ofList ("cr".toList ++ Numerals.print 10 n)) [.reg (.cr n)] [.reg Gpr.eax.name] [] []]

/-- The number in a symbol such as `PDE_3` or `GDT_2_base`. -/
def symbolIndex (symbol : List Char) : Option Nat := do
  let field ← (symbol.splitOn '_')[1]?
  Numerals.parse 10 field

def isPde (symbol : List Char) : Bool := "PDE_".toList.isPrefixOf symbol

def isPte (symbol : List Char) : Bool := "PTE_".toList.isPrefixOf symbol

def isGdt (symbol : List Char) : Bool := "GDT_".toList.isPrefixOf symbol

/-- The segment registers whose descriptor a GDT symbol names. -/
def selectors (snapshot : Snapshot) (idx : Nat) : List Seg :=
  [.ds, .cs, .ss, .es, .fs, .gs].filter (fun sg => (snapshot.seg sg).toNat / 8 = idx)

/-- What setting a byte with a symbol kills. -/
def byteKills (snapshot : Snapshot) (symbol : List Char) : Option (List Loc) :=
  if isPde symbol || isPte symbol then (symbolIndex symbol).map (fun _ => [.reg Gpr.eax.name])
  else if isGdt symbol then
    (symbolIndex symbol).map (fun idx => (selectors snapshot idx).map (fun sg => .reg (.seg sg)))
  else some []

/-- What setting a byte with a symbol defines, and what it needs. -/
def byteMarkers (symbol : List Char) : List Loc × List Loc :=
  if isPde symbol then ([.pde], [.memStar])
  else if isPte symbol then ([.pte], [.memStar])
  else if isGdt symbol then ([.gdt], [.memStar, .pde, .pte])
  else ([], [.memStar, .pde, .pte, .gdt])

/-- The operand of a byte, in a segment whose base is not that of the data segment. -/
def byteOperand (seg : Option Seg) (addr : Nat) : MemOp :=
  match seg with
  | none => .abs addr
  | some sg => ⟨some sg, some (0x1000000 + addr : Nat), none, none, 0⟩

def setByte (snapshot : Snapshot) (addr : Nat) (symbol : List Char) (seg : Option Seg)
    (data : Byte) (i : Nat)
    : Option Gadget := do
  let kill ← byteKills snapshot symbol
  -- a new page table entry is used after CR3 has been written
  let invlpg : List Asm :=
    if isPde symbol || isPte symbol then [.ins (.movFromCr 3 .eax), .ins (.movToCr 3 .eax)]
    else []
  let (markers, use) := byteMarkers symbol
  some (.make (.ins (.movbImm data (byteOperand seg (addr + i))) :: invlpg)
    (String.ofList (Numerals.pad 8 (Numerals.print 16 (addr + i)) ++ ' ' :: symbol))
    (.byte addr :: markers) kill use [])

/-- `gen_set_mem` -/
def genSetMem (snapshot : Snapshot) (addr : Nat) (symbol : List Char) (value : List Byte)
    (seg : Option Seg)
    : Option (List Gadget) :=
  value.zipIdx.mapM (fun p => setByte snapshot addr symbol seg p.1 p.2)

/-- `gen_gadget` of the classes -/
def Param.genGadget (snapshot : Snapshot) (r : Nat) : Param → Option (List Gadget)
  | .reg name value => some (genSetReg name value)
  | .sreg sg value => some (genSetSreg r sg value)
  | .creg n value => some (genSetCreg n value)
  | .mem addr symbol value => genSetMem snapshot addr symbol value none

def PlainReg.inSnapshot (snapshot : Snapshot) : PlainReg → Word
  | .gpr r => snapshot.gpr r
  | .eflags => snapshot.eflags
  | .eip => snapshot.eip

/-- The same object with the snapshot's value; memory is asked for one byte, which is missing
above the end of the snapshot's memory.
-/
def Param.inSnapshot (snapshot : Snapshot) : Param → Option Param
  | .reg r _ => some (.reg r (r.inSnapshot snapshot))
  | .sreg sg _ => some (.sreg sg (snapshot.seg sg))
  | .creg n _ => if n ∈ Snapshot.controls then some (.creg n (snapshot.cr n)) else none
  | .mem addr symbol _ => some (.mem addr symbol ((snapshot.mem.drop addr).take 1))

/-- `gen_revert_gadget` of the classes -/
def Param.genRevertGadget (snapshot : Snapshot) (retseg : Seg) (r : Nat) (p : Param)
    : Option (List Gadget) := do
  let p ← p.inSnapshot snapshot
  match p with
  | .mem addr symbol value => genSetMem snapshot addr symbol value (some retseg)
  | p => p.genGadget snapshot r

end FastPokeEmu.Floppy
