import FastPokeEmu.Floppy.Gadget

/-! Gadgets that move words between registers, operands and blocks
(`gen_store_mem` to `gen_feistel_cipher` of `gen_floppy_image.py`).
`none` is a failed assertion of the generator, or code that the assembler rejects.
-/

namespace FastPokeEmu.Floppy

/-- Whether the text of a register contains `eax`, `ax`, `ah` or `al`. -/
def RegName.mentionsEax : RegName → Bool
  | .gpr r => r.reg == .eax
  | _ => false

@[inherit_doc RegName.mentionsEax]
def MemOp.mentionsEax (m : MemOp) : Bool :=
  m.base.any (fun r => r.reg == .eax) || m.index.any (fun r => r.reg == .eax)

/-- `"%s+0x4" % mem`. -/
def MemOp.plus (m : MemOp) (d : Int) : MemOp := { m with disp := some (m.disp.getD 0 + d) }

/-- The operand text at the top of the stack, `(%esp)`. -/
def MemOp.stackTop : MemOp := ⟨none, none, some ⟨.esp, .full⟩, none, 0⟩

/-- One of the dictionaries `in_to_reg` and `out_to_reg`: memory operands with the registers
that occur in them, and register operands.
-/
structure ToReg where
  mems : List (MemOp × List RegName)
  regs : List RegName
  deriving DecidableEq, Repr

/-- The globals that decide how a copy declares its effects. -/
structure Tables where
  inToReg : ToReg
  outToReg : ToReg
  feistelIn : List Nat
  feistelOut : List Nat
  deriving DecidableEq, Repr

namespace Tables

variable (tb : Tables)

/-- Look an operand up in `in_to_reg` updated with `out_to_reg`. -/
def toReg (m : MemOp) : Option (List RegName) :=
  (tb.outToReg.mems.lookup m).or (tb.inToReg.mems.lookup m)

/-- `in_dict(reg, to_reg)`, where names of one of the first four registers are alike. -/
def inDict (r : RegName) : Bool :=
  (tb.inToReg.regs ++ tb.outToReg.regs).any fun key =>
    key == r
    || match key, r with
      | .gpr a, .gpr b => a.reg == b.reg && a.reg.hasHalves
      | _, _ => false

/-- The address is one of the words that hold original inputs or outputs. -/
def isBackup (addr : Nat) : Bool := addr ∈ tb.feistelIn ++ tb.feistelOut

end Tables

/-- `resize_reg` -/
def resizeReg (r : RegName) (size : Nat) : Option RegName :=
  match r with
  | .gpr ⟨reg, part⟩ =>
    if reg.hasHalves then
      if size = 1 then some (.gpr ⟨reg, .low⟩)
      else if size = 2 then some (.gpr ⟨reg, .word⟩)
      else if size = 4 then some (.gpr ⟨reg, .full⟩)
      else none
    else if part = .full ∨ part = .word then
      if size = 2 then some (.gpr ⟨reg, .word⟩)
      else if size = 4 then some (.gpr ⟨reg, .full⟩)
      else none
    else some r
  | r => some r

/-- `gen_get_eip`: call the next instruction and read the return address. -/
def genGetEip (r : Gpr) : List Asm :=
  [.ins (.callNext 0), .ins (.load .stackTop ⟨r, .full⟩), .ins .ret]

/-- The register that carries a word between two operands. -/
def carrier (src dest : MemOp) : Gpr := if src.mentionsEax || dest.mentionsEax then .ecx else .eax

/-- `mov src,%t; mov %t,dest` -/
def copyWord (src dest : MemOp) : List Ins :=
  [.load src ⟨carrier src dest, .full⟩, .store ⟨carrier src dest, .full⟩ dest]

/-- `gen_store_mem` -/
def genStoreMem (tb : Tables) (src dest : MemOp) : Gadget :=
  let useSrc : List Loc × List Loc :=
    match tb.toReg src with
    | some regs => ([], .mem src :: regs.map .reg)
    | none => ([.mem src], [])
  .make ((copyWord src dest).map .ins) "mem2mem" [.mem dest]
    [.reg (carrier src dest).name] useSrc.1
    (useSrc.2 ++ ((tb.toReg dest).getD []).map .reg)

/-- `gen_imm2mem` -/
def genImm2Mem (imm : Word) (dest : MemOp) : Gadget :=
  .make [.ins (.movlImm imm dest)] "copy imm" [.mem dest] [] [] []

/-- `mov %r,mem` for a general purpose register. -/
def storeGpr (mem : MemOp) : RegName → Option (List Asm)
  | .gpr r => some [.ins (.store r mem)]
  | _ => none

/-- `mov mem,%r` for a general purpose register. -/
def loadGpr (mem : MemOp) : RegName → Option (List Asm)
  | .gpr r => some [.ins (.load mem r)]
  | _ => none

/-- Code that copies a register to a word of memory. -/
def reg2MemAsm (reg : RegName) (mem : MemOp) (size : Nat) : Option (List Asm) :=
  match reg with
  | .eflags => some [.ins .pushf, .ins (.popMem mem)]
  | .eip | .ip => some (genGetEip .eax ++ [.ins (.store ⟨.eax, .full⟩ mem)])
  -- a load, although the value is meant to be stored
  | .mxcsr => some [.ins (.loadExt 4 mem .mxcsr)]
  | .cr n => some [.ins (.movFromCr n .eax), .ins (.store ⟨.eax, .full⟩ mem)]
  | .dr n => some [.ins (.movFromDr n .eax), .ins (.store ⟨.eax, .full⟩ mem)]
  | .st n =>
    if n = 0 then some [.ins (.fstpt mem)]
    else some [.ins (.fxch n), .ins (.fstpt mem), .ins (.fxch n)]
  | .xcr0 =>
    some [.ins .xgetbv, .ins (.store ⟨.edx, .full⟩ mem), .ins (.store ⟨.eax, .full⟩ (mem.plus 4))]
  | .mm n => some [.ins (.storeExt 4 (.mm n) mem)]
  | .xmm n => some [.ins (.storeExt 16 (.xmm n) mem)]
  -- there is no `movl` for a segment register
  | .seg sg => if size = 2 then some [.ins (.storeSeg sg mem)] else none
  | .gpr r => (resizeReg (.gpr r) size).bind (storeGpr mem)
  | .tr => none

/-- `gen_reg2mem`; the destination is always a plain address. -/
def genReg2Mem (tb : Tables) (reg : RegName) (addr : Nat) (size : Nat) : Option Gadget := do
  let asm ← reg2MemAsm reg (.abs addr) size
  let cr0 : List Loc := match reg with | .st _ => [.reg (.cr 0)] | _ => []
  if tb.inDict reg && tb.isBackup addr then
    some (.make asm "reg2mem" [] [] cr0 [.reg reg])
  else
    some (.make asm "reg2mem" [.mem (.abs addr)] [] (.reg reg :: cr0) [])

/-- Code that copies a word of memory to a register; there is none for some registers. -/
def mem2RegAsm (mem : MemOp) (reg : RegName) (size : Nat) : Option (List Asm) :=
  match reg with
  -- the mask is applied to the word in memory
  | .eflags => some [.ins (.andlMem flagMask mem), .ins (.pushMem mem), .ins .popf]
  | .eip | .ip | .tr => some []
  | .mxcsr => some [.ins (.loadExt 4 mem .mxcsr)]
  | .cr n =>
    if n = 0 then
      some [.ins (.load mem ⟨.eax, .full⟩), .ins (.aluImm .or 0x80000001 .eax),
        .ins (.aluImm .and 0xc005003f .eax), .ins (.movToCr 0 .eax)]
    else some [.ins (.load mem ⟨.eax, .full⟩), .ins (.movToCr n .eax)]
  | .dr n => some [.ins (.load mem ⟨.eax, .full⟩), .ins (.movToDr n .eax)]
  | .st n =>
    if n = 0 then some [.ins (.fldt mem)]
    else some [.ins (.fxch n), .ins (.fldt mem), .ins (.fxch n)]
  | .xcr0 =>
    some [.ins (.load mem ⟨.edx, .full⟩), .ins (.load (mem.plus 4) ⟨.eax, .full⟩), .ins .xsetbv]
  | .mm n => some [.ins (.loadExt 4 mem (.mm n))]
  | .xmm n => some [.ins (.loadExt 16 mem (.xmm n))]
  | .seg sg =>
    if sg = .cs then some []
    else if size = 2 then some [.ins (.loadSeg mem sg)]
    else none
  | .gpr r => (resizeReg (.gpr r) size).bind (loadGpr mem)

/-- `gen_mem2reg`, as a list of at most one gadget. -/
def genMem2Reg (tb : Tables) (mem : MemOp) (reg : RegName) (size : Nat)
    : Option (List Gadget) := do
  let asm ← mem2RegAsm mem reg size
  let fpu : List Loc × List Loc :=
    match reg with
    | .st _ => ([.reg (.cr 0)], [.reg (.st 0)])
    | _ => ([], [])
  if asm.isEmpty then some []
  else
    some [.make asm "mem2reg" (.reg reg :: fpu.2) [] (.mem mem :: fpu.1)
      (((tb.toReg mem).getD []).map .reg)]

/-- `gen_cmp_mem`: load one operand and compare it with the other. -/
def genCmpMem (tb : Tables) (src dest : MemOp) : Gadget :=
  let t := carrier src dest
  let load := Gadget.make [.ins (.load src ⟨t, .full⟩)] "mem2reg" [.reg t.name] []
    [.mem src] (((tb.toReg src).getD []).map .reg)
  let cmp := Gadget.make [.ins (.cmpMem ⟨t, .full⟩ dest)] "cmp" [] []
    [.reg t.name, .mem dest] []
  { load.add cmp with mnemonic := "cmp mems" }

/-- `gen_store_change_mem`: copy a word unless the destination holds it already. The jump
and its label declare nothing.
-/
def genStoreChangeMem (tb : Tables) (src dest : MemOp) (mnemonic : String) : Gadget :=
  let store := { genStoreMem tb src dest with asm := [.jeOver (copyWord src dest)] }
  { (genCmpMem tb dest src).add store with mnemonic := mnemonic }

theorem carrier_comm (src dest : MemOp) : carrier dest src = carrier src dest := by
  simp only [carrier, Bool.or_comm]

theorem genStoreChangeMem_asm (tb : Tables) (src dest : MemOp) (mnemonic : String)
    : (genStoreChangeMem tb src dest mnemonic).asm
      = [.ins (.load dest ⟨carrier src dest, .full⟩),
        .ins (.cmpMem ⟨carrier src dest, .full⟩ src), .jeOver (copyWord src dest)] := by
  rw [← carrier_comm src dest]
  rfl

/-- The operand that a Feistel gadget records. -/
inductive Source
  | reg (r : RegName)
  | mem (m : MemOp)
  deriving DecidableEq, Repr

def Source.mentionsEax : Source → Bool
  | .reg r => r.mentionsEax
  | .mem m => m.mentionsEax

def Source.loc : Source → Loc
  | .reg r => .reg r
  | .mem m => .mem m

/-- The register in which a Feistel gadget computes. -/
def feistelTemp (src2 : Source) (size : Nat) : Option RegName :=
  match src2 with
  | .reg (.mm n) => some (.mm (if n = 0 then 1 else 0))
  | .reg (.xmm n) => some (.xmm (if n = 0 then 1 else 0))
  | src2 =>
    if size ≤ 4 then some (if src2.mentionsEax then Gpr.ecx.name else Gpr.eax.name)
    else if size ≤ 8 then some (.mm 0)
    else if size ≤ 16 then some (.xmm 0)
    else none

/-- Code that xors the recorded operand into the temporary, and what it kills. -/
def feistelXor (scratch : Nat) (src2 : Source) (t : RegName) (size : Nat)
    : Option (List Asm × List Loc) :=
  let viaEcx (fetch : Ins) : Option (List Asm × List Loc) :=
    some ([.ins fetch, .ins (.aluReg .xor ⟨.ecx, .full⟩ ⟨.eax, .full⟩)], [.reg Gpr.ecx.name])
  match src2 with
  | .reg .eflags =>
    some ([.ins .pushf, .ins (.popMem (.abs scratch)),
      .ins (.aluMem .xor (.abs scratch) ⟨.eax, .full⟩)], [])
  | .reg .eip | .reg .ip =>
    some (genGetEip .ecx ++ [.ins (.aluImm .sub 0 .ecx),
      .ins (.aluReg .xor ⟨.ecx, .full⟩ ⟨.eax, .full⟩)], [])
  | .reg (.seg sg) => viaEcx (.movSegReg sg .ecx)
  | .reg (.cr n) => viaEcx (.movFromCr n .ecx)
  | .reg (.dr n) => viaEcx (.movFromDr n .ecx)
  | .reg .mxcsr =>
    match t with
    | .gpr dst =>
      some ([.ins (.storeExt 4 .mxcsr (.abs scratch)),
        .ins (.aluMem .xor (.abs scratch) dst)], [])
    | _ => none
  | .reg .xcr0 => do
      let save ← reg2MemAsm .xcr0 (.abs scratch) 8
      let xor ← match t with
        | .mm n => some (Ins.pxorMem 8 (.abs scratch) (.mm n))
        | .xmm n => some (.pxorMem 16 (.abs scratch) (.xmm n))
        | _ => none
      some (save ++ [.ins xor], [.reg Gpr.eax.name, .reg Gpr.edx.name])
  | .reg (.gpr r) => do
      match ← resizeReg t size with
      | .gpr dst => some ([.ins (.aluReg .xor r dst)], [])
      | _ => none
  | .mem m => do
      match ← resizeReg t size with
      | .gpr dst => some ([.ins (.aluMem .xor m dst)], [])
      | .mm n => some ([.ins (.pxorMem 8 m (.mm n))], [])
      | .xmm n => some ([.ins (.pxorMem 16 m (.xmm n))], [])
      | _ => none
  | .reg (.mm n) =>
    match t with
    | .mm k => some ([.ins (.pxorReg (.mm n) (.mm k))], [])
    | _ => none
  | .reg (.xmm n) =>
    match t with
    | .xmm k => some ([.ins (.pxorReg (.xmm n) (.xmm k))], [])
    | _ => none
  | .reg (.st _) | .reg .tr => none

/-- `gen_feistel_cipher`: store the L block xored with the recorded operand in the R block. -/
def genFeistelCipher (tb : Tables) (scratch : Nat) (src1 : Nat) (src2 : Source)
    (dest : Nat) (size : Nat)
    : Option Gadget := do
  let t ← feistelTemp src2 size
  let g1 ← genMem2Reg tb (.abs src1) t size
  let g3 ← genReg2Mem tb t dest size
  let (asm2, kill2) ← feistelXor scratch src2 t size
  let regs : List RegName :=
    match src2 with
    | .mem m => (tb.inToReg.mems.lookup m).getD []
    | .reg _ => []
  let g2 := Gadget.make asm2 "feistel" [] kill2 [src2.loc] (regs.map .reg)
  let g ← Gadget.merge "" (g1 ++ [g2, g3])
  let g := { g with
    kill := g.kill.union [.reg t]
    define := g.define.diff [.reg t] }
  match src2 with
  | .reg (.gpr ⟨.eax, _⟩) | .reg .eflags =>
    some { g with
      asm :=
        [.ins (.push .eax), .ins (.push .ecx)] ++ g.asm ++ [.ins (.pop .ecx), .ins (.pop .eax)]
      kill := g.kill.diff [.reg Gpr.eax.name, .reg Gpr.ecx.name] }
  | _ => some g

end FastPokeEmu.Floppy
