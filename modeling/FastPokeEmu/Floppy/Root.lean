import FastPokeEmu.Floppy.CopyGadgets

/-! Gadgets around the tested instruction (`handle_mem_read` to `gen_root` of
`gen_floppy_image.py`, Feistel modes).
The generator's globals are an explicit state. `none` is an assertion or an index error.
-/

namespace FastPokeEmu.Floppy

inductive Access
  | read | write | readWrite
  deriving DecidableEq, Repr

/-- A memory operand as pyxed decodes it. -/
structure MemoryOperand where
  seg : Option Seg
  dispWidth : Nat
  disp : Int
  base : Option GReg
  index : Option GReg
  scale : Nat
  read : Bool
  written : Bool
  deriving DecidableEq, Repr

inductive OperandKind
  /-- A register; `none` stands for the names that the generator skips. -/
  | reg (name : Option RegName)
  /-- `XED_OPERAND_AGEN`, `XED_OPERAND_MEM0` or `XED_OPERAND_MEM1`. -/
  | mem (n : Nat)
  | other
  deriving DecidableEq, Repr

structure Operand where
  kind : OperandKind
  len : Nat
  access : Access
  deriving DecidableEq, Repr

/-- What the generator asks pyxed about the tested instruction. -/
structure Inst where
  operands : List Operand
  memory : Nat → MemoryOperand
  xlat : Bool
  ltr : Bool
  popCategory : Bool

/-- `get_mem_op`: text and registers of the operand, moved by `d` bytes. Data of the first
memory operand is used whichever operand is asked for. The text is not legible if the number
it prints is negative.
-/
def getMemOp (inst : Inst) (d : Nat) : MemOp × List RegName :=
  let m := inst.memory 0
  let plain := m.seg = none ∨ m.seg = some .ds
  let offset := if m.dispWidth ≠ 0 then m.disp else 0
  let index := if inst.xlat then none else m.index
  let op : MemOp :=
    { seg := if plain ∧ ¬(m.seg = some .ds ∧ inst.xlat = true) then none else m.seg
      disp := if m.dispWidth ≠ 0 ∨ plain then some (offset + d) else none
      base := m.base
      -- without a base register nothing is printed in parentheses
      index := m.base.bind (fun _ => index)
      scale := if m.base.isNone ∨ inst.xlat = true then 0 else m.scale }
  (op, (m.seg.toList.map .seg) ++ m.base.toList.map .gpr ++ op.index.toList.map .gpr)

/-- The two kinds of keys in `l_restore`. -/
inductive Key
  | reg (r : RegName)
  | mem (m : MemOp)
  deriving DecidableEq, Repr

/-- Random numbers the generator draws: scratch addresses and initial block values. -/
structure Choices where
  scratch : Nat → Nat
  seed : Nat → Word

structure GenState where
  nextAddr : Nat
  feistelR : List Nat
  feistelRBak : List Nat
  feistelL : List Nat
  feistelIn : List Nat
  feistelOut : List Nat
  countR : Nat
  countL : Nat
  initR : List Gadget
  initL : List Gadget
  inToReg : ToReg
  outToReg : ToReg
  lRestore : List Key
  draws : Nat
  deriving DecidableEq, Repr

def startAddr : Nat := 0x128d014

def endAddr : Nat := 0x13fffff

def edataAddr : Nat := 0x128d00c

/-- The state in which the first test case is generated; the first word is the loop count. -/
def GenState.start : GenState :=
  ⟨startAddr + 4, [], [], [], [], [], 0, 0, [], [], ⟨[], []⟩, ⟨[], []⟩, [], 0⟩

def GenState.tables (st : GenState) : Tables :=
  ⟨st.inToReg, st.outToReg, st.feistelIn, st.feistelOut⟩

/-- `get_addr` in order: addresses of enough words for `s` bytes. -/
def getAddr (s : Nat) (st : GenState) : Option (List Nat × GenState) :=
  let words := (s + 3) / 4
  let next := st.nextAddr + 4 * words
  if next ≤ endAddr then
    some ((List.range (max words 1)).map (fun i => st.nextAddr + 4 * i),
      { st with nextAddr := next })
  else none

/-- The four lists that the handlers of operands build. -/
structure Emitted where
  backup : List Gadget
  setinput : List Gadget
  feistel : List Gadget
  restore : List Gadget
  deriving DecidableEq, Repr

def Emitted.none : Emitted := ⟨[], [], [], []⟩

def Emitted.append (a b : Emitted) : Emitted :=
  ⟨a.backup ++ b.backup, a.setinput ++ b.setinput, a.feistel ++ b.feistel, a.restore ++ b.restore⟩

/-- Feistel gadgets of EFLAGS go to the front. -/
def Emitted.appendEflags (a b : Emitted) : Emitted :=
  ⟨a.backup ++ b.backup, a.setinput ++ b.setinput, b.feistel ++ a.feistel, a.restore ++ b.restore⟩

/-- Words are added to the lists for the first test case only. -/
def whenInit (isInit : Bool) (add : GenState → Option GenState) (st : GenState)
    : Option GenState :=
  if isInit then add st else some st

/-- R block of one block of a memory operand, and the gadget that fills it initially. -/
def addBlock (opStr : MemOp) (val rBak bak : Nat) (st : GenState) : Option GenState := do
  let st := { st with
    feistelR := st.feistelR ++ [val]
    feistelRBak := st.feistelRBak ++ [rBak]
    feistelIn := st.feistelIn ++ [bak] }
  let r ← st.feistelR[st.countR]?
  some { st with initR := st.initR ++ [genStoreMem st.tables opStr (.abs r)] }

/-- One 4-byte block of a memory operand that is read. -/
def handleMemReadBlock (inst : Inst) (isInit : Bool) (idx val rBak bak : Nat)
    (st : GenState)
    : Option (Emitted × GenState) := do
  let opStr := (getMemOp inst (idx * 4)).1
  let st ← whenInit isInit (addBlock opStr val rBak bak) st
  let src ← st.feistelR[st.countR]?
  let opBak ← st.feistelIn[st.countR]?
  if .mem opStr ∈ st.lRestore then some (.none, { st with countR := st.countR + 1 })
  else
    some (⟨[genStoreMem st.tables opStr (.abs opBak)],
        [genStoreChangeMem st.tables (.abs src) opStr "setinput"], [],
        [genStoreChangeMem st.tables (.abs opBak) opStr "restore inputs"]⟩,
      { st with lRestore := st.lRestore ++ [.mem opStr], countR := st.countR + 1 })

def handleMemRead (inst : Inst) (isInit : Bool) (op : Operand) (st : GenState)
    : Option (Emitted × GenState) :=
  if inst.popCategory then some (.none, st)
  else do
    let (opStr, regs) := getMemOp inst 0
    let st := { st with
      inToReg := { st.inToReg with mems := (opStr, regs) :: st.inToReg.mems } }
    if (inst.memory 0).read then
      let (f, st) ← getAddr op.len st
      let (rBak, st) ← getAddr op.len st
      let (bak, st) ← getAddr op.len st
      (List.range f.length).foldlM
        (fun acc idx => do
          let val ← f[idx]?
          let r ← rBak[idx]?
          let b ← bak[idx]?
          let (e, st) ← handleMemReadBlock inst isInit idx val r b acc.2
          some (acc.1.append e, st))
        (Emitted.none, st)
    else some (.none, st)

/-- `while count_l + r > len(feistel_r)`: more R blocks, each with its two backups. -/
def padR (upTo : Nat) (st : GenState) : Option GenState :=
  (List.range (upTo - st.feistelR.length)).foldlM
    (fun st _ => do
      let (r, st) ← getAddr 4 st
      let (rBak, st) ← getAddr 4 st
      let (bak, st) ← getAddr 4 st
      some { st with
        feistelR := st.feistelR ++ r
        feistelRBak := st.feistelRBak ++ rBak
        feistelIn := st.feistelIn ++ bak })
    st

/-- New L blocks with seeds, and words for the original output. -/
def addOutput (choices : Choices) (len : Nat) (st : GenState) : Option GenState := do
  let (l, st) ← getAddr len st
  let (bak, st) ← getAddr len st
  some { st with
    feistelL := st.feistelL ++ l
    feistelOut := st.feistelOut ++ bak
    initL := st.initL ++ l.mapIdx (fun i val =>
      genImm2Mem (choices.seed (st.draws + i)) (.abs val))
    draws := st.draws + l.length }

def handleMemWriteBlock (inst : Inst) (choices : Choices) (opStr : MemOp) (j : Nat)
    (st : GenState)
    : Option (Emitted × GenState) := do
  let src1 ← st.feistelL[st.countL + j]?
  let src2 := (getMemOp inst (j * 4)).1
  let opBak ← st.feistelOut[st.countL + j]?
  let dest ← st.feistelR[st.countL + j]?
  let g ← genFeistelCipher st.tables (choices.scratch st.draws) src1 (.mem src2) dest 4
  -- the list is asked for the whole operand, not for the block
  if .mem opStr ∈ st.lRestore then some (⟨[], [], [g], []⟩, st)
  else
    some (⟨[genStoreMem st.tables src2 (.abs opBak)], [], [g],
        [genStoreChangeMem st.tables (.abs opBak) src2 "restore inputs"]⟩,
      { st with lRestore := st.lRestore ++ [.mem opStr] })

def handleMemWrite (inst : Inst) (choices : Choices) (isInit : Bool) (op : Operand)
    (st : GenState)
    : Option (Emitted × GenState) := do
  let (opStr, regs) := getMemOp inst 0
  let st := { st with
    outToReg := { st.outToReg with mems := (opStr, regs) :: st.outToReg.mems } }
  if (inst.memory 0).written then
    let st ← whenInit isInit (addOutput choices op.len) st
    let r := (op.len + 3) / 4
    let st ← padR (st.countL + r) st
    let (e, st) ← (List.range r).foldlM
      (fun acc j => do
        let (e, st) ← handleMemWriteBlock inst choices opStr j acc.2
        some (acc.1.append e, st))
      (Emitted.none, st)
    some (e, { st with countL := st.countL + r })
  else some (.none, st)

/-- Backup and restore gadgets of a register. -/
def registerBackup (tb : Tables) (name : RegName) (regBak len : Nat) (mnemonic : String)
    : Option (List Gadget × List Gadget) :=
  match name with
  | .seg sg => do
      let backup ← genReg2Mem tb (.seg sg) regBak len
      let restore ← genMem2Reg tb (.abs regBak) (.seg sg) len
      some ([backup], restore)
  | name => do
      let whole ← resizeReg name 4
      let backup ← genReg2Mem tb whole regBak 4
      let restore ← genMem2Reg tb (.abs regBak) whole 4
      let g := (Gadget.merge mnemonic restore).map fun g =>
        if name = .eflags then
          { g with
            asm := [.ins (.push .eax)] ++ g.asm ++ [.ins (.pop .eax)]
            kill := g.kill.diff [.reg Gpr.eax.name] }
        else g
      some ([backup], g.toList)

/-- R blocks of a register that is read, and the gadget that fills them initially. -/
def addInput (name : RegName) (len : Nat) (st : GenState) : Option GenState := do
  let (f, st) ← getAddr len st
  let (rBak, st) ← getAddr len st
  let (bak, st) ← getAddr len st
  let st := { st with
    feistelR := st.feistelR ++ f
    feistelRBak := st.feistelRBak ++ rBak
    feistelIn := st.feistelIn ++ bak }
  let r ← st.feistelR[st.countR]?
  let g ← genReg2Mem st.tables name r len
  some { st with
    initR := st.initR ++ [{ g with
      use__ := g.use__.union [.reg name]
      use := g.use.diff [.reg name] }] }

def handleRegRead (inst : Inst) (isInit : Bool) (op : Operand) (name : Option RegName)
    (st : GenState)
    : Option (Emitted × GenState) :=
  match name with
  | none => some (.none, st)
  | some name =>
    if inst.ltr ∨ op.len = 0 then some (.none, st)
    else do
      let st := { st with
        inToReg := { st.inToReg with regs := name :: st.inToReg.regs } }
      if op.access = .write then some (.none, st)
      else
        let st ← whenInit isInit (addInput name op.len) st
        let src ← st.feistelR[st.countR]?
        let regBak ← st.feistelIn[st.countR]?
        let setinput ← genMem2Reg st.tables (.abs src) name op.len
        let next := { st with countR := st.countR + (op.len + 3) / 4 }
        if .reg name ∈ st.lRestore then some (⟨[], setinput, [], []⟩, next)
        else
          let (backup, restore) ←
            registerBackup st.tables name regBak op.len "restore inputs"
          some (⟨backup, setinput, [], restore⟩,
            { next with lRestore := st.lRestore ++ [.reg name] })

/-- Record an output register; floating point registers are stored to scratch words first. -/
def recordRegister (choices : Choices) (name : RegName) (len : Nat) (st : GenState)
    : Option Gadget := do
  let scratch := choices.scratch st.draws
  match name with
  | .st n => do
      let save ← genReg2Mem st.tables (.st n) scratch len
      let words ← (List.range ((len + 3) / 4)).mapM fun j => do
        let src1 ← st.feistelL[st.countL + j]?
        let dest ← st.feistelR[st.countL + j]?
        genFeistelCipher st.tables scratch src1 (.mem (.abs (scratch + 4 * j))) dest 4
      Gadget.merge "feistel fpu" (save :: words)
  | name => do
      let src1 ← st.feistelL[st.countL]?
      let dest ← st.feistelR[st.countL]?
      genFeistelCipher st.tables scratch src1 (.reg name) dest len

def handleRegWrite (choices : Choices) (isInit : Bool) (op : Operand)
    (name : Option RegName) (st : GenState)
    : Option (Emitted × GenState) :=
  match name with
  | none => some (.none, st)
  | some name =>
    if op.len = 0 then some (.none, st)
    else do
      let st := { st with
        outToReg := { st.outToReg with regs := name :: st.outToReg.regs } }
      if op.access = .read then some (.none, st)
      else
        let st ← whenInit isInit (addOutput choices op.len) st
        let r := (op.len + 3) / 4
        let st ← padR (st.countL + r) st
        let g ← recordRegister choices name op.len st
        let regBak ← st.feistelOut[st.countL]?
        let next := { st with countL := st.countL + r, draws := st.draws + 1 }
        if .reg name ∈ st.lRestore then some (⟨[], [], [g], []⟩, next)
        else
          let (backup, restore) ←
            registerBackup st.tables name regBak op.len "restore outputs"
          some (⟨backup, [], [g], restore⟩, next)

/-- `handle_op`: all register operands, then all memory operands. -/
def handleOp
    (handleMem : Operand → GenState → Option (Emitted × GenState))
    (handleReg : Operand → Option RegName → GenState → Option (Emitted × GenState))
    (operands : List Operand) (st : GenState)
    : Option (Emitted × GenState) := do
  let acc ← operands.foldlM
    (fun acc op =>
      match op.kind with
      | .reg name => do
          let (e, st) ← handleReg op name acc.2
          some (if name = some .eflags then acc.1.appendEflags e else acc.1.append e, st)
      | _ => some acc)
    (Emitted.none, st)
  operands.foldlM
    (fun acc op =>
      match op.kind with
      | .mem _ => do
          let (e, st) ← handleMem op acc.2
          some (acc.1.append e, st)
      | _ => some acc)
    acc

/-- The lists that `gen_root` returns for the Feistel modes; the tested code itself and the
exception return points are not among them.
-/
structure Root where
  backup : List Gadget
  setR : List Gadget
  backupR : List Gadget
  setinput : List Gadget
  output : List Gadget
  update : List Gadget
  restore : List Gadget
  deriving DecidableEq, Repr

/-- L blocks for exception data, and R blocks up to the number of L blocks. -/
def addExceptionBlocks (choices : Choices) (st : GenState) : Option GenState := do
  let (l, st) ← getAddr 8 st
  let st := { st with
    feistelL := st.feistelL ++ l
    initL := st.initL ++ l.mapIdx (fun i val =>
      genImm2Mem (choices.seed (st.draws + i)) (.abs val))
    draws := st.draws + l.length }
  (List.range (st.feistelL.length - st.feistelR.length)).foldlM
    (fun st _ => do
      let (r, st) ← getAddr 4 st
      let (rBak, st) ← getAddr 4 st
      some { st with
        feistelR := st.feistelR ++ r
        feistelRBak := st.feistelRBak ++ rBak })
    st

/-- L blocks up to the number of R blocks. -/
def padL (choices : Choices) (st : GenState) : Option GenState :=
  (List.range (st.feistelR.length - st.feistelL.length)).foldlM
    (fun st _ => do
      let (l, st) ← getAddr 4 st
      some { st with
        feistelL := st.feistelL ++ l
        initL := st.initL ++ l.map (fun val => genImm2Mem (choices.seed st.draws) (.abs val))
        draws := st.draws + 1 })
    st

/-- Feistel gadget number `i` for a word of exception data. -/
def exceptionGadget (st : GenState) (i addr : Nat) : Option Gadget := do
  let src1 ← st.feistelL[i]?
  let dest ← st.feistelR[i]?
  genFeistelCipher st.tables 0 src1 (.mem (.abs addr)) dest 4

/-- Copies between lists of blocks of the same index. -/
def copyBlocks (tb : Tables) (src dest : List Nat) : List Gadget :=
  List.zipWith (fun a b => genStoreMem tb (.abs a) (.abs b)) src dest

def genRoot (inst : Inst) (choices : Choices) (mode : Nat) (isInit : Bool) (st : GenState)
    : Option (Root × GenState) := do
  let (reads, st) ← handleOp (handleMemRead inst isInit) (handleRegRead inst isInit)
    inst.operands st
  let (writes, st) ← handleOp (handleMemWrite inst choices isInit)
    (handleRegWrite choices isInit) inst.operands st
  let both := reads.append writes
  let st ← whenInit isInit (addExceptionBlocks choices) st
  let ecpt0 ← exceptionGadget st st.countL edataAddr
  let ecpt1 ← exceptionGadget st (st.countL + 1) (edataAddr + 4)
  let countL := st.countL + 2
  let st ← whenInit isInit (padL choices) st
  -- surplus L blocks are copied to the next R blocks
  let surplus ← (List.range (st.countR - countL)).mapM fun k => do
    let src ← st.feistelL[countL + k]?
    let dest ← st.feistelR[countL + k]?
    some (genStoreMem st.tables (.abs src) (.abs dest))
  let setR :=
    if isInit then
      st.initR ++ (if 2 < mode then (Gadget.merge "Init L blocks" st.initL).toList else [])
    else []
  some (
    { backup := both.backup
      setR := setR
      backupR := copyBlocks st.tables st.feistelR st.feistelRBak
      setinput := both.setinput
      output := both.feistel ++ [ecpt0, ecpt1] ++ surplus
      update := copyBlocks st.tables st.feistelRBak st.feistelL
      restore := both.restore },
    { st with countL := 0, countR := 0, lRestore := [] })

end FastPokeEmu.Floppy
