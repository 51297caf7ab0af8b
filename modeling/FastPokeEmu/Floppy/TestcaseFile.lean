import FastPokeEmu.EmuFuzzball.InputNames

/-! Test-case files: the lines that `finish_path_hook` writes, one for each input variable,
and how `load_fuzzball_tc` and `load_fuzzball_testcase` read them back as registers and
memory bytes.
-/

namespace FastPokeEmu.Testcase

open Numerals LazyMemory InputNames

/-- `sprintf "%s=0x%Lx\n"` -/
def testcaseLine (name : List Char) (value : Nat) : List Char :=
  name ++ "=0x".toList ++ print 16 value ++ ['\n']

def writeTestcase (testcase : List (List Char × Nat)) : List Char :=
  testcase.flatMap (fun p => testcaseLine p.1 p.2)

/-- Blanks that `str.strip` removes. -/
def isSpace (c : Char) : Bool := c ∈ [' ', '\t', '\n', '\r', '\x0b', '\x0c']

def strip (cs : List Char) : List Char := ((cs.dropWhile isSpace).reverse.dropWhile isSpace).reverse

/-- Type and name of a variable. -/
abbrev Key := List Char × List Char

/-- The values read so far and the information of a variable: its entries of `inputs` and of
`vars_info`, which are added together.
-/
structure Entry where
  vals : List (Option UInt8)
  info : Bytes
deriving DecidableEq

abbrev Inputs := List (Key × Entry)

/-- `int(s, 16)` of digits, with or without `0x` in front -/
def intHex : List Char → Option Nat
  | '0' :: 'x' :: digits => parse 16 digits
  | '0' :: 'X' :: digits => parse 16 digits
  | digits => parse 16 digits

def chr (n : Nat) : Option UInt8 := if n < 256 then some (UInt8.ofNat n) else none

/-- A variable seen for the first time has no values. -/
def declare (inputs : Inputs) (key : Key) (size info : List Char) : Option Inputs :=
  match inputs.lookup key with
  | some _ => some inputs
  | none => do
      let n ← parse 10 size
      let d ← decode info
      some (inputs ++ [(key, { vals := List.replicate n none, info := d })])

/-- `inputs[var][i] = v` -/
def assign (inputs : Inputs) (key : Key) (i : Nat) (v : UInt8) : Inputs :=
  inputs.map
    (fun p => if p.1 = key then (p.1, { p.2 with vals := p.2.vals.set i (some v) }) else p)

/-- The six fields of a variable's name and its value. -/
def loadField (inputs : Inputs) (t n d s i val : List Char) : Option Inputs := do
  let inputs ← declare inputs (t, n) s d
  let entry ← inputs.lookup (t, n)
  let info ← decode d
  let j ← parse 10 i
  let v ← (intHex val).bind chr
  if entry.info = info ∧ j < entry.vals.length then some (assign inputs (t, n) j v) else none

/-- Body of the loop of `load_fuzzball_tc`. -/
def loadLine (inputs : Inputs) (l : List Char) : Option Inputs :=
  let l := strip l
  if startsWith l "in_".toList then
    match l.splitOn '=' with
    | [var, val] =>
      match var.splitOn '_' with
      | [_, t, n, d, s, i] => loadField inputs t n d s i val
      | _ => none
    | _ => none
  else some inputs

def loadFuzzballTc (text : List Char) : Option Inputs := (text.splitOn '\n').foldlM loadLine []

/-- The first processor of the snapshot, its fields by the names of their attributes. -/
structure Cpu where
  regsState : List Char → Option Nat
  /-- Selectors of the segment registers -/
  selector : List Char → Option Nat
  sregsState : List Char → Option Nat

def lower (cs : List Char) : List Char := cs.map Char.toLower

def inSnapshotReg (cpu : Cpu) (what : List Char) : Option Nat :=
  cpu.regsState (lower ('R' :: what.drop 1))

def inSnapshotSreg (cpu : Cpu) (what : List Char) : Option Nat := cpu.selector (lower what)

def inSnapshotCreg (cpu : Cpu) (what : List Char) : Option Nat := cpu.sregsState (lower what)

/-- `struct.pack`, little-endian -/
def pack (size w : Nat) : Option Bytes :=
  if w < 256 ^ size then
    some ((List.range size).map (fun i => UInt8.ofNat (w / 256 ^ i % 256)))
  else none

/-- `struct.unpack`, little-endian -/
def unpack (size : Nat) (bytes : Bytes) : Option Nat :=
  if bytes.length = size then some (bytes.foldr (fun b w => b.toNat + 256 * w) 0) else none

def merge (o : Bytes) (v : List (Option UInt8)) : Option Bytes :=
  if o.length = v.length then some (List.zipWith (fun b w => w.getD b) o v) else none

/-- The classes `Register`, `SegmentRegister` and `ControlRegister`. -/
inductive RegKind where
  | reg
  | sreg
  | creg
deriving DecidableEq

/-- A register with its value, an object of the class of its kind. -/
structure Register where
  kind : RegKind
  name : List Char
  value : Nat
deriving DecidableEq

structure Memory where
  address : Nat
  value : Option UInt8
  symbol : Bytes
deriving DecidableEq

/-- If a piece of a register is missing use the original value from the snapshot. -/
def loadRegister (kind : RegKind) (size : Nat) (k : List Char) (original : Option Nat)
    (v : List (Option UInt8))
    : Option Register := do
  let w ← original
  let o ← pack size w
  let r ← merge o v
  let value ← unpack size r
  some { kind, name := k, value }

/-- Body of the loop of `load_fuzzball_testcase`; the constructor of a debug register fails. -/
def loadItem (cpu : Cpu) (out : List Register × List Memory) (item : Key × Entry)
    : Option (List Register × List Memory) :=
  let ((t, k), e) := item
  if t = "reg".toList then
    (loadRegister .reg 4 k (inSnapshotReg cpu k) e.vals).map (fun r => (out.1 ++ [r], out.2))
  else if t = "sreg".toList then
    (loadRegister .sreg 2 k (inSnapshotSreg cpu k) e.vals).map (fun r => (out.1 ++ [r], out.2))
  else if t = "dreg".toList then none
  else if t = "creg".toList then
    (loadRegister .creg 4 k (inSnapshotCreg cpu k) e.vals).map (fun r => (out.1 ++ [r], out.2))
  else if t = "mem".toList then do
    let address ← intHex k
    let value ← e.vals.head?
    some (out.1, out.2 ++ [{ address, value, symbol := e.info }])
  else some out

/-- The registers and the memory bytes of a test case, in the dictionary's order. -/
def loadFuzzballTestcase (cpu : Cpu) (tc : Inputs) : Option (List Register × List Memory) :=
  tc.foldlM (loadItem cpu) ([], [])

/-- First field of the variables of a kind of register, after `in`. -/
def RegKind.tag : RegKind → List Char
  | .reg => "reg".toList
  | .sreg => "sreg".toList
  | .creg => "creg".toList

def RegKind.size : RegKind → Nat
  | .reg => 4
  | .sreg => 2
  | .creg => 4

def RegKind.original (kind : RegKind) (cpu : Cpu) (name : List Char) : Option Nat :=
  match kind with
  | .reg => inSnapshotReg cpu name
  | .sreg => inSnapshotSreg cpu name
  | .creg => inSnapshotCreg cpu name

/-- A byte that is an input: of a register, or of the memory with its symbol, which is empty
for a byte made symbolic lazily.
-/
inductive Variable where
  | register (kind : RegKind) (name : List Char) (i : Nat)
  | memory (addr : Nat) (sym : Bytes)
deriving DecidableEq

/-- The name given by `make_reg_symbolic` or `__make_mem_symbolic`. -/
def Variable.name : Variable → List Char
  | .register kind name i => regName (kind.tag ++ '_' :: name) kind.size i
  | .memory addr sym => memName addr sym

end FastPokeEmu.Testcase
