import FastPokeEmu.CpuState.Parsing
import Mathlib.Data.Char
import Mathlib.Data.List.Dedup
import Mathlib.Data.List.Lex
import Mathlib.Data.List.Sort
import FastPokeEmu.Library.Numerals

/-! Normalisation and comparison of dumps (`diff_cpustate.py`).
CPU objects live in a heap: a dump of a crashed run borrows one from the first valid dump,
and normalisation updates the objects in place. An exception or a failed assertion is `none`.
-/

namespace FastPokeEmu.CpuState

/-- A CPU object: the number of the dump it was loaded with, and its number there. -/
abbrev Ref := Nat × Nat

/-- A dump during the comparison. -/
structure Loaded where
  hdr : Header
  cpus : List Ref
  mem : List UInt8

structure World where
  heap : Ref → Cpu
  dumps : List Loaded

def loadDump (i : Nat) (d : Dump) : Loaded where
  hdr := d.hdr
  cpus := (List.range d.cpus.length).map (fun j => (i, j))
  mem := d.mem

def load (dumps : List Dump) : World where
  heap := fun r => ((dumps[r.1]?).bind (fun d => d.cpus[r.2]?)).getD default
  dumps := dumps.mapIdx loadDump

/-- The character that stands for unknown contents. -/
def questionMark : UInt8 := 0x3f

/-- Give a dump without a state the first CPU of a valid one, and memory of its size. -/
def borrow (tmp d : Loaded) : Option Loaded :=
  if isValidType d.hdr.type then some d
  else
    match tmp.cpus with
    | [] => none
    | c :: _ =>
      some
        { hdr := { d.hdr with memSize := tmp.hdr.memSize, cpusno := 1 }
          cpus := d.cpus ++ [c]
          mem := List.replicate tmp.hdr.memSize questionMark }

def maskRegs (r : RegsState) : RegsState :=
  { r with
    rip := r.rip &&& 0xffffffff
    rflags := r.rflags &&& 0xffffffff
    rax := r.rax &&& 0xffffffff
    rbx := r.rbx &&& 0xffffffff
    rcx := r.rcx &&& 0xffffffff
    rdx := r.rdx &&& 0xffffffff
    rsi := r.rsi &&& 0xffffffff
    rdi := r.rdi &&& 0xffffffff
    rsp := r.rsp &&& 0xffffffff
    rbp := r.rbp &&& 0xffffffff }

def ignoreFpu (f : FpuState) : FpuState :=
  { f with
    st := f.st.map
      (fun st => { mantissa := 0, expsign := 0, reserved := st.reserved.set 5 0 })
    mxcsr := 0
    mxcsrMask := 0
    ftw := 0
    fpuip := 0
    fpudp := 0
    xmm := f.xmm.map (fun x => { data := x.data.map (fun _ => 0) }) }

/-- `rflags &= ~0x10000` -/
def clearResume (r : RegsState) : RegsState := { r with rflags := r.rflags &&& 0xfffffffffffeffff }

def normalizeCpu (emulators : List Nat) (emulator : Nat) (c : Cpu) : Cpu :=
  { c with
    regsState :=
      if emulator = emulatorKvm then clearResume (maskRegs c.regsState)
      else maskRegs c.regsState
    sregsState :=
      if emulatorQemu ∈ emulators then
        { c.sregsState with cr0 := c.sregsState.cr0 ||| 0xe0000000 }
      else c.sregsState
    fpuState := ignoreFpu c.fpuState }

def ignoreDebug (c : Cpu) : Cpu :=
  { c with
    sregsState :=
      { c.sregsState with dr0 := 0, dr1 := 0, dr2 := 0, dr3 := 0, dr6 := 0, dr7 := 0 } }

def msrRegs : List Nat := [0x174, 0x175, 0x176]

def keepMsrs (c : Cpu) : Cpu :=
  { c with
    msrsState :=
      { n := msrRegs.length
        msrRegs := c.msrsState.msrRegs.map
          (fun r => if r.idx ∈ msrRegs then r else { idx := 0, val := 0 }) } }

/-- Replace the memory of a symbol, in steps, and check the size of the result. -/
def rewriteSymbol (step : Nat) (chunk : List UInt8 → Nat → Option (List UInt8)) (memSize : Nat)
    (s : Symbol) (data : List UInt8)
    : Option (List UInt8) := do
  let starts := (List.range ((s.size + (step - 1)) / step)).map (fun k => s.address + step * k)
  let parts ← starts.mapM (chunk data)
  let data := data.take s.address ++ parts.flatten ++ data.drop (s.address + s.size)
  if data.length = memSize then some data else none

/-- A page table entry without its accessed bit. -/
def entryChunk (data : List UInt8) (i : Nat) : Option (List UInt8) :=
  data[i]?.map (fun b => (b &&& 0xdf) :: (data.drop (i + 1)).take 3)

/-- A TSS without parts of its flags; byte 35 is dropped. -/
def tssChunk (data : List UInt8) (i : Nat) : Option (List UInt8) := do
  let b ← data[i + 36]?
  let c ← data[i + 37]?
  some ((data.drop i).take 35 ++ [b &&& 0, c &&& 0] ++ (data.drop (i + 38)).take 67)

/-- BOCHS does not set the accessed bits. -/
def ignoreAccessed (emulators : List Nat) (kernel : Option Kernel) (memSize : Nat)
    (data : List UInt8)
    : Option (List UInt8) :=
  if emulatorBochs ∈ emulators then
    match kernel with
    | none => some data
    | some getSymbol => do
        let pd ← getSymbol "pd"
        let pt ← getSymbol "pt"
        let data ← rewriteSymbol 4 entryChunk memSize pd data
        rewriteSymbol 4 entryChunk memSize pt data
  else some data

def ignoreEflags (name : String) (kernel : Option Kernel) (memSize : Nat) (data : List UInt8)
    : Option (List UInt8) := do
  let getSymbol ← kernel
  let tss ← getSymbol name
  rewriteSymbol 105 tssChunk memSize tss data

def Loaded.mapMem (f : Nat → List UInt8 → Option (List UInt8)) (d : Loaded) : Option Loaded := do
  let mem ← f d.hdr.memSize d.mem
  some { d with mem }

/-- Update the CPUs of a dump in place, knowing its emulator. -/
def touchDump (f : Nat → Cpu → Cpu) (heap : Ref → Cpu) (d : Loaded) : Ref → Cpu :=
  d.cpus.foldl (fun heap r => Function.update heap r (f d.hdr.emulator (heap r))) heap

def touch (f : Nat → Cpu → Cpu) (dumps : List Loaded) (heap : Ref → Cpu) : Ref → Cpu :=
  dumps.foldl (touchDump f) heap

/-- The loops over the dumps, in the source's order; the first one's parts for the CPUs and
for the memory do not interact.
-/
def normalizeStates (kernel : Option Kernel) (w : World) : Option World := do
  let emulators := w.dumps.map (·.hdr.emulator)
  let heap := touch (normalizeCpu emulators) w.dumps w.heap
  let dumps ← w.dumps.mapM (Loaded.mapMem (ignoreAccessed emulators kernel))
  let dumps ← dumps.mapM (Loaded.mapMem (ignoreEflags "tssEXCP05" kernel))
  let dumps ← dumps.mapM (Loaded.mapMem (ignoreEflags "tssEXCP32" kernel))
  let heap := touch (fun _ => ignoreDebug) dumps heap
  let heap := touch (fun _ => keepMsrs) dumps heap
  some { heap, dumps }

def memKey : Path := [.field "mem"]

def emulatorKey : Path := [.field "hdr", .field "emulator"]

def typeKey : Path := [.field "hdr", .field "type"]

def cpusnoKey : Path := [.field "hdr", .field "cpusno"]

def parseCpu (heap : Ref → Cpu) (d : Loaded) (h : Dict) (i : Nat) : Option Dict := do
  let r ← d.cpus[i]?
  parseStateRecurse (heap r).view [.cpu i] h

def parseState (heap : Ref → Cpu) (d : Loaded) : Option Dict := do
  let h ← parseStateRecurse d.hdr.view [.field "hdr"] ∅
  match Dict.get h cpusnoKey with
  | some (.num n) =>
    let h ← (List.range n).foldlM (parseCpu heap d) h
    some (h.insert memKey (.bytes d.mem))
  | _ => none

/-- A numeric entry that every state has. -/
def Dict.numAt (h : Dict) (p : Path) : Nat :=
  match Dict.get h p with
  | some (.num n) => n
  | _ => 0

def Dict.mem (h : Dict) : List UInt8 :=
  match Dict.get h memKey with
  | some (.bytes data) => data
  | _ => []

/-- More than one value. -/
def diff {α : Type} [DecidableEq α] (dd : List α) : Bool := 1 < dd.dedup.length

/-- Two values, one of which stands for an invalid state. -/
def dummyDiff {α : Type} [DecidableEq α] (filler : α) (dd : List α) : Bool :=
  dd.dedup.length = 2 ∧ filler ∈ dd

structure Difference where
  key : Path
  offset : Option Nat
  /-- Value, emulator and type of every dump -/
  data : List (Value × Nat × Nat)

def noteDifference (states : List Dict) (key : Path) (offset : Option Nat) (value : Dict → Value)
    : Difference where
  key := key
  offset := offset
  data := states.map (fun s => (value s, s.numAt emulatorKey, s.numAt typeKey))

def slice (i n : Nat) (data : List UInt8) : List UInt8 := (data.drop i).take n

def skippedWords : List Nat := [0x20cfd8, 0x20cfdc, 0x20cfe0]

def fillerWord : List UInt8 := List.replicate 4 questionMark

/-- The text of a word; a word cut off by the end of the memory has none. -/
def wordText (s : List UInt8) : Option (List UInt8) :=
  if s = fillerWord then some s
  else if s.length < 4 then none
  else some s

def diffWord (states : List Dict) (i : Nat) : Option (List Difference) :=
  if i ∈ skippedWords then some []
  else
    let ss := states.map (fun s => slice i 4 s.mem)
    let found := noteDifference states memKey (some i) (fun s => .bytes (slice i 4 s.mem))
    if diff ss ∧ ¬ dummyDiff fillerWord ss then do
      let _ ← ss.mapM wordText
      some [found]
    else if diff ss then some [found]
    else some []

def fillerPage : List UInt8 := List.replicate 4096 questionMark

def diffPage (states : List Dict) (j : Nat) : Option (List Difference) :=
  let ss := states.map (fun s => slice j 4096 s.mem)
  if ¬ diff ss then some []
  else if dummyDiff fillerPage ss then some []
  else do
    let dd ← ((List.range 1024).map (fun k => j + 4 * k)).mapM (diffWord states)
    some dd.flatten

def megabyte : Nat := 1024 * 1024

/-- First addresses of the pages of a memory above the first megabyte. -/
def pageStarts (size : Nat) : List Nat :=
  (List.range ((size - megabyte + 4095) / 4096)).map (fun k => megabyte + 4096 * k)

def diffMem (states : List Dict) : Option (List Difference) :=
  match states with
  | [] => none
  | first :: _ => do
      let dd ← (pageStarts first.mem.length).mapM (diffPage states)
      some dd.flatten

def filler : Value := .text "????"

/-- The value compared; states without a value have a filler. -/
def comparedValue (k : Path) (s : Dict) : Value :=
  if isValidType (s.numAt typeKey) then (Dict.get s k).getD filler else filler

def diffField (states : List Dict) (k : Path) : List Difference :=
  if ∃ s ∈ states, k ∉ s then []
  else
    let ss := states.map (comparedValue k)
    let found := noteDifference states k none (fun s => (Dict.get s k).getD filler)
    if diff ss ∧ ¬ dummyDiff filler ss then [found]
    else if diff ss then [found]
    else []

def diffKey (states : List Dict) (k : Path) : Option (List Difference) :=
  if k = emulatorKey then some []
  else if k = memKey then diffMem states
  else some (diffField states k)

def Step.render : Step → List Char
  | .field name => '.' :: name.toList
  | .index i => '[' :: Numerals.print 10 i ++ [']']
  | .cpu i => "cpu[".toList ++ Numerals.print 10 i ++ [']']
  | .msr idx => '[' :: Numerals.pad 8 (Numerals.print 16 idx) ++ [']']

/-- The text of a key, by which keys are sorted. -/
def Path.render (p : Path) : List Char := p.flatMap Step.render

def sortKeys (keys : List Path) : List Path := keys.insertionSort (fun p q => p.render ≤ q.render)

/-- Complete the dumps of failed runs. -/
def borrowCpus (w : World) : Option World :=
  match w.dumps.find? (fun d => isValidType d.hdr.type) with
  | some tmp => do
      let dumps ← w.dumps.mapM (borrow tmp)
      some { w with dumps }
  | none => some w

/-- The symbols of the kernel, which is found by its checksum. -/
def kernelOf (kernels : String → Option Kernel) (dumps : List Dump) : Option Kernel :=
  dumps.head?.bind (fun d => kernels d.hdr.kernelChecksum)

def parsedStates (kernels : String → Option Kernel) (dumps : List Dump)
    : Option (List Dict) := do
  let w ← borrowCpus (load dumps)
  let w ← normalizeStates (kernelOf kernels dumps) w
  w.dumps.mapM (parseState w.heap)

/-- Some run failed, and some did not. -/
def crashed (dumps : List Dump) : Nat :=
  if (∃ d ∈ dumps, isValidType d.hdr.type = true) ∧ ∃ d ∈ dumps, isValidType d.hdr.type = false then
    crashTestcase
  else 0

def compareStates (states : List Dict) : Option (List Difference) :=
  match states with
  | [] => none
  | first :: _ => do
      let dd ← (sortKeys first.keys).mapM (diffKey states)
      some dd.flatten

/-- Checksums and memory sizes agree. -/
def comparable (dumps : List Dump) : Bool :=
  !diff (dumps.map (·.hdr.kernelChecksum)) && !diff (dumps.map (·.hdr.testcaseChecksum))
    && !diff ((dumps.filter (fun d => isValidType d.hdr.type)).map (·.hdr.memSize))

/-- The comparison with its default options: status and differences. -/
def diffDumps (kernels : String → Option Kernel) (dumps : List Dump)
    : Option (Nat × List Difference) :=
  if ¬ comparable dumps then none
  else if ∃ d ∈ dumps, d.hdr.type &&& ioTestcase ≠ 0 then some (ioTestcase, [])
  else do
    let states ← parsedStates kernels dumps
    let _ ← dumps.mapM (fun d => emulatorName d.hdr.emulator)
    let dd ← compareStates states
    some (crashed dumps, dd)

end FastPokeEmu.CpuState
