import FastPokeEmu.EmuFuzzball.InputNames

/-! The inputs that `run-emu-fuzzball.py` makes symbolic: registers, the descriptor tables,
the page directory and the page tables of the snapshot, and the rest of the physical memory
lazily. Each `-symbolic-byte` option declares one host byte.
-/

namespace FastPokeEmu.SymbolicInputs

open Numerals LazyMemory InputNames

/-- Base and limit of a descriptor table. -/
structure TableRegister where
  base : Nat
  limit : Nat

/-- The parts of the first processor's state and of the memory that the script reads. -/
structure Snapshot where
  /-- Selector of the segment register with the given name -/
  selector : List Char → Nat
  cr0 : Nat
  cr3 : Nat
  cr4 : Nat
  gdtr : TableRegister
  idtr : TableRegister
  mem : Bytes

/-- Part of an expression of `extra-desc-conds.txt`: text, or the variable of a byte of the
descriptor.
-/
inductive CondPart where
  | text (cs : List Char)
  | inDesc (i id : Nat)

/-- `FUZZBALL_DESC`: a descriptor cache with its host address, size and table index. -/
structure DescCache where
  name : List Char
  addr : Nat
  size : Nat
  idx : Nat

/-- What the dry run printed, the flags of the script and the file it reads. -/
structure Script where
  /-- `emulator == "BOCHS"` -/
  bochs : Bool
  /-- Name, size and host address of a register -/
  cpuRegs : List (List Char × Nat × Nat)
  descrs : List DescCache
  /-- Host address and size of the physical memory -/
  physMem : Nat × Nat
  /-- Output byte and expression of each line of `extra-desc-conds.txt` -/
  extraDescConds : List (Nat × List CondPart)
  symbolicRegs : Bool
  symbolicSregs : Bool
  symbolicCregs : Bool
  symbolicDregs : Bool
  symbolicGdt : Bool
  symbolicIdt : Bool
  symbolicPt : Bool

inductive CmdOption where
  /-- `-symbolic-byte haddr=name` -/
  | symbolicByte (haddr : Nat) (name : List Char)
  /-- `-extra-condition (name & mask) == value` -/
  | extraCondition (name : List Char) (mask value : Nat)
  | preferredValue (name : List Char) (value : Nat)
  | symbolicByteExprFromFile (haddr : Nat) (cond : List Char)
  | dumpRegion (haddr size : Nat) (name : List Char)
  | symbolicBytesLazy (first size : Nat) (name : List Char)
deriving DecidableEq

/-- The command line and the two lists the script accumulates. -/
structure State where
  cmdline : List CmdOption
  symbolicBytes : List Nat
  concreteBytes : List Nat
deriving DecidableEq

def State.add (s : State) (options : List CmdOption) : State :=
  { s with cmdline := s.cmdline ++ options }

/-- The common body of `__make_mem_symbolic` and of the loop of `make_reg_symbolic`: bits
set in the mask are asserted to make them concrete.
-/
def makeByteSymbolic (s : State) (haddr : Nat) (name : List Char) (value mask : Nat)
    (mindist : Bool)
    : State :=
  if mask < 0xff then
    { s with
      cmdline := s.cmdline ++ [.symbolicByte haddr name]
        ++ (if mask > 0 then [.extraCondition name mask (value &&& mask)] else [])
        ++ (if mindist then [.preferredValue name value] else [])
      symbolicBytes := s.symbolicBytes ++ [haddr] }
  else { s with concreteBytes := s.concreteBytes ++ [haddr] }

/-- `__make_mem_symbolic` -/
def makeMemByteSymbolic (s : State) (haddr gaddr : Nat) (sym : Bytes) (value mask : Nat)
    (mindist : Bool)
    : State :=
  makeByteSymbolic s haddr (memName gaddr sym) value mask mindist

/-- `sym + "_%d" % i` -/
def byteSym (sym : Bytes) (i : Nat) : Bytes := sym ++ ascii ('_' :: dec i)

def makeMemSymbolic (s : State) (haddr gaddr : Nat) (sym values : Bytes) (masks : List Nat)
    (mindist : Bool)
    : Option State :=
  if values.length = masks.length then
    some ((List.range values.length).foldl
      (fun s i => makeMemByteSymbolic s (haddr + i) (gaddr + i) (byteSym sym i)
        (values.getD i 0).toNat (masks.getD i 0) mindist) s)
  else none

def makeMemConcrete (s : State) (haddr size : Nat) : State :=
  (List.range size).foldl
    (fun s i => { s with concreteBytes := s.concreteBytes ++ [haddr + i] }) s

/-- Bytes of a number of 1, 2 or 4 bytes; `struct.pack` refuses any other. -/
def chunk (v size : Nat) : Option (List Nat) :=
  if size ∈ [1, 2, 4] ∧ v < 256 ^ size then
    some ((List.range size).map (fun i => v / 256 ^ i % 256))
  else none

def makeRegSymbolic (s : State) (haddr : Nat) (name : List Char) (size value mask : Nat)
    (mindist : Bool)
    : Option State := do
  let values ← chunk value size
  let masks ← chunk mask size
  some ((List.range size).foldl
    (fun s i => makeByteSymbolic s (haddr + i) (regName name size i)
      (values.getD i 0) (masks.getD i 0) mindist) s)

/-- The expression of a line, over the bytes of one descriptor. -/
def descCond (script : Script) (s : State) (desc : Nat) (sym values : Bytes)
    (cond : List CondPart)
    : List Char :=
  cond.flatMap fun
    | .text cs => cs
    | .inDesc i id =>
      if 8 ≤ i then "in_desc_".toList ++ dec i ++ "_".toList ++ dec id ++ ":reg8_t".toList
      else if script.physMem.1 + desc + i ∈ s.concreteBytes then
        "0x".toList ++ print 16 (values.getD i 0).toNat ++ ":reg8_t".toList
      else memName (desc + i) (byteSym sym i) ++ ":reg8_t".toList

def makeExtraCondDesc (script : Script) (s : State) (desc : Nat) (sym values : Bytes)
    (cache : DescCache)
    : List CmdOption :=
  script.extraDescConds.map
    (fun line => .symbolicByteExprFromFile (cache.addr + line.1)
      (descCond script s desc sym values line.2))

/-- `"out_%s__%d" % (r, s)` -/
def dumpName (r : List Char) (size : Nat) : List Char :=
  "out_".toList ++ r ++ "__".toList ++ dec size

/-- `CR3_PAGING_MASK` -/
def pagingMask : Nat := 0xfffff000

/-- Value, mask and `mindist` of a control register. -/
def cregInput (snap : Snapshot) (r : List Char) : Nat × Nat × Bool :=
  if r = "creg_CR3".toList then (snap.cr3, pagingMask, true)
  else if r = "creg_CR0".toList then (snap.cr0, 2 ^ 31 ||| 1, true)
  else if r = "creg_CR4".toList then (snap.cr4, 2 ^ 4 ||| 2 ^ 5, true)
  else (0, 0, false)

/-- One input register and the option that dumps it at the end. -/
def makeRegister (s : State) (a : Nat) (r : List Char) (size value mask : Nat) (mindist : Bool)
    (dumped : Nat)
    : Option State :=
  (makeRegSymbolic s a r size value mask mindist).map
    (·.add [.dumpRegion a size (dumpName r dumped)])

def generalRegister (script : Script) (s : State) (r : List Char) (size a : Nat)
    : Option State :=
  if startsWith r "reg_".toList ∧ script.symbolicRegs ∧ r ≠ "reg_EIP".toList then
    makeRegister s a r size 0 0 false size
  else some s

/-- Always two bytes, whatever the register's size; only for Bochs. -/
def segmentRegister (script : Script) (snap : Snapshot) (s : State) (r : List Char)
    (size a : Nat)
    : Option State :=
  if startsWith r "sreg_".toList ∧ script.symbolicSregs then
    if script.bochs then makeRegister s a r 2 (snap.selector r) 0xfffc false size else none
  else some s

def controlRegister (script : Script) (snap : Snapshot) (s : State) (r : List Char)
    (size a : Nat)
    : Option State :=
  if startsWith r "creg_".toList ∧ script.symbolicCregs then
    let (v, m, z) := cregInput snap r
    makeRegister s a r size v m z size
  else some s

def debugRegister (script : Script) (s : State) (r : List Char) (size a : Nat)
    : Option State :=
  if startsWith r "dreg_".toList ∧ script.symbolicDregs then
    makeRegister s a r size 0 0 false size
  else some s

/-- Body of the loop over `cpu_regs`: the name decides which of the four applies. -/
def registerStep (script : Script) (snap : Snapshot) (s : State) (reg : List Char × Nat × Nat)
    : Option State := do
  let (r, size, a) := reg
  let s ← generalRegister script s r size a
  let s ← segmentRegister script snap s r size a
  let s ← controlRegister script snap s r size a
  debugRegister script s r size a

def registers (script : Script) (snap : Snapshot) : Option State :=
  script.cpuRegs.foldlM (registerStep script snap)
    { cmdline := [], symbolicBytes := [], concreteBytes := [] }

/-- `data[a:b]` -/
def slice (data : Bytes) (a b : Nat) : Bytes := (data.take b).drop a

/-- Symbol `"%s_%d_%d" % (kind, i, size)` of a table's entry -/
def entrySym (kind : String) (i size : Nat) : Bytes :=
  ascii (kind.toList ++ '_' :: dec i ++ '_' :: dec size)

/-- The base of a descriptor is kept concrete, and one bit of byte 6. The limit, byte 5 with s and
the type, and g become symbolic. The loop over the interrupt descriptors uses it too.
-/
def mask : List Nat := [0x0, 0x0, 0xff, 0xff, 0xff, 0x0, 0x40, 0xff]

/-- Bytes of a table between its base and its limit. -/
def TableRegister.data (table : TableRegister) (mem : Bytes) : Bytes :=
  slice mem table.base (table.base + table.limit)

def gdtStep (script : Script) (snap : Snapshot) (s : State) (i : Nat) : Option State :=
  let data := slice (snap.gdtr.data snap.mem) (i * 8) ((i + 1) * 8)
  let ga := snap.gdtr.base + i * 8
  let ha := ga + script.physMem.1
  let sym := entrySym "GDT" i 8
  if script.symbolicGdt then do
    let s ← makeMemSymbolic s ha ga sym data mask true
    some ((script.descrs.filter (·.idx = i)).foldl
      (fun s desc => s.add (makeExtraCondDesc script s ga sym data desc)) s)
  else some (makeMemConcrete s ha data.length)

def idtStep (script : Script) (snap : Snapshot) (s : State) (i : Nat) : Option State :=
  let data := slice (snap.idtr.data snap.mem) (i * 8) ((i + 1) * 8)
  let ga := snap.idtr.base + i * 8
  let ha := ga + script.physMem.1
  let sym := entrySym "IDT" i 8
  if script.symbolicIdt then makeMemSymbolic s ha ga sym data mask true
  else some (makeMemConcrete s ha data.length)

/-- `range(1, limit / 8)` -/
def TableRegister.entries (table : TableRegister) : List Nat := List.range' 1 (table.limit / 8 - 1)

/-- `struct.unpack("I", ..)` refuses anything but four bytes. -/
def deref4 (mem : Bytes) (x : Nat) : Option Nat :=
  match slice mem x (x + 4) with
  | [a, b, c, d] => some (a.toNat + 256 * b.toNat + 256 ^ 2 * c.toNat + 256 ^ 3 * d.toNat)
  | _ => none

/-- `pde_mask` and `pte_mask` -/
def pteMask : List Nat := [0x00, 0xff, 0xff, 0xff]

/-- An entry whose present bit is set is an input. -/
def makeEntry (script : Script) (snap : Snapshot) (s : State) (entry word : Nat) (sym : Bytes)
    (mindist : Bool)
    : Option State :=
  let data := slice snap.mem entry (entry + 4)
  let ha := entry + script.physMem.1
  if word &&& 1 ≠ 0 then
    if script.symbolicPt then makeMemSymbolic s ha entry sym data pteMask mindist
    else some (makeMemConcrete s ha data.length)
  else some (makeMemConcrete s ha data.length)

/-- Body of the loop over the entries of the page table of directory entry `i`. -/
def pteStep (script : Script) (snap : Snapshot) (i table : Nat) (s : State) (j : Nat)
    : Option State := do
  let pte := table + j * 4
  let word ← deref4 snap.mem pte
  makeEntry script snap s pte word (entrySym "PTE" i 4) true

/-- Body of the loop over the page directory; a page table already seen is skipped. -/
def pdeStep (script : Script) (snap : Snapshot) (done : State × List Nat) (i : Nat)
    : Option (State × List Nat) := do
  let (s, ptesDone) := done
  let pde := (snap.cr3 &&& pagingMask) + i * 4
  let word ← deref4 snap.mem pde
  let s ← makeEntry script snap s pde word (entrySym "PDE" i 4) false
  if word &&& 1 ≠ 0 ∧ word &&& pagingMask ∉ ptesDone then do
    let table := word &&& pagingMask
    let s ← (List.range (2 ^ 10)).foldlM (pteStep script snap i table) s
    some (s, table :: ptesDone)
  else some (s, ptesDone)

/-- 32-bit paging without PAE. -/
def Snapshot.paged (snap : Snapshot) : Bool := snap.cr0 &&& 2 ^ 31 ≠ 0 && snap.cr4 &&& 2 ^ 5 = 0

def pageTables (script : Script) (snap : Snapshot) (s : State) : Option State :=
  if snap.paged then
    ((List.range (2 ^ 10)).foldlM (pdeStep script snap) (s, [])).map Prod.fst
  else none

def lazyOptions (script : Script) (s : State) : List CmdOption :=
  (computeMissingLocs script.physMem s.symbolicBytes s.concreteBytes).map
    (fun r => .symbolicBytesLazy r.1 (r.2 - r.1 + 1) "in_mem___1".toList)

/-- Everything after the registers. -/
def memory (script : Script) (snap : Snapshot) (s : State) : Option State := do
  let s ← snap.gdtr.entries.foldlM (gdtStep script snap) s
  let s ← snap.idtr.entries.foldlM (idtStep script snap) s
  let s ← pageTables script snap s
  some (s.add (lazyOptions script s))

def inputs (script : Script) (snap : Snapshot) : Option State := do
  let s ← registers script snap
  memory script snap s

end FastPokeEmu.SymbolicInputs
