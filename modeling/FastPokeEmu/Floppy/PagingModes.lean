import FastPokeEmu.Floppy.DataArea
import FastPokeEmu.Floppy.Phases
import FastPokeEmu.Floppy.Stability

/-! Test cases that turn paging off. The data area is mapped twice, and with paging off only
the lower copy can be reached, so `gen_set_creg` flips the addresses in the globals when it
meets such a value of CR0. The flip is a side effect in the middle of the generation of a
test case: what was generated before has the addresses of the other paging mode.
-/

namespace FastPokeEmu.Floppy

open List

/-- `val ^ 0x01000000` -/
def flipAddr (a : Nat) : Nat := a ^^^ 0x01000000

/-- The range that can be used with paging on only. -/
def Extended (a : Nat) : Prop := a.testBit 24 = true

instance (a : Nat) : Decidable (Extended a) := inferInstanceAs (Decidable (_ = _))

/-- The globals that hold addresses, and the paging mode they are meant for. -/
structure Globals where
  gen : GenState
  retp : Nat
  edata : Nat
  countAddr : Nat
  startAddr : Nat
  endAddr : Nat
  pg : Bool

def retpAddr : Nat := 0x128d008

/-- The globals of the first test case, when the loop counter has got its word. -/
def Globals.start : Globals :=
  ⟨.start, retpAddr, edataAddr, Floppy.startAddr, Floppy.startAddr, Floppy.endAddr, true⟩

/-- `flip_addrs`; the words for the original outputs are left out. -/
def Globals.flipAddrs (g : Globals) : Globals where
  gen :=
    { g.gen with
      nextAddr := flipAddr g.gen.nextAddr
      feistelR := g.gen.feistelR.map flipAddr
      feistelRBak := g.gen.feistelRBak.map flipAddr
      feistelL := g.gen.feistelL.map flipAddr
      feistelIn := g.gen.feistelIn.map flipAddr }
  retp := flipAddr g.retp
  edata := flipAddr g.edata
  countAddr := flipAddr g.countAddr
  startAddr := flipAddr g.startAddr
  endAddr := flipAddr g.endAddr
  pg := g.pg

def Globals.addresses (g : Globals) : List Nat :=
  [g.retp, g.edata, g.countAddr, g.startAddr, g.endAddr, g.gen.nextAddr] ++ g.gen.batch.words

/-- A value of CR0 without the PG bit. -/
def Param.pagingOff : Param → Bool
  | .creg 0 value => !value.getLsbD 31
  | _ => false

/-- What generating the gadget of a parameter does to the globals. -/
def Globals.generated (g : Globals) (p : Param) : Globals :=
  if p.pagingOff && g.pg then { g.flipAddrs with pg := false } else g

/-- Turn paging back on. -/
def Globals.finish (g : Globals) : Globals := if g.pg then g else { g.flipAddrs with pg := true }

theorem flipAddr_flipAddr (a : Nat) : flipAddr (flipAddr a) = a := by
  rw [flipAddr, flipAddr, Nat.xor_assoc, Nat.xor_self, Nat.xor_zero]

theorem extended_flipAddr (a : Nat) : Extended (flipAddr a) ↔ ¬ Extended a := by
  have bit : (0x01000000 : Nat).testBit 24 = true := by decide
  simp [Extended, flipAddr, bit]

theorem extended_of_inArea {a : Nat} (inside : InArea a) : Extended a := by
  obtain ⟨low, high⟩ := inside
  have low' : 0x1000000 ≤ a := le_trans (by decide) low
  have high' : a < 0x2000000 := lt_of_le_of_lt high (by decide)
  simp only [Extended, Nat.testBit_eq_decide_div_mod_eq, decide_eq_true_eq]
  omega

theorem Globals.flipAddrs_flipAddrs (g : Globals) : g.flipAddrs.flipAddrs = g := by
  have twice : flipAddr ∘ flipAddr = id := funext flipAddr_flipAddr
  simp [flipAddrs, flipAddr_flipAddr, twice]

/-- Generating the gadgets of parameters flips the globals at most once, and exactly once if
one of them turns paging off.
-/
theorem Globals.foldl_generated (g : Globals) (on : g.pg = true) (ps : List Param)
    : ps.foldl Globals.generated g
      = if ps.any Param.pagingOff then { g.flipAddrs with pg := false } else g := by
  have off (ps : List Param) (h : Globals) (off : h.pg = false)
      : ps.foldl Globals.generated h = h := by
    induction ps with
    | nil => rfl
    | cons p rest ih =>
      have stays : h.generated p = h := by simp [generated, off]
      rw [foldl_cons, stays, ih]
  induction ps with
  | nil => rfl
  | cons p rest ih =>
    rw [foldl_cons, any_cons]
    cases clears : p.pagingOff with
    | true =>
      have flips : g.generated p = { g.flipAddrs with pg := false } := by
        simp [generated, clears, on]
      rw [flips, off _ _ rfl]
      rfl
    | false =>
      have stays : g.generated p = g := by simp [generated, clears]
      rw [stays, ih, Bool.false_or]

theorem Globals.finish_foldl_generated (g : Globals) (on : g.pg = true) (ps : List Param)
    : (ps.foldl Globals.generated g).finish = g := by
  rw [g.foldl_generated on]
  split
  · have undone := g.flipAddrs_flipAddrs
    obtain ⟨gen, retp, edata, countAddr, startAddr, endAddr, pg⟩ := g
    cases on
    exact undone
  · simp [finish, on]

/-- What does not change from test case to test case. -/
structure Config where
  mode : Nat
  loop : Word
  snapshot : Snapshot
  symbol : Nat → Option (List Char)
  choices : Choices

/-- Memory operands of an instruction. A byte that a parameter sets is at an address of the
test case's own, and does not count.
-/
def Ins.operands : Ins → List MemOp
  | .load m _ | .store _ m | .loadSeg m _ | .storeSeg _ m | .loadExt _ m _ | .storeExt _ _ m
  | .fldt m | .fstpt m | .movlImm _ m | .aluMem _ m _ | .cmpMem _ m | .andlMem _ m
  | .pxorMem _ m _ | .pushMem m | .popMem m | .movlLabel _ m => [m]
  | _ => []

/-- The address of an operand without registers. -/
def MemOp.absolute (m : MemOp) : Option Nat :=
  match m.base with
  | none => m.disp.map Int.toNat
  | some _ => none

/-- Addresses that are written out in the code of a gadget. -/
def Gadget.absolutes (g : Gadget) : List Nat :=
  ((Cpu.instructions g.asm).flatMap Ins.operands).filterMap MemOp.absolute

/-- The value that a gadget of `gen_set_creg` loads into CR0. -/
def Gadget.setsCr0 (g : Gadget) : Option Word :=
  match g.asm with
  | [.ins (.movImm value .eax), .ins (.movToCr 0 .eax)] => some value
  | _ => none

/-- A test case, with the random numbers and the orders of sets that its generation meets.
The parameters come from a dictionary, and the code is the tested instruction.
-/
structure TestCase where
  inst : Inst
  code : List Gadget
  params : List Param
  labels : Nat → Nat → Nat
  sets : Nat → SetOrder
  orders : Nat → HashOrder
  l2 : Nat
  distinct : (params.map Param.loc).Nodup
  plain : ∀ g ∈ code, g.absolutes = [] ∧ g.setsCr0 = none

/-- The phases of a test case, and the globals before and after the gadgets of its parameters
were generated.
-/
structure Emission where
  phases : Phases
  early : Globals
  late : Globals

namespace Config

variable (c : Config)

/-- `gen_root`, which runs before any flip of its test case -/
def genRoot (inst : Inst) (isFirst : Bool) (st : GenState) : Option (Root × GenState) :=
  if 2 ≤ c.mode then Floppy.genRoot inst c.choices c.mode isFirst st
  else if c.mode = 1 then
    (genSimpleRoot inst c.choices st).map (fun r => (⟨[], [], [], [], r.1, [], []⟩, r.2))
  else some (⟨[], [], [], [], [], [], []⟩, st)

/-- Parameters that differ from the snapshot, with their values there. -/
def changed (params : List Param) : Option (List (Param × Param)) :=
  (params.mapM (fun p : Param => (p.inSnapshot c.snapshot).map (Prod.mk p))).map
    (fun pairs => pairs.filter (fun q => q.1 ≠ q.2))

/-- One of the five lists of gadgets that are generated from the parameters, stabilized. -/
def gather (t : TestCase) (k : Nat) (make : Nat → Param → Option (List Gadget))
    (changed : List (Param × Param))
    : Option (List Gadget) := do
  let lists ← changed.zipIdx.mapM (fun q => make (t.labels k q.2) q.1.1)
  makeStable c.snapshot c.symbol (t.sets k) (t.labels (k + 5)) lists.flatten
    (.ofList (changed.map (fun q => q.1.loc)))

/-- Without aggregation nothing is undone. -/
def undone (l : List Gadget) : List Gadget := if c.mode = 0 then [] else l

/-- Only the looping mode has a loop counter. -/
def inMode (ps : Phases) : Phases :=
  if 2 < c.mode then ps
  else
    { ps with
      startup := .setRetp .l3 :: ps.startup.tail
      loop := [.label .l4, .setRetp .l5, .label .l5] }

/-- One turn of the loop of `gen_floppy_with_testcase`. -/
def genTest (isFirst : Bool) (g : Globals) (t : TestCase) : Option (Emission × Globals) := do
  let (root, gen) ← c.genRoot t.inst isFirst g.gen
  let early := { g with gen := gen }
  let changed ← c.changed t.params
  -- the gadgets of a parameter are generated before those that undo it
  let late := (changed.flatMap (fun q => [q.1, q.2])).foldl Globals.generated early
  let param ← c.gather t 0 (Param.genGadget c.snapshot) changed
  let param0 ← c.gather t 1 (Param.genGadget c.snapshot) changed
  let revert ← c.gather t 2 (Param.genRevertGadget c.snapshot .fs) changed
  let revert0 ← c.gather t 3 (Param.genRevertGadget c.snapshot .fs) changed
  let revert_ ← c.gather t 4 (Param.genRevertGadget c.snapshot .fs) changed
  let collected : Collected :=
    { isFirst := isFirst
      loop := c.loop
      retpOp := ⟨some .fs, some late.retp, none, none, 0⟩
      l2 := t.l2
      root := root
      code := t.code
      param := param
      param0 := c.undone param0
      revert := c.undone revert
      revert0 := c.undone revert0
      revert_ := c.undone revert_ }
  let phases ← collected.phases t.orders
  some (⟨c.inMode phases, early, late⟩, late.finish)

def genTests : Bool → Globals → List TestCase → Option Globals
  | _, g, [] => some g
  | isFirst, g, t :: rest => do
      let (_, g) ← c.genTest isFirst g t
      genTests false g rest

end Config

namespace Emission

variable (out : Emission)

/-- A return point, exception data, loop counter, Feistel block or backup, in either range. -/
def isGlobal (a : Nat) : Bool :=
  let known := [out.early.retp, out.early.edata, out.early.edata + 4, out.early.countAddr]
    ++ out.early.gen.batch.words
  a ∈ known ∨ flipAddr a ∈ known

/-- Such addresses in a line. The startup phase begins with lines that were generated first. -/
def occurrences : Phase × Line → List Nat
  | (.startup, .prologue _ _) => [out.early.countAddr, out.early.retp]
  | (.startup, .setRetp _) => [out.early.retp]
  | (_, .prologue _ _) => [out.late.countAddr, out.late.retp]
  | (_, .setRetp _) => [out.late.retp]
  | (_, .decJnz _) => [out.late.countAddr]
  | (_, .gadget g) => g.absolutes.filter out.isGlobal
  | (_, .label _) | (_, .jmp _) => []

end Emission

def Line.setsCr0 : Line → Option Word
  | .gadget g => g.setsCr0
  | _ => none

/-- Whether the given value of CR0 has been loaded, and not been replaced since. -/
def loadedAfter (value : Word) (loaded : Bool) (x : Phase × Line) : Bool :=
  match x.2.setsCr0 with
  | some other => other = value
  | none => loaded

/-- Walking through the lines in the emitted order, addresses are in the extended range
exactly where the value of CR0 is not loaded.
-/
def Respects (value : Word) (occurrences : Phase × Line → List Nat)
    : Bool → List (Phase × Line) → Prop
  | _, [] => True
  | loaded, x :: rest =>
    (∀ a ∈ occurrences x, Extended a ↔ loaded = false)
    ∧ Respects value occurrences (loadedAfter value loaded x) rest

section

variable {value : Word} {occurrences : Phase × Line → List Nat}

theorem respects_append {loaded : Bool} {left right : List (Phase × Line)}
    : Respects value occurrences loaded (left ++ right)
      ↔ Respects value occurrences loaded left
        ∧ Respects value occurrences (left.foldl (loadedAfter value) loaded) right := by
  induction left generalizing loaded with
  | nil => simp [Respects]
  | cons x rest ih => simp [Respects, ih, and_assoc]

/-- Lines of which one writes CR0, and all that do write the value, or all another one. -/
theorem foldl_loadedAfter {loaded after : Bool} {lines : List (Phase × Line)}
    (writes : ∃ x ∈ lines, x.2.setsCr0 ≠ none)
    (all : ∀ x ∈ lines, ∀ other, x.2.setsCr0 = some other → decide (other = value) = after)
    : lines.foldl (loadedAfter value) loaded = after := by
  -- once a line has written CR0, the state is that of the last such line
  have keeps (lines : List (Phase × Line))
      (all : ∀ x ∈ lines, ∀ other, x.2.setsCr0 = some other → decide (other = value) = after)
      : lines.foldl (loadedAfter value) after = after := by
    induction lines with
    | nil => rfl
    | cons x rest ih =>
      have stays : loadedAfter value after x = after := by
        cases sets : x.2.setsCr0 with
        | none => simp [loadedAfter, sets]
        | some other =>
          have same := all x mem_cons_self other sets
          simp [loadedAfter, sets, same]
      rw [foldl_cons, stays]
      exact ih (fun y mem => all y (mem_cons_of_mem x mem))
  induction lines generalizing loaded with
  | nil =>
    obtain ⟨x, mem, _⟩ := writes
    cases mem
  | cons x rest ih =>
    rw [foldl_cons]
    have later : ∀ y ∈ rest, ∀ other, y.2.setsCr0 = some other → decide (other = value) = after :=
      fun y mem => all y (mem_cons_of_mem x mem)
    cases sets : x.2.setsCr0 with
    | some other =>
      have first : loadedAfter value loaded x = after := by
        have same := all x mem_cons_self other sets
        simp [loadedAfter, sets, same]
      rw [first]
      exact keeps rest later
    | none =>
      obtain ⟨y, mem, some⟩ := writes
      rcases mem_cons.mp mem with rfl | inside
      · exact (some sets).elim
      · exact ih ⟨y, inside, some⟩ later

theorem respects_of_quiet {loaded : Bool} {lines : List (Phase × Line)}
    (quiet : ∀ x ∈ lines, occurrences x = [])
    : Respects value occurrences loaded lines := by
  induction lines generalizing loaded with
  | nil => trivial
  | cons x rest ih =>
    refine ⟨?_, ih (fun y mem => quiet y (mem_cons_of_mem x mem))⟩
    rw [quiet x mem_cons_self]
    exact forall_mem_nil _

/-- Lines after the load, with flipped addresses only. -/
theorem respects_of_flipped {lines : List (Phase × Line)}
    (none : ∀ x ∈ lines, x.2.setsCr0 = none)
    (flipped : ∀ x ∈ lines, ∀ a ∈ occurrences x, ¬ Extended a)
    : Respects value occurrences true lines := by
  induction lines with
  | nil => trivial
  | cons x rest ih =>
    have stays : loadedAfter value true x = true := by
      simp [loadedAfter, none x mem_cons_self]
    refine ⟨fun a mem => ?_, ?_⟩
    · simp [flipped x mem_cons_self a mem]
    · rw [stays]
      exact ih (fun y mem => none y (mem_cons_of_mem x mem))
        (fun y mem => flipped y (mem_cons_of_mem x mem))

end

end FastPokeEmu.Floppy
