import FastPokeEmu.Floppy.Copies
import FastPokeEmu.Library.Runs

/-! The phases of a test case, and how control moves through them.
The exception handler returns to the label stored at `retp`, so every phase starts by storing
the label of the phase that is to follow if one of its gadgets faults. In the looping mode
the phases from `pre` on are run several times.
-/

namespace FastPokeEmu.Floppy

inductive Phase
  | startup | pre | code | revert_ | post | revert | loop
  deriving DecidableEq, Repr

def Phase.index : Phase → Nat
  | .startup => 0
  | .pre => 1
  | .code => 2
  | .revert_ => 3
  | .post => 4
  | .revert => 5
  | .loop => 6

/-- Return points and the start of the loop. Their numbers are random, and a program in which
two of them are equal does not assemble.
-/
inductive Label
  | ls | l1 | l2 | l3 | l4 | l5
  deriving DecidableEq, Repr

/-- Gadgets, with those that direct the control flow set apart. -/
inductive Line
  /-- Initialize the loop counter and the return point. -/
  | prologue (count : Word) (mid : Label)
  | label (l : Label)
  | setRetp (l : Label)
  | jmp (l : Label)
  /-- Decrement the loop counter, and jump unless it is zero. -/
  | decJnz (l : Label)
  | gadget (g : Gadget)
  deriving DecidableEq, Repr

/-- What `gen_floppy_with_testcase` has collected for a test case of mode 3 before it sorts
the gadgets. Parameters and their undoing have been stabilized.
-/
structure Collected where
  isFirst : Bool
  loop : Word
  /-- The word that holds the return point, and the number of the label of the post phase. -/
  retpOp : MemOp
  l2 : Nat
  root : Root
  code : List Gadget
  param : List Gadget
  param0 : List Gadget
  revert : List Gadget
  revert0 : List Gadget
  revert_ : List Gadget

/-- The tuple that is passed to `compile_gadgets`. -/
structure Phases where
  startup : List Line
  pre : List Line
  code : List Line
  revert_ : List Line
  post : List Line
  revert : List Line
  loop : List Line
  deriving DecidableEq, Repr

namespace Collected

variable (c : Collected) (orders : Nat → HashOrder)

def returnToPost : Gadget := .make [.ins (.movlLabel c.l2 c.retpOp)] "return to post" [] [] [] []

/-- The return point is updated by a gadget that is sorted with the others. -/
def line (g : Gadget) : Line := if g = c.returnToPost then .setRetp .l2 else .gadget g

/-- The first test case fills the R blocks, from a state that is set up and undone. -/
def startup : Option (List Line) :=
  if c.isFirst then do
    let setR ← sortGadget (orders 0) (c.param0 ++ c.root.setR)
    let revert0 ← sortGadget (orders 1) c.revert0
    some (.prologue c.loop .l3 :: (setR ++ revert0).map .gadget)
  else
    some [.prologue c.loop .l3]

def setinput : Option (List Gadget) :=
  if c.root.setinput = [] then some []
  else sortGadget (orders 2) (c.returnToPost :: c.root.setinput)

def pre : Option (List Line) := do
  let setinput ← c.setinput orders
  let pre ← sortGadget (orders 3)
    (c.param ++ c.root.backup ++ (mergeCopyR c.root.backupR).toList ++ setinput)
  some (.label .ls :: pre.map c.line)

/-- The phases with their labels and updates of the return point. -/
def phases : Option Phases := do
  let startup ← c.startup orders
  let pre ← c.pre orders
  let post ← sortGadget (orders 4) (c.root.output ++ c.root.restore)
  let revert ← sortGadget (orders 5) c.revert
  let revert_ ← sortGadget (orders 6) c.revert_
  some
    { startup := startup
      pre := pre
      code := .setRetp .l1 :: (c.code.map .gadget ++ [.jmp .l2])
      revert_ := .label .l1 :: .setRetp .l2 :: revert_.map .gadget
      post := .label .l2 :: .setRetp .l3 :: (post ++ c.root.update).map .gadget
      revert := .label .l3 :: .setRetp .l4 :: revert.map .gadget
      loop := [.label .l4, .setRetp .l5, .decJnz .ls, .label .l5] }

end Collected

namespace Phases

variable (ps : Phases)

def lines : Phase → List Line
  | .startup => ps.startup
  | .pre => ps.pre
  | .code => ps.code
  | .revert_ => ps.revert_
  | .post => ps.post
  | .revert => ps.revert
  | .loop => ps.loop

def tagged (p : Phase) : List (Phase × Line) := (ps.lines p).map (Prod.mk p)

/-- `compile_gadgets` writes the phases one after the other. The jumps to the next gadget
that it puts between them have no effect.
-/
def program : List (Phase × Line) :=
  [Phase.startup, .pre, .code, .revert_, .post, .revert, .loop].flatMap ps.tagged

end Phases

/-- Where control is, and what decides where it goes. -/
structure Control where
  rest : List (Phase × Line)
  retp : Label
  count : Word
  /-- How often control has jumped back. -/
  turn : Nat
  deriving DecidableEq, Repr

namespace Control

def goto (program : List (Phase × Line)) (l : Label) : List (Phase × Line) :=
  program.dropWhile (fun x => x.2 ≠ .label l)

/-- The next gadget is executed, or faults if it is not one that directs the control flow. -/
def step (program : List (Phase × Line)) (fault : Bool) (s : Control) : Control :=
  match s.rest with
  | [] => s
  | (_, .prologue count mid) :: rest => { s with rest := rest, retp := mid, count := count }
  | (_, .label _) :: rest => { s with rest := rest }
  | (_, .setRetp l) :: rest => { s with rest := rest, retp := l }
  | (_, .jmp l) :: _ => { s with rest := goto program l }
  | (_, .decJnz l) :: rest =>
    if s.count - 1 = 0 then { s with rest := rest, count := s.count - 1 }
    else { s with rest := goto program l, count := s.count - 1, turn := s.turn + 1 }
  | (_, .gadget _) :: rest =>
    if fault then { s with rest := goto program s.retp } else { s with rest := rest }

/-- The phase in which control is, until the end of the test case. -/
def phase (s : Control) : Option Phase := s.rest.head?.map Prod.fst

end Control

/-- A run of the program of a test case: the counter and the return point are arbitrary at
first, and any gadget may fault at any time.
-/
structure FaultRun where
  retp : Label
  count : Word
  faults : Nat → Bool

namespace FaultRun

variable (run : FaultRun) (program : List (Phase × Line))

def state (n : Nat) : Control :=
  Runs.after (Control.step program) ⟨program, run.retp, run.count, 0⟩ run.faults n

def EntersCode (n : Nat) : Prop :=
  (run.state program n).phase ≠ some .code ∧ (run.state program (n + 1)).phase = some .code

instance : DecidablePred (run.EntersCode program) :=
  fun _ => inferInstanceAs (Decidable (_ ∧ _))

/-- A gadget faults in step `n`. -/
def FaultsIn (p : Phase) (n : Nat) : Prop :=
  run.faults n = true ∧ ∃ g, (run.state program n).rest.head? = some (p, .gadget g)

/-- What is expected of the return points. -/
structure Returns (loop : Word) : Prop where
  /-- A fault moves control to a later phase of the same iteration. -/
  later
    : ∀ n p,
        run.FaultsIn program p n
        → ∃ q,
            (run.state program (n + 1)).phase = some q
            ∧ p.index < q.index
            ∧ (run.state program (n + 1)).turn = (run.state program n).turn
  /-- Without faults, too, control only moves back to the start of the loop. -/
  forward
    : ∀ n p q,
        (run.state program n).phase = some p
        → (run.state program (n + 1)).phase = some q
        → q.index < p.index
        → p = .loop
          ∧ q = .pre
          ∧ (run.state program (n + 1)).turn = (run.state program n).turn + 1
  entered : ∀ n, ((Finset.range n).filter (run.EntersCode program)).card ≤ loop.toNat
  ends : ∃ n, (run.state program n).rest = [(.loop, .label .l5)]
  /-- The parameters of an iteration are undone. -/
  reverted
    : ∀ n m,
        n < m
        → (run.state program n).phase = some .pre
        → (run.state program m).phase = some .loop
        → (run.state program n).turn = (run.state program m).turn
        → ∃ k, n < k ∧ k < m ∧ (run.state program k).phase = some .revert

end FaultRun

end FastPokeEmu.Floppy
