import Mathlib.Data.List.Infix
import Mathlib.Logic.Function.Basic

/-! The decision tree in which FuzzBALL remembers the branches it has explored
(`binary_decision_tree.ml`), and the loop of `exec_fuzzloop.ml` that executes a program until
the tree has no branch left. Nodes are found by their paths, and queries have no limit. Operations
have no result where an assertion of the source fails. -/

namespace FastPokeEmu.FuzzBall

open List Function

/-- What a `decision_tree_node` says about its branches: `child false` and `child true` are
`f_child` and `t_child`, with `none` for an unexplored branch and `some false` for an
unsatisfiable one. -/
structure Node where
  child : Bool → Option Bool
  allSeen : Bool
  eipLoc : BitVec 64

/-- A node that `new_dt_node` creates. -/
def Node.new : Node := ⟨fun _ => none, false, 0⟩

def Node.putEipLoc (n : Node) (loc : BitVec 64) : Node := { n with eipLoc := loc }

/-- The choices that lead to a node, the last choice first. -/
abbrev Path := List Bool

abbrev Table := Path → Option Node

namespace Table

variable (t : Table)

/-- `get_f_child` and `get_t_child` of a node. There is no result if a node is missing. -/
def kid (p : Path) (b : Bool) : Option (Option (Option Node)) := do
  match (← t p).child b with
  | none => some none
  | some false => some (some none)
  | some true => (t (b :: p)).map (some ∘ some)

def putChild (p : Path) (b sat : Bool) : Option Table :=
  (t p).map fun n => update t p (some { n with child := update n.child b (some sat) })

def addKid (p : Path) (b : Bool) : Option Table := do
  let n ← t p
  if n.allSeen then none
  else match n.child b with
    | some true => some t
    | some false => none
    | none => Table.putChild (update t (b :: p) (some .new)) p b true

def recordUnsat (p : Path) (b : Bool) : Option Table := do
  match (← t p).child b with
  | none => t.putChild p b false
  | some false => some t
  | some true => none

/-- `kid.all_seen`, or that there is no kid. -/
def seen : Option (Option Node) → Bool
  | none => false
  | some none => true
  | some (some kid) => kid.allSeen

/-- Sets `all_seen`. All kids of the node must have it already. -/
def mark (p : Path) : Option Table := do
  let f ← t.kid p false
  let k ← t.kid p true
  if (f.isSome && !seen f) || (k.isSome && !seen k) then none
  else (t p).map fun n => update t p (some { n with allSeen := true })

/-- Marks a node and those above it that have nothing left. -/
def markAllSeenNode (t : Table) : Path → Option Table
  | [] => t.mark []
  | b :: p => do
      let t ← t.mark (b :: p)
      let f ← t.kid p false
      let k ← t.kid p true
      if !(← t p).allSeen && seen f && seen k && (f.join.isSome || k.join.isSome)
      then markAllSeenNode t p else some t

/-- `extend`, with the path of the new current node -/
def extend (p : Path) (b : Bool) : Option (Path × Table) := do
  let t ← t.addKid p b
  match (← t p).child b with
  | some true => some (b :: p, t)
  | _ => none

/-- How `try_extend` chooses a branch at the node for `p`. `sat` stands for the answers of the
solver, `choice` for the random bit. -/
def branch (p : Path) (sat : Bool → Bool) (choice : Bool) : Option (Path × Table) := do
  let settle (b : Bool) := if sat b then t.addKid p b else t.recordUnsat p b
  let knownCheck (b : Bool) (t : Table) := if sat b then t.extend p b else none
  let tryOrBoring (b : Bool) :=
    if sat b then t.extend p b else do (← (← t.recordUnsat p b).markAllSeenNode p).extend p (!b)
  let tryBoth :=
    if sat choice then do (← settle (!choice)).extend p choice
    else do knownCheck (!choice) (← t.recordUnsat p choice)
  match ← t.kid p false, ← t.kid p true with
  | some (some f), some (some k) =>
    if f.allSeen && k.allSeen then none
    else t.extend p (if f.allSeen then true else if k.allSeen then false else choice)
  | some (some f), some none => if f.allSeen then none else t.extend p false
  | some none, some (some k) => if k.allSeen then none else t.extend p true
  | some none, some none => none
  | some (some f), none => if f.allSeen then tryOrBoring true else tryBoth
  | none, some (some k) => if k.allSeen then tryOrBoring false else tryBoth
  | none, some none => knownCheck false t
  | some none, none => knownCheck true t
  | none, none => tryBoth

def tryExtend (p : Path) (sat : Bool → Bool) (choice : Bool) (eipLoc : BitVec 64)
    : Option (Path × Table) := do
  let n ← t p
  if n.allSeen || (n.eipLoc != 0 && n.eipLoc != eipLoc) then none
  else Table.branch (update t p (some (n.putEipLoc eipLoc))) p sat choice

/-- The tree with its root. -/
def init : Table := update (fun _ => none) [] (some .new)

end Table

/-- The location of a decision and its condition on the input. -/
abbrev Decision (Input : Type) := BitVec 64 × (Input → Bool)

/-- With this input an execution makes these choices. -/
def Follows {Input : Type} (next : Path → Option (Decision Input)) (x : Input)
    : Path → Prop
  | [] => True
  | b :: p => Follows next x p ∧ ∃ d, next p = some d ∧ d.2 x = b

/-- A program, by the decision it comes to after some choices, if it does not end there. `sat` are
the answers of the solver. Executions make less than `depth` choices. -/
structure Program (Input : Type) where
  next : Path → Option (Decision Input)
  sat : Path → Bool
  depth : Nat
  start : sat []
  sat_iff : ∀ p, sat p ↔ ∃ x, Follows next x p
  short : ∀ p, sat p → p.length < depth

namespace Program

variable {Input : Type} (prog : Program Input)

/-- One execution from a node on, up to `finish_path`, with its choices. -/
def run (choice : Path → Bool) : Nat → Path → Table → Option (Path × Table)
  | 0, _, _ => none
  | n + 1, p, t =>
    match prog.next p with
    | none => (t.markAllSeenNode p).map (p, ·)
    | some (eipLoc, _) => do
        let (p, t) ← t.tryExtend p (fun b => prog.sat (b :: p)) (choice p) eipLoc
        run choice n p t

/-- The loop of `fuzz`, until `try_again_p` is false. -/
def fuzz (choice : Nat → Path → Bool) : Nat → Table → Option (List Path)
  | 0, _ => none
  | n + 1, t => do
      let (p, t) ← prog.run (choice n) prog.depth [] t
      if (← t []).allSeen then some [p] else (fuzz choice n t).map (p :: ·)

/-- The choices of a whole execution. -/
def Complete (p : Path) : Prop := prog.sat p ∧ prog.next p = none

end Program

section

variable {Input : Type} {prog : Program Input} {p q : Path} {x : Input} {b : Bool}

theorem exists_cons_suffix (below : p <:+ q) (other : p ≠ q) : ∃ b, b :: p <:+ q := by
  obtain ⟨l, rfl⟩ := below
  rcases l.eq_nil_or_concat with rfl | ⟨l, b, rfl⟩
  · exact absurd rfl other
  · exact ⟨b, l, by simp⟩

theorem Follows.of_suffix {next : Path → Option (Decision Input)}
    (follows : Follows next x q) (below : p <:+ q)
    : Follows next x p := by
  obtain ⟨l, rfl⟩ := below
  induction l with
  | nil => exact follows
  | cons b l ih => exact ih follows.1

namespace Program

theorem sat_of_suffix (below : p <:+ q) (sat : prog.sat q) : prog.sat p := by
  obtain ⟨x, follows⟩ := (prog.sat_iff q).mp sat
  exact (prog.sat_iff p).mpr ⟨x, follows.of_suffix below⟩

theorem decided (sat : prog.sat (b :: p)) : ∃ d, prog.next p = some d := by
  obtain ⟨x, -, d, next, -⟩ := (prog.sat_iff _).mp sat
  exact ⟨d, next⟩

theorem goesOn {d : Decision Input} (sat : prog.sat p) (next : prog.next p = some d)
    : ∃ b, prog.sat (b :: p) := by
  obtain ⟨x, follows⟩ := (prog.sat_iff p).mp sat
  exact ⟨d.2 x, (prog.sat_iff _).mpr ⟨x, follows, d, next, rfl⟩⟩

/-- Complete executions make no further choices. -/
theorem Complete.eq_of_suffix (complete : prog.Complete p) (below : p <:+ q) (sat : prog.sat q)
    : p = q := by
  by_contra other
  obtain ⟨b, further⟩ := exists_cons_suffix below other
  obtain ⟨d, next⟩ := decided (sat_of_suffix further sat)
  exact absurd (complete.2.symm.trans next) nofun

theorem exists_complete (n : Nat) (bound : prog.depth ≤ p.length + n)
    (follows : Follows prog.next x p)
    : ∃ q, prog.Complete q ∧ p <:+ q ∧ Follows prog.next x q := by
  have sat := (prog.sat_iff p).mpr ⟨x, follows⟩
  induction n generalizing p with
  | zero => exact absurd (prog.short p sat) (by omega)
  | succ n ih =>
    cases next : prog.next p with
    | none => exact ⟨p, ⟨sat, next⟩, suffix_rfl, follows⟩
    | some d =>
      have further : Follows prog.next x (d.2 x :: p) := ⟨follows, d, next, rfl⟩
      obtain ⟨q, complete, below, follows'⟩ := ih (by rw [length_cons]; omega) further
        ((prog.sat_iff _).mpr ⟨x, further⟩)
      exact ⟨q, complete, (suffix_cons _ p).trans below, follows'⟩

/-- The choices made with an input are determined as far as they go. -/
theorem suffix_or_suffix (follows : Follows prog.next x p) (follows' : Follows prog.next x q)
    : p <:+ q ∨ q <:+ p := by
  induction p generalizing q with
  | nil => exact .inl nil_suffix
  | cons b p ih =>
    obtain ⟨follows, d, next, rfl⟩ := follows
    rcases ih follows follows' with below | below
    · by_cases same : p = q
      · exact .inr (same ▸ suffix_cons _ p)
      · obtain ⟨c, further⟩ := exists_cons_suffix below same
        obtain ⟨-, d', next', rfl⟩ := follows'.of_suffix further
        obtain rfl := Option.some.inj (next.symm.trans next')
        exact .inl further
    · exact .inr (below.trans (suffix_cons _ p))

variable (prog) in
/-- All executions with these choices are among those done. -/
def Explored (done : List Path) (p : Path) : Prop :=
  ∀ q, prog.Complete q → p <:+ q → q ∈ done

variable {done : List Path}

theorem Explored.cons (all : prog.Explored done p) (b : Bool) : prog.Explored done (b :: p) :=
  fun q complete below => all q complete ((suffix_cons b p).trans below)

/-- Nothing is left at a decision if nothing is left of its branches. -/
theorem explored_iff {d : Decision Input} (next : prog.next p = some d)
    : prog.Explored done p ↔ ∀ b, prog.sat (b :: p) → prog.Explored done (b :: p) := by
  refine ⟨fun all b _ => all.cons b, fun all q complete below => ?_⟩
  have other : p ≠ q := by
    rintro rfl
    exact absurd (next.symm.trans complete.2) nofun
  obtain ⟨b, further⟩ := exists_cons_suffix below other
  exact all b (sat_of_suffix further complete.1) q complete further

end Program

end

end FastPokeEmu.FuzzBall
