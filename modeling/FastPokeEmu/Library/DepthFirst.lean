import Mathlib.Data.List.Basic
import Mathlib.Data.List.Nodup
import Mathlib.Logic.Relation

/-! Topological sorting by an iterative depth-first search.
The search keeps a stack of nodes to look at, marks a node as seen when it comes to the
top, and puts it in front of the result once all its successors are there.
-/

namespace DepthFirst

open List

variable {ν : Type} [DecidableEq ν]

/-- Search state; the top of the stack is the head of `fringe`, and a node counts as
explored once it is in `order`.
-/
structure State (ν : Type) where
  fringe : List ν
  seen : List ν
  order : List ν
  deriving DecidableEq, Repr

/-- Successors that are not explored yet. -/
def newNodes (succ : ν → List ν) (order : List ν) (w : ν) : List ν :=
  (succ w).filter (fun n => n ∉ order)

/-- One turn of the loop on a stack with top `w`. `none` is a cycle. -/
def step (succ : ν → List ν) (w : ν) (rest seen order : List ν) : Option (State ν) :=
  if w ∈ order then some ⟨rest, seen, order⟩
  else
    let fresh := newNodes succ order w
    if fresh.any (· ∈ w :: seen) then none
    else if fresh.isEmpty then some ⟨rest, w :: seen, w :: order⟩
    else some ⟨fresh.reverse ++ w :: rest, w :: seen, order⟩

/-- Run the loop until the stack is empty. -/
def explore (succ : ν → List ν) : Nat → State ν → Option (State ν)
  | _, ⟨[], seen, order⟩ => some ⟨[], seen, order⟩
  | 0, ⟨_ :: _, _, _⟩ => none
  | fuel + 1, ⟨w :: rest, seen, order⟩ => do
      let next ← step succ w rest seen order
      explore succ fuel next

/-- Search from one node. -/
def visit (succ : ν → List ν) (fuel : Nat) (state : State ν) (v : ν)
    : Option (State ν) :=
  if v ∈ state.order then some state
  else explore succ fuel ⟨[v], state.seen, state.order⟩

/-- Search from all nodes in turn; the result lists them in reverse order of exploration. -/
def topologicalSort (succ : ν → List ν) (fuel : Nat) (nodes : List ν)
    : Option (List ν) :=
  (nodes.foldlM (visit succ fuel) ⟨[], [], []⟩).map State.order

/-- What a turn can do, as one case analysis: drop an explored node, finish a node whose
successors are all explored, or push the successors that are not.
-/
inductive Turn (succ : ν → List ν) (w : ν) (rest seen order : List ν) : State ν → Prop
  | drop (explored : w ∈ order) : Turn succ w rest seen order ⟨rest, seen, order⟩
  | finish (unexplored : w ∉ order) (closed : ∀ n ∈ succ w, n ∈ order)
    : Turn succ w rest seen order ⟨rest, w :: seen, w :: order⟩
  | push (unexplored : w ∉ order) (fresh : newNodes succ order w ≠ [])
    : Turn succ w rest seen order ⟨(newNodes succ order w).reverse ++ w :: rest, w :: seen, order⟩

theorem mem_newNodes {succ : ν → List ν} {order : List ν} {w n : ν}
    : n ∈ newNodes succ order w ↔ n ∈ succ w ∧ n ∉ order := by
  simp [newNodes]

theorem turn_of_step {succ : ν → List ν} {w : ν} {rest seen order : List ν}
    {next : State ν} (taken : step succ w rest seen order = some next)
    : Turn succ w rest seen order next := by
  unfold step at taken
  by_cases explored : w ∈ order
  · rw [if_pos explored, Option.some.injEq] at taken
    exact taken ▸ .drop explored
  · rw [if_neg explored] at taken
    by_cases cycle : (newNodes succ order w).any (· ∈ w :: seen)
    · rw [if_pos cycle] at taken
      cases taken
    · rw [if_neg cycle] at taken
      by_cases empty : (newNodes succ order w).isEmpty
      · rw [if_pos empty, Option.some.injEq] at taken
        refine taken ▸ .finish explored ?_
        intro n mem
        by_contra fresh
        have listed := mem_newNodes.mpr ⟨mem, fresh⟩
        rw [isEmpty_iff.mp empty] at listed
        cases listed
      · rw [if_neg empty, Option.some.injEq] at taken
        exact taken ▸ .push explored (fun none => empty (isEmpty_iff.mpr none))

/-- A property of the search state that every turn keeps holds when the loop ends.
Witness: induction on the fuel.
-/
theorem explore_induction {succ : ν → List ν} {P : State ν → Prop}
    (turn : ∀ w rest seen order next,
      P ⟨w :: rest, seen, order⟩ → Turn succ w rest seen order next → P next)
    {fuel : Nat} {start final : State ν} (runs : explore succ fuel start = some final)
    (holds : P start)
    : P final ∧ final.fringe = [] := by
  induction fuel generalizing start with
  | zero =>
    obtain ⟨fringe, seen, order⟩ := start
    cases fringe with
    | nil => cases runs; exact ⟨holds, rfl⟩
    | cons w rest => cases runs
  | succ fuel ih =>
    obtain ⟨fringe, seen, order⟩ := start
    cases fringe with
    | nil => cases runs; exact ⟨holds, rfl⟩
    | cons w rest =>
      obtain ⟨next, taken, later⟩ := Option.bind_eq_some_iff.mp runs
      exact ih later (turn w rest seen order next holds (turn_of_step taken))

/-- The result is ordered: no node is a successor of a later one, and it is closed under
successors.
-/
structure Ordered (succ : ν → List ν) (order : List ν) : Prop where
  nodup : order.Nodup
  closed : ∀ w ∈ order, ∀ n ∈ succ w, n ∈ order
  edges : order.Pairwise (fun a b => a ∉ succ b)

omit [DecidableEq ν] in
theorem Ordered.nil (succ : ν → List ν) : Ordered succ [] := ⟨.nil, by simp, .nil⟩

omit [DecidableEq ν] in
theorem Ordered.cons {succ : ν → List ν} {order : List ν} (ordered : Ordered succ order)
    {w : ν} (fresh : w ∉ order) (successors : ∀ n ∈ succ w, n ∈ order)
    : Ordered succ (w :: order) := by
  refine ⟨nodup_cons.mpr ⟨fresh, ordered.nodup⟩, ?_, ?_⟩
  · intro v mem n edge
    rcases mem_cons.mp mem with rfl | mem
    · exact mem_cons_of_mem _ (successors n edge)
    · exact mem_cons_of_mem _ (ordered.closed v mem n edge)
  · refine pairwise_cons.mpr ⟨?_, ordered.edges⟩
    intro b mem edge
    exact fresh (ordered.closed b mem w edge)

/-- What a search from one root does to an ordered result. -/
structure Extends (succ : ν → List ν) (allowed : ν → Prop) (before after : List ν)
    : Prop where
  ordered : Ordered succ after
  prolongs : ∃ added, after = added ++ before ∧ ∀ n ∈ added, allowed n

/-- Searching from a root keeps the result ordered and explores the root; it only adds
nodes from a set that contains the root and is closed under successors.
Witness: nodes leave the stack only once they are explored.
-/
theorem visit_spec {succ : ν → List ν} {fuel : Nat} {state next : State ν} {v : ν}
    (visited : visit succ fuel state v = some next) (ordered : Ordered succ state.order)
    (allowed : ν → Prop) (root : allowed v)
    (closed : ∀ w, allowed w → ∀ n ∈ succ w, allowed n)
    : Extends succ allowed state.order next.order ∧ v ∈ next.order := by
  unfold visit at visited
  by_cases explored : v ∈ state.order
  · rw [if_pos explored, Option.some.injEq] at visited
    subst visited
    exact ⟨⟨ordered, [], rfl, by simp⟩, explored⟩
  · rw [if_neg explored] at visited
    let P : State ν → Prop := fun s =>
      Extends succ allowed state.order s.order
      ∧ (∀ n ∈ s.fringe, allowed n)
      ∧ (v ∈ s.fringe ∨ v ∈ s.order)
    have res : P next ∧ next.fringe = [] := by
      refine explore_induction ?_ visited ⟨⟨ordered, [], rfl, by simp⟩, by simpa, by simp⟩
      rintro w rest seen order next ⟨extended, inside, found⟩ taken
      have restInside : ∀ n ∈ rest, allowed n := fun n mem =>
        inside n (mem_cons_of_mem _ mem)
      cases taken with
      | drop explored =>
        refine ⟨extended, restInside, ?_⟩
        rcases found with onStack | inOrder
        · rcases mem_cons.mp onStack with rfl | later
          · exact Or.inr explored
          · exact Or.inl later
        · exact Or.inr inOrder
      | finish unexplored successors =>
        obtain ⟨added, same, addedInside⟩ := extended.prolongs
        refine ⟨⟨extended.ordered.cons unexplored successors, w :: added, ?_, ?_⟩, restInside, ?_⟩
        · simpa using same
        · intro n mem
          rcases mem_cons.mp mem with rfl | mem
          · exact inside n (by simp)
          · exact addedInside n mem
        · rcases found with onStack | inOrder
          · rcases mem_cons.mp onStack with rfl | later
            · exact Or.inr (by simp)
            · exact Or.inl later
          · exact Or.inr (mem_cons_of_mem _ inOrder)
      | push unexplored fresh =>
        refine ⟨extended, ?_, ?_⟩
        · intro n mem
          rcases mem_append.mp mem with pushed | below
          · exact closed w (inside w (by simp)) n (mem_newNodes.mp (mem_reverse.mp pushed)).1
          · exact inside n below
        · rcases found with onStack | inOrder
          · exact Or.inl (mem_append_right _ onStack)
          · exact Or.inr inOrder
    obtain ⟨⟨extended, _, found⟩, empty⟩ := res
    refine ⟨extended, ?_⟩
    simpa [empty] using found

/-- Searching from several roots in turn. -/
theorem visits_spec {succ : ν → List ν} {fuel : Nat} {roots : List ν}
    {state next : State ν} (visited : roots.foldlM (visit succ fuel) state = some next)
    (ordered : Ordered succ state.order) (allowed : ν → Prop)
    (inside : ∀ v ∈ roots, allowed v)
    (closed : ∀ w, allowed w → ∀ n ∈ succ w, allowed n)
    : Extends succ allowed state.order next.order ∧ ∀ v ∈ roots, v ∈ next.order := by
  induction roots generalizing state with
  | nil =>
    cases visited
    exact ⟨⟨ordered, [], rfl, by simp⟩, by simp⟩
  | cons v rest ih =>
    rw [foldlM_cons] at visited
    obtain ⟨middle, first, later⟩ := Option.bind_eq_some_iff.mp visited
    obtain ⟨⟨middleOrdered, added, same, addedInside⟩, found⟩ :=
      visit_spec first ordered allowed (inside v (by simp)) closed
    obtain ⟨⟨nextOrdered, more, sameNext, moreInside⟩, all⟩ :=
      ih later middleOrdered (fun n mem => inside n (by simp [mem]))
    refine ⟨⟨nextOrdered, more ++ added, by simp [sameNext, same], ?_⟩, ?_⟩
    · intro n mem
      rcases mem_append.mp mem with mem | mem
      · exact moreInside n mem
      · exact addedInside n mem
    · intro n mem
      rcases mem_cons.mp mem with rfl | mem
      · rw [sameNext]
        exact mem_append_right _ found
      · exact all n mem

/-- No node is reachable from itself. -/
def Acyclic (succ : ν → List ν) : Prop := ∀ v, ¬ Relation.TransGen (fun a b => b ∈ succ a) v v

/-- Seen but unexplored nodes are ancestors of everything above them on the stack, where
their unexplored successors wait.
-/
def Open (succ : ν → List ν) (state : State ν) : Prop :=
  ∀ a ∈ state.seen, a ∉ state.order
    → ∃ above below, state.fringe = above ++ a :: below
        ∧ (∀ x ∈ above, Relation.TransGen (fun a b => b ∈ succ a) a x)
        ∧ ∀ n ∈ succ a, n ∉ state.order → n ∈ above

section

variable {succ : ν → List ν} {w : ν} {rest seen order nodes : List ν}

omit [DecidableEq ν] in
/-- Where an open node is: on top, with all successors explored, or further down, with the
top reachable from it.
-/
theorem Open.cases {a : ν} (opened : Open succ ⟨w :: rest, seen, order⟩) (inSeen : a ∈ seen)
    (unexplored : a ∉ order)
    : (a = w ∧ ∀ n ∈ succ w, n ∈ order)
      ∨ ∃ above below, rest = above ++ a :: below
          ∧ (∀ x ∈ w :: above, Relation.TransGen (fun a b => b ∈ succ a) a x)
          ∧ ∀ n ∈ succ a, n ∉ order → n ∈ w :: above := by
  obtain ⟨above, below, split, reached, waiting⟩ := opened a inSeen unexplored
  cases above with
  | nil =>
    obtain ⟨rfl, _⟩ := List.cons.inj split
    refine Or.inl ⟨rfl, fun n edge => ?_⟩
    by_contra fresh
    exact not_mem_nil (waiting n edge fresh)
  | cons x above =>
    obtain ⟨rfl, below_split⟩ := List.cons.inj split
    exact Or.inr ⟨above, below, below_split, reached, waiting⟩

/-- On an acyclic graph a turn never finds a cycle. -/
theorem step_isSome (acyclic : Acyclic succ) (opened : Open succ ⟨w :: rest, seen, order⟩)
    : ∃ next, step succ w rest seen order = some next := by
  simp only [step]
  split
  · exact ⟨_, rfl⟩
  · have noCycle : (newNodes succ order w).any (· ∈ w :: seen) = false := by
      refine any_eq_false.mpr fun n fresh cycle => ?_
      obtain ⟨edge, new⟩ := mem_newNodes.mp fresh
      rcases mem_cons.mp (of_decide_eq_true cycle) with rfl | inSeen
      · exact acyclic n (.single edge)
      · rcases opened.cases inSeen new with ⟨rfl, _⟩ | ⟨above, below, _, reached, _⟩
        · exact acyclic n (.single edge)
        · exact acyclic n ((reached w mem_cons_self).tail edge)
    rw [noCycle, if_neg Bool.false_ne_true]
    split <;> exact ⟨_, rfl⟩

theorem Open.turn {next : State ν} (opened : Open succ ⟨w :: rest, seen, order⟩)
    (taken : Turn succ w rest seen order next)
    : Open succ next := by
  intro a inSeen unexplored
  cases taken with
  | drop explored =>
    rcases opened.cases inSeen unexplored with ⟨rfl, _⟩ | ⟨above, below, split, reached, waiting⟩
    · exact (unexplored explored).elim
    · refine ⟨above, below, split, fun x mem => reached x (mem_cons_of_mem _ mem), ?_⟩
      intro n edge fresh
      rcases mem_cons.mp (waiting n edge fresh) with rfl | mem
      · exact (fresh explored).elim
      · exact mem
  | finish new successors =>
    have other : a ≠ w := fun same => unexplored (same ▸ mem_cons_self)
    have inSeen : a ∈ seen := (mem_cons.mp inSeen).resolve_left other
    have unexplored : a ∉ order := fun mem => unexplored (mem_cons_of_mem _ mem)
    rcases opened.cases inSeen unexplored with ⟨rfl, _⟩ | ⟨above, below, split, reached, waiting⟩
    · exact (other rfl).elim
    · refine ⟨above, below, split, fun x mem => reached x (mem_cons_of_mem _ mem), ?_⟩
      intro n edge fresh
      rcases mem_cons.mp (waiting n edge (fun mem => fresh (mem_cons_of_mem _ mem)))
        with rfl | mem
      · exact (fresh mem_cons_self).elim
      · exact mem
  | push new fresh =>
    rcases mem_cons.mp inSeen with rfl | inSeen
    · refine ⟨_, rest, rfl, fun x mem => ?_, fun n edge later => ?_⟩
      · exact .single (mem_newNodes.mp (mem_reverse.mp mem)).1
      · exact mem_reverse.mpr (mem_newNodes.mpr ⟨edge, later⟩)
    · rcases opened.cases inSeen unexplored with ⟨rfl, closed⟩
        | ⟨above, below, split, reached, waiting⟩
      · refine ⟨_, rest, rfl, fun x mem => ?_, fun n edge later => ?_⟩
        · exact .single (mem_newNodes.mp (mem_reverse.mp mem)).1
        · exact (later (closed n edge)).elim
      · refine ⟨(newNodes succ order w).reverse ++ w :: above, below, by simp [split], ?_, ?_⟩
        · intro x mem
          rcases mem_append.mp mem with pushed | old
          · exact (reached w mem_cons_self).tail (mem_newNodes.mp (mem_reverse.mp pushed)).1
          · exact reached x old
        · intro n edge later
          exact mem_append_right _ (waiting n edge later)

/-- Turns left: a node pushes its successors once, when it is first seen. -/
def turnsLeft (nodes : List ν) (state : State ν) : Nat :=
  (nodes.length + 1) * (nodes.filter (· ∉ state.seen)).length + state.fringe.length

theorem turnsLeft_turn {next : State ν} (acyclic : Acyclic succ)
    (opened : Open succ ⟨w :: rest, seen, order⟩) (node : w ∈ nodes)
    (few : (newNodes succ order w).length ≤ nodes.length)
    (taken : Turn succ w rest seen order next)
    : turnsLeft nodes next < turnsLeft nodes ⟨w :: rest, seen, order⟩ := by
  have without : nodes.filter (· ∉ w :: seen) = (nodes.filter (· ∉ seen)).filter (· ≠ w) := by
    rw [filter_filter]
    refine filter_congr fun n _ => ?_
    simp
  have fewer : (nodes.filter (· ∉ w :: seen)).length ≤ (nodes.filter (· ∉ seen)).length := by
    rw [without]
    exact length_filter_le _ _
  cases taken with
  | drop explored =>
    simp only [turnsLeft, length_cons]
    omega
  | finish new successors =>
    simp only [turnsLeft, length_cons]
    have := Nat.mul_le_mul_left (nodes.length + 1) fewer
    omega
  | push new fresh =>
    have unseen : w ∉ seen := by
      intro inSeen
      rcases opened.cases inSeen new with ⟨_, closed⟩ | ⟨above, below, _, reached, _⟩
      · obtain ⟨n, listed⟩ := exists_mem_of_ne_nil _ fresh
        obtain ⟨edge, later⟩ := mem_newNodes.mp listed
        exact later (closed n edge)
      · exact acyclic w (reached w mem_cons_self)
    have strictly : (nodes.filter (· ∉ w :: seen)).length < (nodes.filter (· ∉ seen)).length := by
      rw [without, length_filter_lt_length_iff_exists]
      exact ⟨w, mem_filter.mpr ⟨node, by simpa using unseen⟩, by simp⟩
    have := Nat.mul_le_mul_left (nodes.length + 1) strictly
    simp only [turnsLeft, length_append, length_reverse, length_cons]
    rw [Nat.mul_succ] at this
    omega

variable (acyclic : Acyclic succ) (closed : ∀ w ∈ nodes, ∀ n ∈ succ w, n ∈ nodes)
  (few : ∀ w ∈ nodes, (succ w).length ≤ nodes.length)

include acyclic closed few

/-- Enough fuel and no cycle: the loop ends. -/
theorem explore_exists {fuel : Nat} {state : State ν}
    (opened : Open succ state) (inside : ∀ n ∈ state.fringe, n ∈ nodes)
    (enough : turnsLeft nodes state ≤ fuel)
    : ∃ final, explore succ fuel state = some final ∧ Open succ final ∧ final.fringe = [] := by
  induction fuel generalizing state with
  | zero =>
    obtain ⟨fringe, seen, order⟩ := state
    cases fringe with
    | nil => exact ⟨_, rfl, opened, rfl⟩
    | cons w rest =>
      simp only [turnsLeft, length_cons] at enough
      omega
  | succ fuel ih =>
    obtain ⟨fringe, seen, order⟩ := state
    cases fringe with
    | nil => exact ⟨_, rfl, opened, rfl⟩
    | cons w rest =>
      obtain ⟨next, taken⟩ := step_isSome acyclic opened
      have turn := turn_of_step taken
      have node := inside w mem_cons_self
      have less : turnsLeft nodes next < turnsLeft nodes ⟨w :: rest, seen, order⟩ :=
        turnsLeft_turn acyclic opened node
          (Nat.le_trans (length_filter_le _ _) (few w node)) turn
      have insideNext : ∀ n ∈ next.fringe, n ∈ nodes := by
        have below (n : ν) (mem : n ∈ rest) := inside n (mem_cons_of_mem _ mem)
        cases turn with
        | drop => exact below
        | finish => exact below
        | push =>
          intro n mem
          rcases mem_append.mp mem with pushed | old
          · exact closed w node n (mem_newNodes.mp (mem_reverse.mp pushed)).1
          · exact inside n old
      obtain ⟨final, ran, res⟩ := ih (opened.turn turn) insideNext (by omega)
      refine ⟨final, ?_, res⟩
      rw [explore, taken]
      exact ran

/-- Between two roots nothing is open. -/
def Settled (state : State ν) : Prop := ∀ a ∈ state.seen, a ∈ state.order

theorem visits_exist {fuel : Nat}
    (enough : (nodes.length + 1) * nodes.length + 1 ≤ fuel) {roots : List ν}
    (inside : ∀ v ∈ roots, v ∈ nodes) {state : State ν} (settled : Settled state)
    : ∃ final, roots.foldlM (visit succ fuel) state = some final := by
  induction roots generalizing state with
  | nil => exact ⟨state, rfl⟩
  | cons v roots ih =>
    have later (next : State ν) (settledNext : Settled next)
        : ∃ final, roots.foldlM (visit succ fuel) next = some final :=
      ih (fun n mem => inside n (mem_cons_of_mem _ mem)) settledNext
    rw [foldlM_cons, visit]
    split
    · exact later state settled
    · have opened : Open succ ⟨[v], state.seen, state.order⟩ :=
        fun a inSeen unexplored => (unexplored (settled a inSeen)).elim
      have bound : turnsLeft nodes ⟨[v], state.seen, state.order⟩ ≤ fuel := by
        have unseen := length_filter_le (fun n => decide (n ∉ state.seen)) nodes
        have := Nat.mul_le_mul_left (nodes.length + 1) unseen
        simp only [turnsLeft, length_singleton]
        omega
      obtain ⟨next, ran, openedNext, empty⟩ := explore_exists acyclic closed few opened
        (fun n mem => mem_singleton.mp mem ▸ inside v mem_cons_self) bound
      rw [ran]
      refine later next fun a inSeen => ?_
      by_contra unexplored
      obtain ⟨above, below, split, _⟩ := openedNext a inSeen unexplored
      rw [empty] at split
      exact append_ne_nil_of_right_ne_nil _ (cons_ne_nil _ _) split.symm

end

section

variable {succ : ν → List ν} {fuel : Nat} {nodes order : List ν}

theorem topologicalSort_perm (sorted : topologicalSort succ fuel nodes = some order)
    (unique : nodes.Nodup) (closed : ∀ w ∈ nodes, ∀ n ∈ succ w, n ∈ nodes)
    : order.Perm nodes := by
  obtain ⟨final, visited, rfl⟩ := Option.map_eq_some_iff.mp sorted
  obtain ⟨⟨ordered, added, same, inside⟩, all⟩ :=
    visits_spec visited (Ordered.nil succ) (· ∈ nodes) (fun v mem => mem) closed
  refine (perm_ext_iff_of_nodup ordered.nodup unique).mpr fun n => ⟨?_, all n⟩
  intro mem
  rw [same, append_nil] at mem
  exact inside n mem

theorem topologicalSort_exists (acyclic : Acyclic succ)
    (closed : ∀ w ∈ nodes, ∀ n ∈ succ w, n ∈ nodes)
    (few : ∀ w ∈ nodes, (succ w).length ≤ nodes.length)
    (enough : (nodes.length + 1) * nodes.length + 1 ≤ fuel)
    : ∃ order, topologicalSort succ fuel nodes = some order := by
  have settled : Settled (⟨[], [], []⟩ : State ν) :=
    fun a mem => (not_mem_nil mem).elim
  obtain ⟨final, visited⟩ := visits_exist acyclic closed few enough (fun _ mem => mem) settled
  exact ⟨final.order, by rw [topologicalSort, visited, Option.map_some]⟩

/-- Without edges the nodes come out in reverse. -/
theorem topologicalSort_of_no_edges (none : ∀ w, succ w = []) (unique : nodes.Nodup)
    : topologicalSort succ (fuel + 1) nodes = some nodes.reverse := by
  have visited (roots : List ν) (state : State ν) (new : ∀ v ∈ roots, v ∉ state.order)
      (distinct : roots.Nodup)
      : ∃ final, roots.foldlM (visit succ (fuel + 1)) state = some final
          ∧ final.order = roots.reverse ++ state.order := by
    induction roots generalizing state with
    | nil => exact ⟨state, rfl, rfl⟩
    | cons v roots ih =>
      obtain ⟨apart, distinct⟩ := nodup_cons.mp distinct
      have unexplored := new v mem_cons_self
      have first : visit succ (fuel + 1) state v
          = some ⟨[], v :: state.seen, v :: state.order⟩ := by
        have noNew : newNodes succ state.order v = [] := by rw [newNodes, none, filter_nil]
        rw [visit, if_neg unexplored, explore, step, if_neg unexplored, noNew]
        cases fuel <;> rfl
      obtain ⟨final, ran, same⟩ := ih ⟨[], v :: state.seen, v :: state.order⟩
        (fun u mem => not_mem_cons_of_ne_of_not_mem (fun equal => apart (equal ▸ mem))
          (new u (mem_cons_of_mem _ mem))) distinct
      refine ⟨final, ?_, ?_⟩
      · rw [foldlM_cons, first]
        exact ran
      · rw [same, reverse_cons, append_assoc, singleton_append]
  obtain ⟨final, ran, same⟩ := visited nodes ⟨[], [], []⟩ (fun v _ => not_mem_nil) unique
  rw [topologicalSort, ran, Option.map_some, same, append_nil]

theorem topologicalSort_pairwise (sorted : topologicalSort succ fuel nodes = some order)
    : order.Pairwise (fun a b => a ∉ succ b) := by
  obtain ⟨final, visited, rfl⟩ := Option.map_eq_some_iff.mp sorted
  exact (visits_spec visited (Ordered.nil succ) (fun _ => True)
    (fun _ _ => trivial) (fun _ _ _ _ => trivial)).1.ordered.edges

end

end DepthFirst
