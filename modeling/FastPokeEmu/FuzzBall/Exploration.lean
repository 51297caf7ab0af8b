import FastPokeEmu.FuzzBall.DecisionTree
import Mathlib.Data.Set.Finite.List

/-! Exhaustive exploration. What the tree holds is determined by the decisions that have been tried
and the executions that are done. Every operation of the tree is a step between such states, and
the loop only ends when no execution is left. -/

namespace FastPokeEmu.FuzzBall

open List Function

variable {Input : Type} {prog : Program Input} {tried : Path → Bool} {all all' : Path → Prop}
  {t : Table} {p : Path} {n : Node} {b : Bool} {done : List Path}
  {d : Decision Input}

/-- Whether there is a node for `p` once these decisions have been tried. -/
def Present (tried : Path → Bool) : Path → Bool
  | [] => true
  | _ :: p => tried p

section

variable (prog) (tried all)

open Classical in
noncomputable def node (p : Path) : Node where
  child b := if tried p then some (prog.sat (b :: p)) else none
  allSeen := all p
  eipLoc := if tried p then ((prog.next p).map Prod.fst).getD 0 else 0

/-- The tree in which these decisions have been tried and below these nodes nothing is left. -/
noncomputable def tree : Table := fun p =>
  if prog.sat p && Present tried p then some (node prog tried all p) else none

end

theorem tree_eq (sat : prog.sat p) (present : Present tried p)
    : tree prog tried all p = some (node prog tried all p) :=
  if_pos (by simp [sat, present])

section

variable (old : tried p)

include old

theorem isSome_tree (b : Bool) : (tree prog tried all (b :: p)).isSome = prog.sat (b :: p) := by
  cases sat : prog.sat (b :: p) <;> simp [tree, old, sat, Present]

theorem seen_iff (b : Bool)
    : Table.seen (some (tree prog tried all (b :: p))) ↔ (prog.sat (b :: p) → all (b :: p)) := by
  cases sat : prog.sat (b :: p) <;> simp [Table.seen, tree, node, old, sat, Present]

end

section

variable (sat : prog.sat p) (present : Present tried p)

include sat present

theorem kid_new (new : ¬ tried p) (b : Bool) : (tree prog tried all).kid p b = some none := by
  simp [Table.kid, tree_eq sat present, node, new]

theorem kid_tried (old : tried p) (b : Bool)
    : (tree prog tried all).kid p b = some (some (tree prog tried all (b :: p))) := by
  have child : (node prog tried all p).child b = some (prog.sat (b :: p)) := if_pos old
  have kid : (tree prog tried all (b :: p)).isSome = prog.sat (b :: p) := isSome_tree old b
  cases found : tree prog tried all (b :: p) <;> rw [found] at kid
    <;> simp [Table.kid, tree_eq sat present, child, ← kid, found]

/-- Marks a node below which nothing is left. -/
theorem mark (kids : ∀ b, all (b :: p)) (now : all' p) (same : ∀ q, q ≠ p → (all q ↔ all' q))
    : (tree prog tried all).mark p = some (tree prog tried all') := by
  have marked : update (tree prog tried all) p
      (some { node prog tried all p with allSeen := true }) = tree prog tried all' := by
    funext q
    by_cases equal : q = p
    · subst equal
      simp [tree_eq sat present, node, now]
    · have same := propext (same q equal)
      simp only [update_of_ne equal, tree, node]
      rw [same]
  by_cases old : tried p
  · simp [Table.mark, kid_tried sat present old, seen_iff old, kids, tree_eq sat present, marked]
  · simp [Table.mark, kid_new sat present old, tree_eq sat present, marked]

end

/-- The test that is made at the parent of a node. -/
theorem up_iff (all : Path → Prop) (old : tried p) (sat : prog.sat (b :: p))
    : (Table.seen (some (tree prog tried all (false :: p)))
        && Table.seen (some (tree prog tried all (true :: p)))
        && ((tree prog tried all (false :: p)).isSome || (tree prog tried all (true :: p)).isSome))
      ↔ ∀ b, prog.sat (b :: p) → all (b :: p) := by
  simp only [Bool.forall_bool, Bool.and_eq_true, seen_iff old, isSome_tree old, Bool.or_eq_true]
  cases b <;> simp [sat]

/-- What has been tried: a decision only after those before it, and where no node is, executions
are left. -/
structure Inv (prog : Program Input) (tried : Path → Bool) (done : List Path) : Prop where
  reached : ∀ p, tried p → prog.sat p ∧ Present tried p ∧ ∃ d, prog.next p = some d
  new : ∀ p, prog.sat p → ¬ Present tried p → ¬ prog.Explored done p

theorem not_cons_suffix (b : Bool) (p : Path) : ¬ b :: p <:+ p := fun below =>
  absurd below.length_le (by rw [length_cons]; omega)

/-- The nodes that were marked so far, on the way up from `p`. -/
def Marked (prog : Program Input) (done : List Path) (p q : Path) : Prop :=
  ¬ q <:+ p ∧ prog.Explored done q

theorem marked_cons (all : prog.Explored done p) (b : Bool) : Marked prog done p (b :: p) :=
  ⟨not_cons_suffix b p, all.cons b⟩

/-- Marking goes up to the last node below which something is left. The induction is on the path:
the nodes on it are the ones that may still have to be marked. -/
theorem markAllSeenNode (inv : Inv prog tried done) (sat : prog.sat p) (present : Present tried p)
    (explored : prog.Explored done p)
    : (tree prog tried (Marked prog done p)).markAllSeenNode p
      = some (tree prog tried (prog.Explored done)) := by
  induction p with
  | nil =>
    exact mark sat present (marked_cons explored) explored
      fun q other => by simp [Marked, suffix_nil, other]
  | cons b p ih =>
    replace present : tried p := present
    obtain ⟨sat', present', d, next⟩ := inv.reached p present
    have marked : (tree prog tried (Marked prog done (b :: p))).mark (b :: p)
        = some (tree prog tried (Marked prog done p)) :=
      mark sat present (marked_cons explored) ⟨not_cons_suffix b p, explored⟩
        fun q other => by simp [Marked, suffix_cons_iff, other]
    have unseen : (node prog tried (Marked prog done p) p).allSeen = false := by
      simp [node, Marked]
    have up := up_iff (Marked prog done p) present sat
    simp only [Marked, not_cons_suffix, not_false_eq_true, true_and,
      ← Program.explored_iff next] at up
    simp only [Table.markAllSeenNode, marked, kid_tried sat' present' present, unseen,
      tree_eq sat' present', Option.join_some, Option.bind_eq_bind, Option.bind_some,
      Bool.not_false, Bool.true_and]
    by_cases all : prog.Explored done p
    · rw [if_pos (up.mpr all)]
      exact ih sat' present' all
    · rw [if_neg (mt up.mp all)]
      -- no node above `p` is explored either
      have same : Marked prog done p = prog.Explored done :=
        funext fun q => propext ⟨And.right, fun all' => ⟨fun above => all fun r complete below =>
          all' r complete (above.trans below), all'⟩⟩
      rw [same]

/-- The table after both branches at a decision have been tried. -/
def Table.expand (t : Table) (p : Path) (n : Node) (sat : Bool → Bool) : Table := fun q =>
  if q = p then some { n with child := fun b => some (sat b) }
  else if q = false :: p ∧ sat false ∨ q = true :: p ∧ sat true then some .new else t q

theorem tryBoth_eq (sat : Bool → Bool) (here : t p = some n) (unseen : n.allSeen = false)
    (new : n.child = fun _ => none) (possible : sat b)
    : ((if sat (!b) then t.addKid p (!b) else t.recordUnsat p (!b)).bind (·.extend p b))
      = some (b :: p, t.expand p n sat) := by
  have both : update (update (fun _ => none) (!b) (some (sat (!b)))) b (some true)
      = fun c => some (sat c) := by
    funext c
    cases b <;> cases c <;> simp [possible]
  cases b <;> cases other : sat (!_)
    <;> simp_all [Table.addKid, Table.recordUnsat, Table.putChild, Table.extend]
    <;> funext q <;> grind [Table.expand]

/-- If both branches are known, one is taken below which something is left. -/
theorem branch_known (sat : Bool → Bool) (kid : ∀ b, t.kid p b = some (some (t (b :: p))))
    (live : ∃ b, Table.seen (some (t (b :: p))) = false) (choice : Bool)
    : ∃ b, Table.seen (some (t (b :: p))) = false ∧ t.branch p sat choice = t.extend p b := by
  simp only [Table.branch, kid, Option.bind_eq_bind, Option.bind_some]
  rw [Bool.exists_bool] at live
  cases f : t (false :: p) <;> cases k : t (true :: p) <;> simp only [f, k, Table.seen] at live ⊢
  · cases live <;> contradiction
  · obtain left := live.resolve_left nofun
    exact ⟨true, by rw [k]; exact left, by simp [left]⟩
  · obtain left := live.resolve_right nofun
    exact ⟨false, by rw [f]; exact left, by simp [left]⟩
  · rename_i m m'
    cases hf : m.allSeen <;> cases hk : m'.allSeen <;> simp only [hf, hk] at live ⊢
    · exact ⟨choice, by cases choice <;> simp [f, k, hf, hk], rfl⟩
    · exact ⟨false, by simp [f, hf], rfl⟩
    · exact ⟨true, by simp [k, hk], rfl⟩
    · cases live <;> contradiction

theorem present_mono {q : Path} (present : Present tried q)
    : Present (update tried p true) q := by
  cases q with
  | nil => rfl
  | cons b q =>
    by_cases equal : q = p
    · rw [Present, equal, update_self]
    · rwa [Present, update_of_ne equal]

/-- The tree after these executions. -/
noncomputable abbrev treeOf (prog : Program Input) (tried : Path → Bool)
    (done : List Path) : Table :=
  tree prog tried (prog.Explored done)

/-- A branch was taken below which something is left. -/
def Taken (prog : Program Input) (done : List Path) (p : Path)
    (r : Option (Path × Table)) : Prop :=
  ∃ b tried, r = some (b :: p, treeOf prog tried done) ∧ Inv prog tried done ∧ tried p
    ∧ prog.sat (b :: p) ∧ ¬ prog.Explored done (b :: p)

section

variable (inv : Inv prog tried done) (sat : prog.sat p) (present : Present tried p)
  (next : prog.next p = some d)

include inv sat present next

theorem inv_update : Inv prog (update tried p true) done := by
  refine ⟨fun q old => ?_, fun q sat absent => inv.new q sat (mt present_mono absent)⟩
  by_cases equal : q = p
  · exact ⟨equal ▸ sat, present_mono (equal ▸ present), d, equal ▸ next⟩
  · rw [update_of_ne equal] at old
    obtain ⟨sat, present, decided⟩ := inv.reached q old
    exact ⟨sat, present_mono present, decided⟩

section

variable (new : ¬ tried p)

include new

/-- Trying both branches is trying the decision. -/
theorem expand_tree (here : n = (node prog tried (prog.Explored done) p).putEipLoc d.1)
    : Table.expand (update (treeOf prog tried done) p (some n)) p n (fun b => prog.sat (b :: p))
      = treeOf prog (update tried p true) done := by
  have off (q : Path) (other : q ≠ p) : node prog (update tried p true) (prog.Explored done) q
      = node prog tried (prog.Explored done) q := by
    simp [node, other]
  funext q
  unfold Table.expand treeOf
  split_ifs with equal kid
  · subst equal
    simp [tree_eq sat (present_mono present), node, here, next, Node.putEipLoc]
  · obtain ⟨b, rfl, sat'⟩ : ∃ b, q = b :: p ∧ prog.sat (b :: p) := Bool.exists_bool.mpr kid
    have later : ¬ tried (b :: p) := fun old => new (inv.reached _ old).2.1
    have present' : Present (update tried p true) (b :: p) := update_self ..
    rw [tree_eq sat' present', off _ equal]
    simp [node, later, Node.new, inv.new _ sat' new]
  · -- elsewhere nothing changes, as the kids that are not possible are not there either
    unfold tree
    rw [update_of_ne equal, off q equal]
    cases q with
    | nil => rfl
    | cons b q =>
      by_cases last : q = p
      · subst last
        cases b <;> simp_all
      · simp [Present, last]

/-- If no branch is known, both are tried, and one that is possible is taken. -/
theorem tryBoth (left : ¬ prog.Explored done p) (sat' : prog.sat (b :: p))
    (place : t = update (treeOf prog tried done) p
      (some ((node prog tried (prog.Explored done) p).putEipLoc d.1)))
    : Taken prog done p ((if prog.sat ((!b) :: p) then t.addKid p (!b)
        else t.recordUnsat p (!b)).bind (·.extend p b)) := by
  refine ⟨b, update tried p true, ?_, inv_update inv sat present next, update_self .., sat',
    inv.new _ sat' new⟩
  rw [place, tryBoth_eq (fun b => prog.sat (b :: p)) (update_self ..) _ _ sat',
    expand_tree inv sat present next new rfl]
  · simp [node, left, Node.putEipLoc]
  · simp [node, new, Node.putEipLoc]

end

variable (left : ¬ prog.Explored done p)

include left

/-- If both branches are known, one is taken below which something is left. -/
theorem known (old : tried p) (choice : Bool)
    : Taken prog done p
        ((treeOf prog tried done).branch p (fun b => prog.sat (b :: p)) choice) := by
  have live : ∃ b, Table.seen (some (treeOf prog tried done (b :: p))) = false := by
    by_contra none_
    refine left ((Program.explored_iff next).mpr fun b => (seen_iff old b).mp ?_)
    simpa using not_exists.mp none_ b
  obtain ⟨b, open_, taken⟩ :=
    branch_known (fun b => prog.sat (b :: p)) (kid_tried sat present old) live choice
  have more := mt (seen_iff old b).mpr (ne_true_of_eq_false open_)
  push Not at more
  refine ⟨b, tried, ?_, inv, old, more⟩
  rw [taken]
  simp [Table.extend, Table.addKid, tree_eq sat present, node, left, old, more.1]

/-- A decision is never refused, and leads to a node below which something is left. -/
theorem tryExtend (choice : Bool)
    : Taken prog done p
        ((treeOf prog tried done).tryExtend p (fun b => prog.sat (b :: p)) choice d.1) := by
  obtain ⟨n, here⟩ : ∃ n, n = node prog tried (prog.Explored done) p := ⟨_, rfl⟩
  have allowed : (n.allSeen || (n.eipLoc != 0 && n.eipLoc != d.1)) = false := by
    by_cases old : tried p <;> simp [here, node, old, next, left]
  obtain ⟨t, place⟩ : ∃ t : Table, t = update (treeOf prog tried done) p (some (n.putEipLoc d.1)) :=
    ⟨_, rfl⟩
  simp only [Table.tryExtend, tree_eq sat present, ← here, Option.bind_eq_bind, Option.bind_some,
    allowed, ← place, Bool.false_eq_true, if_false]
  by_cases old : tried p
  · have same : n.putEipLoc d.1 = n := by simp [here, Node.putEipLoc, node, old, next]
    rw [place, same, here, ← tree_eq sat present, update_eq_self]
    exact known inv sat present next left old choice
  · have kid (b : Bool) : t.kid p b = some none := by
      simp [place, here, Table.kid, Node.putEipLoc, node, old]
    subst here
    simp only [Table.branch, kid, Option.bind_eq_bind, Option.bind_some]
    by_cases sat' : prog.sat (choice :: p)
    · rw [if_pos sat']
      exact tryBoth inv sat present next old left sat' place
    · obtain ⟨b, sat''⟩ := Program.goesOn sat next
      obtain rfl : b = !choice := by
        cases b <;> cases choice <;> simp_all
      have taken := tryBoth inv sat present next old left sat'' place
      simpa only [Bool.not_not, sat', sat'', Bool.false_eq_true, if_false, if_true] using taken

end

namespace Inv

theorem present_of_suffix (inv : Inv prog tried done) {q : Path} (below : q <:+ p)
    (present : Present tried p)
    : Present tried q := by
  obtain ⟨l, rfl⟩ := below
  induction l with
  | nil => exact present
  | cons b l ih => exact ih (inv.reached _ present).2.1

/-- One execution ends with choices that were not made before. -/
theorem run (inv : Inv prog tried done) (sat : prog.sat p) (present : Present tried p)
    (left : ¬ prog.Explored done p) (choice : Path → Bool) {k : Nat}
    (enough : prog.depth ≤ p.length + k)
    : ∃ q tried', prog.run choice k p (treeOf prog tried done)
          = some (q, treeOf prog tried' (q :: done))
        ∧ prog.Complete q ∧ q ∉ done ∧ Inv prog tried' (q :: done) := by
  induction k generalizing p tried with
  | zero => exact absurd (prog.short p sat) (by omega)
  | succ k ih =>
    cases next : prog.next p with
    | none =>
      have complete : prog.Complete p := ⟨sat, next⟩
      have only {q : Path} (other : prog.Complete q) (below : p <:+ q) : p = q :=
        complete.eq_of_suffix below other.1
      have new : p ∉ done := fun old => left fun q other below => only other below ▸ old
      -- what was explored before is what is marked before the way up from `p`
      have all : prog.Explored done = Marked prog (p :: done) p := by
        funext q
        refine propext ⟨fun all => ⟨fun above => new (all p complete above),
          fun r other below => .tail _ (all r other below)⟩, fun all r other below => ?_⟩
        rcases mem_cons.mp (all.2 r other below) with rfl | old
        · exact absurd below all.1
        · exact old
      have inv' : Inv prog tried (p :: done) := ⟨inv.reached, fun q sat absent more =>
        inv.new q sat absent (all ▸ ⟨fun above => absent (inv.present_of_suffix above present),
          more⟩)⟩
      have explored : prog.Explored (p :: done) p :=
        fun q other below => only other below ▸ mem_cons_self
      refine ⟨p, tried, ?_, complete, new, inv'⟩
      rw [treeOf, all]
      simp [Program.run, next, markAllSeenNode inv' sat present explored]
    | some d =>
      obtain ⟨b, tried', taken, inv', old, sat', left'⟩ :=
        tryExtend inv sat present next left (choice p)
      simp only [Program.run, next, Option.bind_eq_bind, Option.bind_some, taken]
      exact ih inv' sat' old left' (by rw [length_cons]; omega)

/-- The loop goes on until all executions are done. -/
theorem fuzz (inv : Inv prog tried done) (left : ¬ prog.Explored done []) (nodup : done.Nodup)
    (all : ∀ p ∈ done, prog.Complete p) (choice : Nat → Path → Bool) {k : Nat}
    (enough : ∀ l : List Path, l.Nodup → (∀ p ∈ l, prog.Complete p) → l.length ≤ done.length + k)
    : ∃ hists, prog.fuzz choice k (treeOf prog tried done) = some hists ∧ (hists ++ done).Nodup
        ∧ ∀ p, p ∈ hists ++ done ↔ prog.Complete p := by
  induction k generalizing done tried with
  | zero =>
    unfold Program.Explored at left
    push Not at left
    obtain ⟨q, complete, -, new⟩ := left
    have := enough (q :: done) (nodup_cons.mpr ⟨new, nodup⟩) (forall_mem_cons.mpr ⟨complete, all⟩)
    rw [length_cons] at this
    omega
  | succ k ih =>
    obtain ⟨q, tried', ran, complete, new, inv'⟩ := inv.run prog.start rfl left (choice k)
      (Nat.le_add_left prog.depth _)
    have nodup' : (q :: done).Nodup := nodup_cons.mpr ⟨new, nodup⟩
    have all' : ∀ p ∈ q :: done, prog.Complete p := forall_mem_cons.mpr ⟨complete, all⟩
    have seen : (node prog tried' (prog.Explored (q :: done)) []).allSeen
        ↔ prog.Explored (q :: done) [] := by simp [node]
    simp only [Program.fuzz, ran, tree_eq prog.start rfl, Option.bind_eq_bind, Option.bind_some]
    by_cases last : prog.Explored (q :: done) []
    · rw [if_pos (seen.mpr last)]
      exact ⟨[q], rfl, nodup', fun p => ⟨all' p, fun other => last p other nil_suffix⟩⟩
    · have enough' (l : List Path) (nd : l.Nodup) (c : ∀ p ∈ l, prog.Complete p)
          : l.length ≤ (q :: done).length + k := by
        rw [length_cons]
        exact (enough l nd c).trans (by omega)
      obtain ⟨hists, ran', nodup'', each⟩ := ih inv' last nodup' all' enough'
      refine ⟨q :: hists, ?_, perm_middle.nodup_iff.mp nodup'', fun p => ?_⟩
      · rw [if_neg (mt seen.mp last), ran']
        rfl
      · rw [← each, perm_middle.mem_iff]
        rfl

end Inv

theorem left_of_sat (sat : prog.sat p) : ¬ prog.Explored [] p := by
  obtain ⟨x, follows⟩ := (prog.sat_iff p).mp sat
  obtain ⟨q, complete, below, -⟩ :=
    Program.exists_complete prog.depth (Nat.le_add_left _ _) follows
  exact fun all => not_mem_nil (all q complete below)

theorem init_eq (prog : Program Input) : Table.init = treeOf prog (fun _ => false) [] := by
  funext p
  cases p with
  | nil =>
    rw [treeOf, tree_eq prog.start rfl]
    simp [Table.init, node, Node.new, left_of_sat prog.start]
  | cons b p => simp [Table.init, tree, Present]

/-- The exploration is exhaustive. Whatever branches are preferred, no assertion of the tree fails,
the loop ends, and it has executed every path that is possible, each once: with every input, one
of these executions and only one makes the same choices. -/
theorem fuzz_explores (prog : Program Input)
    : ∃ n, ∀ choice, ∃ hists, prog.fuzz choice n .init = some hists ∧ hists.Nodup
        ∧ (∀ p, p ∈ hists ↔ prog.Complete p)
        ∧ ∀ x, ∃! p, p ∈ hists ∧ Follows prog.next x p := by
  have finite := List.finite_length_lt Bool prog.depth
  refine ⟨finite.toFinset.card, fun choice => ?_⟩
  have inv : Inv prog (fun _ => false) [] := ⟨nofun, fun p sat _ => left_of_sat sat⟩
  obtain ⟨hists, ran, nodup, all⟩ :=
    inv.fuzz (left_of_sat prog.start) nodup_nil nofun choice fun l nodup all => by
      rw [← toFinset_card_of_nodup nodup]
      exact (Finset.card_le_card fun p mem => finite.mem_toFinset.mpr
        (prog.short p (all p (mem_toFinset.mp mem)).1)).trans (Nat.le_add_left _ _)
  rw [append_nil] at nodup all
  refine ⟨hists, init_eq prog ▸ ran, nodup, all, fun x => ?_⟩
  obtain ⟨q, complete, -, follows⟩ := Program.exists_complete prog.depth (Nat.le_add_left _ _)
    (show Follows prog.next x [] from trivial)
  refine ⟨q, ⟨(all q).mpr complete, follows⟩, fun p other => ?_⟩
  have complete' := (all p).mp other.1
  rcases Program.suffix_or_suffix other.2 follows with below | below
  · exact complete'.eq_of_suffix below complete.1
  · exact (complete.eq_of_suffix below complete'.1).symm

/-- A program that looks at its input once. -/
def oneBit : Program Bool where
  next p := if p = [] then some (1, id) else none
  sat p := p.length < 2
  depth := 2
  start := rfl
  sat_iff := by
    rintro (_ | ⟨b, _ | ⟨c, p⟩⟩) <;> simp [Follows]
  short p := of_decide_eq_true

example : oneBit.fuzz (fun _ _ => true) 2 .init = some [[true], [false]] := by decide

end FastPokeEmu.FuzzBall
