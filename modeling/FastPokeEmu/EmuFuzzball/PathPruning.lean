import Mathlib.Algebra.Ring.Int.Defs
import Mathlib.Algebra.Ring.Nat
import Mathlib.Data.List.DropRight
import Mathlib.Data.List.Induction

/-! Pruning of the path condition (`emu_fuzzball.ml`).
The hook that sees every instruction notes how long the path condition is when the ignored
part of the path ends; at the end of the path the conditions from before are cut off by a
slice of the list. Integers of the source have 63 bits.
-/

namespace FastPokeEmu.PathPruning

open List
open BitVec (ofInt ofNat slt toInt_sub)

/-- The integers of OCaml. -/
abbrev OInt := BitVec 63

section

variable {α : Type} {b e : OInt} {i j : Int} {n : Nat} {l : List α}

/-- The local function of `list_slice`; `f` is the part of the slice found so far. -/
def slice : List α → OInt → OInt → List α → List α
  | [], _, _, f => f
  | h :: t, b, e, f =>
    if b.slt 2 then
      if slt 0 e then slice t b (e - 1) (f ++ [h]) else f
    else slice t (b - 1) (e - 1) f

def listSlice (l : List α) (b e : OInt) : List α := slice l b e []

/-- The elements at the positions from `i` to `j`, the first element being at position `n`. -/
def positionsFrom (n : Nat) (l : List α) (i j : Int) : List α :=
  ((l.zipIdx n).filter (fun p => decide (i ≤ (p.2 : Int) ∧ (p.2 : Int) ≤ j))).map Prod.fst

/-- The elements at the positions from `i` to `j`, counted from one. -/
def positions (l : List α) (i j : Int) : List α := positionsFrom 1 l i j

/-- The end of the slice stays an integer of the source while elements are skipped. -/
def NoWrap (l : List α) (b e : OInt) : Prop :=
  b.toInt < 2 ∨ (l.length : Int) < b.toInt ∨ -2 ^ 62 ≤ e.toInt - (b.toInt - 1)

instance (l : List α) (b e : OInt) : Decidable (NoWrap l b e) := inferInstanceAs (Decidable (_ ∨ _))

theorem toInt_bounds (x : OInt) : -2 ^ 62 ≤ x.toInt ∧ x.toInt < 2 ^ 62 :=
  ⟨BitVec.le_toInt x, BitVec.toInt_lt⟩

theorem toInt_pred {x : OInt} (above : -2 ^ 62 < x.toInt) : (x - 1).toInt = x.toInt - 1 := by
  have bound := (toInt_bounds x).2
  have one : (1 : OInt).toInt = 1 := by decide
  rw [toInt_sub, one]
  apply Int.bmod_eq_of_le
  · omega
  · omega

theorem toInt_ofNat (small : n < 2 ^ 62) : (ofNat 63 n).toInt = n := by
  rw [BitVec.toInt_ofNat']
  apply Int.bmod_eq_of_le
  · omega
  · omega

theorem toInt_pred_min {x : OInt} (least : x.toInt = -2 ^ 62) : (x - 1).toInt = 2 ^ 62 - 1 := by
  have one : (1 : OInt).toInt = 1 := by decide
  rw [toInt_sub, one, least]
  decide

theorem positionsFrom_of_lt (below : j < n) : positionsFrom n l i j = [] := by
  rw [positionsFrom, map_eq_nil_iff, filter_eq_nil_iff]
  intro p mem
  have := le_snd_of_mem_zipIdx mem
  simp only [decide_eq_true_eq]
  omega

theorem positionsFrom_cons_of_lt {h : α} {t : List α} (before : n < i)
    : positionsFrom n (h :: t) i j = positionsFrom (n + 1) t i j := by
  have skipped : ¬ (i ≤ (n : Int) ∧ (n : Int) ≤ j) := by omega
  simp [positionsFrom, zipIdx_cons, skipped]

theorem positionsFrom_cons_of_mem {h : α} {t : List α} (low : i ≤ n) (high : n ≤ j)
    : positionsFrom n (h :: t) i j = h :: positionsFrom (n + 1) t i j := by
  simp [positionsFrom, zipIdx_cons, low, high]

theorem positionsFrom_of_le {i : Int} (beyond : n + l.length ≤ i) (j : Int)
    : positionsFrom n l i j = [] := by
  rw [positionsFrom, map_eq_nil_iff, filter_eq_nil_iff]
  intro p mem
  have := snd_lt_of_mem_zipIdx mem
  simp only [decide_eq_true_eq]
  omega

theorem positionsFrom_append_left {l l' : List α} (low : i ≤ n) (last : j = n - 1 + l.length)
    : positionsFrom n (l ++ l') i j = l := by
  induction l generalizing n with
  | nil =>
    rw [length_nil] at last
    exact positionsFrom_of_lt (by omega)
  | cons h t ih =>
    rw [length_cons] at last
    rw [cons_append, positionsFrom_cons_of_mem low (by omega), ih (by omega) (by omega)]

theorem slt_two {b : OInt} : b.slt 2 = true ↔ b.toInt < 2 := by
  have two : (2 : OInt).toInt = 2 := by decide
  rw [slt, two, decide_eq_true_eq]

theorem zero_slt {e : OInt} : slt 0 e = true ↔ 0 < e.toInt := by
  have zero : (0 : OInt).toInt = 0 := by decide
  rw [slt, zero, decide_eq_true_eq]

theorem slice_taking (small : b.toInt < 2) (f : List α) (low : i ≤ n) (last : j = n - 1 + e.toInt)
    : slice l b e f = f ++ positionsFrom n l i j := by
  induction l generalizing e f n with
  | nil => simp [slice, positionsFrom]
  | cons h t ih =>
    rw [slice, if_pos (slt_two.mpr small)]
    by_cases more : 0 < e.toInt
    · have next := toInt_pred (x := e) (by omega)
      rw [if_pos (zero_slt.mpr more), ih (f ++ [h]) (n := n + 1) (by omega) (by omega),
        positionsFrom_cons_of_mem low (by omega), append_assoc]
      rfl
    · rw [if_neg (fun taken => more (zero_slt.mp taken)), positionsFrom_of_lt (by omega),
        append_nil]

theorem slice_skipping (first : i = n - 1 + b.toInt) (last : j = n - 1 + e.toInt)
    (pos : 1 ≤ b.toInt) (fits : -2 ^ 62 ≤ e.toInt - (b.toInt - 1)) (f : List α)
    : slice l b e f = f ++ positionsFrom n l i j := by
  induction l generalizing b e n with
  | nil => simp [slice, positionsFrom]
  | cons h t ih =>
    by_cases taking : b.toInt < 2
    · exact slice_taking taking f (by omega) last
    · have nextB := toInt_pred (x := b) (by omega)
      have nextE := toInt_pred (x := e) (by omega)
      rw [slice, if_neg (fun taken => taking (slt_two.mp taken)),
        positionsFrom_cons_of_lt (by omega)]
      exact ih (by omega) (by omega) (by omega) (by omega)

theorem slice_short {b : OInt} (short : (l.length : Int) < b.toInt) (e : OInt) (f : List α)
    : slice l b e f = f := by
  induction l generalizing b e with
  | nil => rfl
  | cons h t ih =>
    rw [length_cons] at short
    have next := toInt_pred (x := b) (by omega)
    rw [slice, if_neg (fun taken => absurd (slt_two.mp taken) (by omega))]
    exact ih (by omega) (e - 1)

theorem positionsFrom_ne_nil (low : n ≤ i) (order : i ≤ j) (inside : i < n + l.length)
    : positionsFrom n l i j ≠ [] := by
  induction l generalizing n with
  | nil =>
    rw [length_nil] at inside
    omega
  | cons h t ih =>
    rw [length_cons] at inside
    by_cases here : i = n
    · rw [positionsFrom_cons_of_mem (by omega) (by omega)]
      exact cons_ne_nil _ _
    · rw [positionsFrom_cons_of_lt (by omega)]
      exact ih (by omega) (by omega)

/-- If the end of the slice wraps around, the elements after the skipped ones are taken. -/
theorem slice_wrapped (large : 2 ≤ b.toInt) (long : b.toInt ≤ l.length)
    (wraps : e.toInt - (b.toInt - 1) < -2 ^ 62)
    : slice l b e [] ≠ [] := by
  induction l generalizing b e with
  | nil =>
    rw [length_nil] at long
    omega
  | cons h t ih =>
    have nextB := toInt_pred (x := b) (by omega)
    have bound := toInt_bounds e
    have boundB := toInt_bounds b
    rw [length_cons] at long
    rw [slice, if_neg (fun taken => absurd (slt_two.mp taken) (by omega))]
    by_cases least : e.toInt = -2 ^ 62
    · -- From here on the end is far away.
      have nextE := toInt_pred_min least
      rw [slice_skipping (n := 1) (i := (b - 1).toInt) (j := (e - 1).toInt) (by omega) (by omega)
        (by omega) (by omega), nil_append]
      exact positionsFrom_ne_nil (by omega) (by omega) (by omega)
    · have nextE := toInt_pred (x := e) (by omega)
      exact ih (by omega) (by omega) (by omega)

/-- The slice is at the positions from `max b 1` to `e` exactly if its end does not wrap
around while elements are skipped.
-/
theorem listSlice_eq_positions_iff (l : List α) (b e : OInt)
    : listSlice l b e = positions l (max b.toInt 1) e.toInt ↔ NoWrap l b e := by
  rw [listSlice, positions, NoWrap]
  by_cases taking : b.toInt < 2
  · refine iff_of_true ?_ (Or.inl taking)
    exact slice_taking taking [] (by omega) (by simp)
  · have first : max b.toInt 1 = b.toInt := by omega
    rw [first]
    by_cases short : (l.length : Int) < b.toInt
    · refine iff_of_true ?_ (Or.inr (Or.inl short))
      rw [slice_short short, positionsFrom_of_le (by omega)]
    · by_cases fits : -2 ^ 62 ≤ e.toInt - (b.toInt - 1)
      · refine iff_of_true ?_ (Or.inr (Or.inr fits))
        exact slice_skipping (by simp) (by simp) (by omega) fits []
      · have bound := toInt_bounds b
        refine iff_of_false ?_ (by tauto)
        rw [positionsFrom_of_lt (by omega)]
        exact slice_wrapped (by omega) (by omega) (by omega)

end

/-- What happens to the path condition. Each assignment `path_cond <- cond :: path_cond` of
the symbolic machine is a `push`, also those made while it hands out the path condition.
-/
inductive Event (C : Type) where
  | push (cond : C)
  | eip (address : BitVec 64)
  | finishPath

structure State (C : Type) where
  pathCond : List C
  ignoredConditions : OInt

section

variable {C : Type} {ignoreTillEip : BitVec 64}

/-- The state in which a path starts. -/
def State.start : State C := { pathCond := [], ignoredConditions := 0 }

/-- The part of `eip_hook` that records the length of the path condition. -/
def eipHook (ignoreTillEip : BitVec 64) (s : State C) (eip : BitVec 64) : State C :=
  if eip = ignoreTillEip then { s with ignoredConditions := ofNat 63 s.pathCond.length }
  else s

/-- The end of a path resets what was recorded, and the next path has no conditions yet. -/
def step (ignoreTillEip : BitVec 64) (s : State C) : Event C → State C
  | .push cond => { s with pathCond := cond :: s.pathCond }
  | .eip eip => eipHook ignoreTillEip s eip
  | .finishPath => State.start

def run (ignoreTillEip : BitVec 64) (events : List (Event C)) : State C :=
  events.foldl (step ignoreTillEip) State.start

/-- A slice of the path condition. -/
def prunePathcond (s : State C) : List C :=
  listSlice s.pathCond 0 (ofNat 63 s.pathCond.length - s.ignoredConditions)

/-- What comes after the last element with a property. -/
def afterLast {α : Type} (p : α → Bool) (l : List α) : List α := l.rtakeWhile (fun a => !p a)

def Event.pushed : Event C → Option C
  | .push cond => some cond
  | _ => none

def Event.finishes : Event C → Bool
  | .finishPath => true
  | _ => false

/-- The ignored part of the path ends. -/
def Event.reaches (ignoreTillEip : BitVec 64) : Event C → Bool
  | .eip address => address = ignoreTillEip
  | _ => false

/-- The conditions that are pushed, the latest one first. -/
def conditions (events : List (Event C)) : List C := (events.filterMap Event.pushed).reverse

/-- The events of the path that is not finished. -/
def currentPath (events : List (Event C)) : List (Event C) := afterLast Event.finishes events

theorem afterLast_concat {α : Type} (p : α → Bool) (l : List α) (a : α)
    : afterLast p (l ++ [a]) = if p a then [] else afterLast p l ++ [a] := by
  rw [afterLast, rtakeWhile_concat, afterLast]
  cases p a with
  | true => rfl
  | false => rfl

theorem afterLast_eq_self {α : Type} {p : α → Bool} {l : List α} (never : ∀ a ∈ l, p a = false)
    : afterLast p l = l := by
  apply rtakeWhile_eq_self_iff.mpr
  intro a mem
  rw [never a mem]
  rfl

theorem conditions_concat (events : List (Event C)) (event : Event C)
    : conditions (events ++ [event]) = event.pushed.toList ++ conditions events := by
  cases event with
  | push | eip | finishPath => simp [conditions, Event.pushed]

/-- The path condition, of which the older part was there when the length was recorded. -/
structure Recorded (ignoreTillEip : BitVec 64) (path : List (Event C)) (s : State C) : Prop where
  whole : s.pathCond = conditions path
  older
    : ∃ old,
        conditions path = conditions (afterLast (Event.reaches ignoreTillEip) path) ++ old
        ∧ s.ignoredConditions = ofNat 63 old.length

/-- One more event of the path. -/
theorem Recorded.step {path : List (Event C)} {s : State C}
    (recorded : Recorded ignoreTillEip path s) {event : Event C} (inside : event.finishes = false)
    : Recorded ignoreTillEip (path ++ [event]) (step ignoreTillEip s event) := by
  obtain ⟨old, parts, length⟩ := recorded.older
  cases event with
  | push cond =>
    refine ⟨?_, old, ?_, length⟩
    · simp only [PathPruning.step, conditions_concat, recorded.whole]
      rfl
    · simp [afterLast_concat, Event.reaches, conditions_concat, parts]
  | eip eip =>
    by_cases reached : eip = ignoreTillEip
    · have all : afterLast (Event.reaches ignoreTillEip) (path ++ [.eip eip]) = [] := by
        simp [afterLast_concat, Event.reaches, reached]
      simp only [PathPruning.step, eipHook, if_pos reached]
      refine ⟨?_, conditions path, ?_, ?_⟩
      · rw [conditions_concat]
        exact recorded.whole
      · rw [all, conditions_concat]
        rfl
      · exact congrArg (fun l => ofNat 63 (List.length l)) recorded.whole
    · have later : afterLast (Event.reaches ignoreTillEip) (path ++ [.eip eip])
          = afterLast (Event.reaches ignoreTillEip) path ++ [.eip eip] := by
        simp [afterLast_concat, Event.reaches, reached]
      simp only [PathPruning.step, eipHook, if_neg reached]
      refine ⟨?_, old, ?_, length⟩
      · rw [conditions_concat]
        exact recorded.whole
      · rw [later, conditions_concat, conditions_concat]
        exact parts
  | finishPath => cases inside

theorem recorded_run (ignoreTillEip : BitVec 64) (events : List (Event C))
    : Recorded ignoreTillEip (currentPath events) (run ignoreTillEip events) := by
  induction events using reverseRecOn with
  | nil => exact ⟨rfl, [], rfl, rfl⟩
  | append_singleton events event ih =>
    rw [run, foldl_append, currentPath, afterLast_concat]
    cases finishes : event.finishes with
    | true =>
      cases event with
      | push | eip => cases finishes
      | finishPath => exact ⟨rfl, [], rfl, rfl⟩
    | false => exact ih.step finishes

theorem Recorded.prunePathcond {path : List (Event C)} {s : State C}
    (recorded : Recorded ignoreTillEip path s) (small : (conditions path).length < 2 ^ 62)
    : prunePathcond s = conditions (afterLast (Event.reaches ignoreTillEip) path) := by
  obtain ⟨old, parts, length⟩ := recorded.older
  have counted := congrArg List.length parts
  rw [length_append] at counted
  have last : (ofNat 63 s.pathCond.length - s.ignoredConditions).toInt
      = (conditions (afterLast (Event.reaches ignoreTillEip) path)).length := by
    rw [length, recorded.whole, toInt_sub, toInt_ofNat small, toInt_ofNat (by omega)]
    rw [Int.bmod_eq_of_le (by omega) (by omega)]
    omega
  have taken := (listSlice_eq_positions_iff s.pathCond 0
    (ofNat 63 s.pathCond.length - s.ignoredConditions)).mpr (Or.inl (by decide))
  rw [PathPruning.prunePathcond, taken, last, recorded.whole, parts]
  exact positionsFrom_append_left (by decide) (by omega)

/-- On every run, the pruned path condition consists of the conditions pushed after the last
time the ignored part ended, or of all if it did not end; and a slice is at the positions its
bounds say exactly if its end does not wrap around. Witness: the recorded length is that of
the older part of the list, and slices start at the newer end.
-/
theorem prunePathcond_run (ignoreTillEip : BitVec 64) (events : List (Event C))
    (small : (conditions (currentPath events)).length < 2 ^ 62)
    : (run ignoreTillEip events).pathCond = conditions (currentPath events)
      ∧ prunePathcond (run ignoreTillEip events)
        = conditions (afterLast (Event.reaches ignoreTillEip) (currentPath events))
      ∧ ((∀ event ∈ currentPath events, event.reaches ignoreTillEip = false)
          → prunePathcond (run ignoreTillEip events) = (run ignoreTillEip events).pathCond)
      ∧ ∀ (l : List C) (b e : OInt),
          listSlice l b e = positions l (max b.toInt 1) e.toInt ↔ NoWrap l b e := by
  have recorded := recorded_run ignoreTillEip events
  refine ⟨recorded.whole, recorded.prunePathcond small, ?_, listSlice_eq_positions_iff⟩
  intro never
  rw [recorded.prunePathcond small, afterLast_eq_self never, recorded.whole]

end

/-- Two paths; on the second one the ignored part ends twice. -/
theorem prunePathcond_run_twice
    : prunePathcond (run 0x8048000
        [.push "a", .eip 0x8048000, .finishPath, .push "b", .eip 0x8048000, .push "c",
          .eip 0x8048000, .push "d", .eip 0x8048004, .push "e"])
      = ["e", "d"] := by
  refine (prunePathcond_run 0x8048000 _ ?_).2.1.trans ?_
  · decide
  · decide

/-- The end of the slice is the smallest integer, and wraps around to the largest one. -/
theorem listSlice_wraps_around
    : listSlice ["a", "b"] 2 (ofInt 63 (-2 ^ 62)) = ["b"]
      ∧ positions ["a", "b"] (max 2 1) (-2 ^ 62) = [] := by
  decide

end FastPokeEmu.PathPruning
