import Mathlib.Data.List.Sort

/-! Sets of integers as lists of intervals, each given by its first and last number.
-/

namespace Clusters

open List

/-- `oo[-1] = (oo[-1][0], i)` -/
def extendLast (oo : List (Int × Int)) (i : Int) : List (Int × Int) :=
  oo.dropLast ++ (oo.getLast?.map (fun r => (r.1, i))).toList

/-- Extend the last interval by the next number, or begin a new one; over the intervals so far
and the last number.
-/
def clusterStep (s : List (Int × Int) × Option Int) (i : Int) : List (Int × Int) × Option Int :=
  match s.2 with
  | some last => if i = last + 1 then (extendLast s.1 i, some i) else (s.1 ++ [(i, i)], some i)
  | none => (s.1 ++ [(i, i)], some i)

/-- Maximal intervals of a set of numbers. -/
def cluster (ii : List Int) : List (Int × Int) :=
  ((ii.insertionSort (· ≤ ·)).foldl clusterStep ([], none)).1

/-- `range(a, b)` -/
def range (a b : Int) : List Int := (List.range (b - a).toNat).map (fun k : Nat => a + k)

def uncluster (c : List (Int × Int)) : List Int := c.flatMap (fun r => range r.1 (r.2 + 1))

/-- The number lies in the interval. -/
def Within (a : Int) (r : Int × Int) : Prop := r.1 ≤ a ∧ a ≤ r.2

instance (a : Int) (r : Int × Int) : Decidable (Within a r) := inferInstanceAs (Decidable (_ ∧ _))

/-- Intervals of the numbers handled so far, the last of which ends with the last number. -/
structure Clustered (done : List Int) (s : List (Int × Int) × Option Int) : Prop where
  covers : ∀ a, (∃ r ∈ s.1, Within a r) ↔ a ∈ done
  ordered : ∀ r ∈ s.1, r.1 ≤ r.2
  /-- An interval begins where the previous number is missing. -/
  starts : ∀ r ∈ s.1, ∀ a ∈ done, a + 1 ≠ r.1
  apart : s.1.Pairwise (fun r r' => r.2 + 1 < r'.1)
  latest : ∀ last, s.2 = some last → ∃ before first, s.1 = before ++ [(first, last)]
  begun : s.2 = none → s.1 = []

section

variable {done : List Int} {s : List (Int × Int) × Option Int} {i : Int}
  (clustered : Clustered done s) (larger : ∀ a ∈ done, a < i)

include clustered larger

theorem Clustered.below {r : Int × Int} (mem : r ∈ s.1) : r.1 ≤ r.2 ∧ r.2 < i := by
  have low := clustered.ordered r mem
  exact ⟨low, larger r.2 ((clustered.covers r.2).mp ⟨r, mem, low, Int.le_refl _⟩)⟩

/-- A gap before the number, or nothing before it. -/
theorem Clustered.begin (gap : i - 1 ∉ done)
    : Clustered (done ++ [i]) (s.1 ++ [(i, i)], some i) := by
  refine ⟨fun a => ?_, ?_, ?_, ?_, ?_, nofun⟩
  · rw [mem_append, mem_singleton, ← clustered.covers a]
    simp only [mem_append, mem_singleton, or_and_right, exists_or, exists_eq_left, Within]
    exact or_congr_right (by omega)
  · intro r mem
    rcases mem_append.mp mem with old | new
    · exact clustered.ordered r old
    · rw [mem_singleton.mp new]
  · intro r mem a handled next
    rcases mem_append.mp mem with old | new
    · rcases mem_append.mp handled with before | last
      · exact clustered.starts r old a before next
      · have := clustered.below larger old
        have := mem_singleton.mp last
        omega
    · obtain rfl := mem_singleton.mp new
      rcases mem_append.mp handled with before | last
      · have here : a = i - 1 := by
          simp only at next
          omega
        exact gap (here ▸ before)
      · have := mem_singleton.mp last
        simp only at next
        omega
  · refine pairwise_append.mpr ⟨clustered.apart, pairwise_singleton _ _, fun r mem r' new => ?_⟩
    obtain rfl := mem_singleton.mp new
    have := clustered.below larger mem
    have ends := (clustered.covers r.2).mp ⟨r, mem, this.1, Int.le_refl _⟩
    have : r.2 ≠ i - 1 := fun same => gap (same ▸ ends)
    show r.2 + 1 < i
    omega
  · rintro last ⟨⟩
    exact ⟨_, _, rfl⟩

theorem Clustered.extend {before : List (Int × Int)} {first : Int}
    (shape : s.1 = before ++ [(first, i - 1)])
    : Clustered (done ++ [i]) (before ++ [(first, i)], some i) := by
  have apart := clustered.apart
  have covers := clustered.covers
  have low := clustered.below larger (r := (first, i - 1)) (by simp [shape])
  have old : ∀ r ∈ before, r ∈ s.1 := fun r mem => by simp [shape, mem]
  rw [shape, pairwise_append] at apart
  refine ⟨fun a => ?_, ?_, ?_, pairwise_append.mpr ⟨apart.1, pairwise_singleton _ _, ?_⟩, ?_, nofun⟩
  · rw [mem_append, mem_singleton, ← covers a, shape]
    simp only [mem_append, mem_singleton, or_and_right, exists_or, exists_eq_left, Within, or_assoc]
    refine or_congr_right ?_
    simp only at low
    omega
  · intro r mem
    rcases mem_append.mp mem with there | new
    · exact clustered.ordered r (old r there)
    · rw [mem_singleton.mp new]
      show first ≤ i
      simp only at low
      omega
  · intro r mem a handled next
    have start : ∃ r' ∈ s.1, r'.1 = r.1 := by
      rcases mem_append.mp mem with there | new
      · exact ⟨r, old r there, rfl⟩
      · exact ⟨(first, i - 1), by simp [shape], by rw [mem_singleton.mp new]⟩
    obtain ⟨r', inside, same⟩ := start
    rcases mem_append.mp handled with earlier | last
    · exact clustered.starts r' inside a earlier (next.trans same.symm)
    · have := clustered.below larger inside
      have := mem_singleton.mp last
      omega
  · intro r mem r' new
    rw [mem_singleton.mp new]
    exact apart.2.2 r mem (first, i - 1) (mem_singleton_self _)
  · rintro last ⟨⟩
    exact ⟨_, _, rfl⟩

theorem Clustered.step : Clustered (done ++ [i]) (clusterStep s i) := by
  obtain ⟨oo, last⟩ := s
  cases last with
  | none =>
    refine clustered.begin larger fun mem => ?_
    obtain ⟨r, inside, _⟩ := (clustered.covers _).mpr mem
    rw [clustered.begun rfl] at inside
    cases inside
  | some last =>
    obtain ⟨before, first, shape⟩ := clustered.latest last rfl
    simp only at shape
    simp only [clusterStep]
    split
    next next =>
      have here : last = i - 1 := by omega
      subst here
      simpa [extendLast, shape] using clustered.extend larger shape
    next gap =>
      refine clustered.begin larger fun mem => gap ?_
      obtain ⟨r, inside, within⟩ := (clustered.covers _).mpr mem
      have bound := clustered.below larger inside
      have apart := clustered.apart
      simp only [shape] at apart inside
      -- Only the last interval reaches up to the number before.
      rcases mem_append.mp inside with there | new
      · have := (pairwise_append.mp apart).2.2 r there _ (mem_singleton_self _)
        have := clustered.below larger (r := (first, last)) (by simp [shape])
        unfold Within at within
        simp only at *
        omega
      · rw [mem_singleton.mp new] at within bound
        unfold Within at within
        simp only at *
        omega

end

theorem clustered_foldl {numbers : List Int} (sorted : numbers.Pairwise (· < ·))
    : Clustered numbers (numbers.foldl clusterStep ([], none)) := by
  have upTo (done rest : List Int) (s : List (Int × Int) × Option Int)
      (sorted : (done ++ rest).Pairwise (· < ·)) (sofar : Clustered done s)
      : Clustered (done ++ rest) (rest.foldl clusterStep s) := by
    induction rest generalizing done s with
    | nil => simpa using sofar
    | cons i rest ih =>
      have larger (a : Int) (mem : a ∈ done) : a < i :=
        (pairwise_append.mp sorted).2.2 a mem i mem_cons_self
      simpa using ih (done ++ [i]) _ (by simpa using sorted) (sofar.step larger)
  refine upTo [] numbers _ sorted ⟨by simp, by simp, by simp, .nil, by simp, by simp⟩

theorem mem_range {a b x : Int} : x ∈ range a b ↔ a ≤ x ∧ x < b := by
  rw [range, mem_map]
  constructor
  · rintro ⟨k, inside, rfl⟩
    have := List.mem_range.mp inside
    omega
  · rintro ⟨low, high⟩
    exact ⟨(x - a).toNat, List.mem_range.mpr (by omega), by omega⟩

theorem range_increasing (a b : Int) : (range a b).Pairwise (· < ·) := by
  rw [range, pairwise_map]
  refine pairwise_lt_range.imp ?_
  intro k k' less
  omega

theorem mem_uncluster {c : List (Int × Int)} {a : Int} : a ∈ uncluster c ↔ ∃ r ∈ c, Within a r := by
  rw [uncluster, mem_flatMap]
  refine exists_congr fun r => and_congr_right fun _ => ?_
  rw [mem_range, Within]
  omega

section

variable {ii : List Int} (distinct : ii.Nodup)

include distinct

theorem clustered_cluster
    : Clustered (ii.insertionSort (· ≤ ·))
        ((ii.insertionSort (· ≤ ·)).foldl clusterStep ([], none)) := by
  refine clustered_foldl ?_
  have sorted := pairwise_insertionSort (· ≤ ·) ii
  have nodup := (perm_insertionSort (· ≤ ·) ii).nodup_iff.mpr distinct
  refine (sorted.and nodup).imp ?_
  intro a b both
  exact lt_of_le_of_ne both.1 both.2

theorem mem_cluster (a : Int) : (∃ r ∈ cluster ii, Within a r) ↔ a ∈ ii :=
  ((clustered_cluster distinct).covers a).trans (perm_insertionSort (· ≤ ·) ii).mem_iff

theorem cluster_ordered : ∀ r ∈ cluster ii, r.1 ≤ r.2 := (clustered_cluster distinct).ordered

theorem cluster_starts {r : Int × Int} (mem : r ∈ cluster ii) {a : Int} (inside : a ∈ ii)
    : a + 1 ≠ r.1 :=
  (clustered_cluster distinct).starts r mem a ((perm_insertionSort (· ≤ ·) ii).mem_iff.mpr inside)

theorem cluster_apart : (cluster ii).Pairwise (fun r r' => r.2 + 1 < r'.1) :=
  (clustered_cluster distinct).apart

/-- A number lies in exactly one interval, and any other in none. -/
theorem length_filter_within (a : Int)
    : ((cluster ii).filter (fun r => Within a r)).length = if a ∈ ii then 1 else 0 := by
  have apart : ((cluster ii).filter (fun r => Within a r)).Pairwise
      (fun earlier later => earlier.2 + 1 < later.1) :=
    (cluster_apart distinct).filter _
  have within : ∀ r ∈ (cluster ii).filter (fun r => Within a r), Within a r :=
    fun r mem => by simpa using (mem_filter.mp mem).2
  have covers := mem_cluster distinct a
  match shape : (cluster ii).filter (fun r => Within a r) with
  | [] =>
    refine (if_neg fun mem => ?_).symm
    obtain ⟨r, inside, holds⟩ := covers.mpr mem
    exact filter_eq_nil_iff.mp shape r inside (by simpa using holds)
  | [r] =>
    have mem : r ∈ (cluster ii).filter (fun r => Within a r) := by simp [shape]
    exact (if_pos (covers.mp ⟨r, (mem_filter.mp mem).1, within r mem⟩)).symm
  | r :: r' :: rest =>
    -- Two intervals around one number would touch.
    rw [shape] at apart within
    have first := within r (by simp)
    have second := within r' (by simp)
    have gap := (pairwise_cons.mp apart).1 r' (by simp)
    unfold Within at first second
    omega

theorem uncluster_increasing : (uncluster (cluster ii)).Pairwise (· < ·) := by
  refine pairwise_flatMap.mpr ⟨fun r _ => range_increasing _ _, ?_⟩
  refine (cluster_apart distinct).imp ?_
  intro r r' gap a inside b inside'
  have := mem_range.mp inside
  have := mem_range.mp inside'
  omega

theorem uncluster_cluster : uncluster (cluster ii) = ii.insertionSort (· ≤ ·) := by
  have increasing := uncluster_increasing distinct
  have same : (uncluster (cluster ii)).Perm (ii.insertionSort (· ≤ ·)) := by
    refine Perm.trans ?_ (perm_insertionSort _ _).symm
    refine (perm_ext_iff_of_nodup (increasing.imp Int.ne_of_lt) distinct).mpr fun a => ?_
    rw [mem_uncluster, mem_cluster distinct]
  exact same.eq_of_pairwise' (increasing.imp Int.le_of_lt) (pairwise_insertionSort _ _)

end

end Clusters
