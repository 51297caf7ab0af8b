import FastPokeEmu.Library.Clusters

/-! The regions of the physical memory that `run-emu-fuzzball.py` computes from the bytes that are
symbolic or concrete, with the functions of `common.py` on sets of integers.
-/

namespace FastPokeEmu.Common

open Clusters

/-- Neither symbolic nor concrete. The result does not depend on the order of the set. -/
def computeMissingLocs (ph : Int × Int) (s c : List Int) : List (Int × Int) :=
  cluster ((uncluster [(ph.1, ph.1 + ph.2 - 1)]).filter (fun a => a ∉ s ∧ a ∉ c))

/-- A set of integers, listed in any order, is represented by disjoint regions in increasing
order that leave a gap between them; so the missing bytes are those of the physical memory that
are neither symbolic nor concrete, each in one region.
-/
theorem cluster_represents {ii : List Int} (distinct : ii.Nodup)
    : uncluster (cluster ii) = ii.insertionSort (· ≤ ·)
      ∧ (uncluster (cluster ii)).Pairwise (· < ·)
      ∧ (∀ r ∈ cluster ii, r.1 ≤ r.2)
      ∧ (cluster ii).Pairwise (fun r r' => r.2 + 1 < r'.1)
      ∧ ∀ (ph : Int × Int) (s c : List Int) (a : Int),
          ((computeMissingLocs ph s c).filter (fun r => Within a r)).length
          = if (ph.1 ≤ a ∧ a < ph.1 + ph.2) ∧ a ∉ s ∧ a ∉ c then 1 else 0 := by
  refine ⟨uncluster_cluster distinct, uncluster_increasing distinct, cluster_ordered distinct,
    cluster_apart distinct, fun ph s c a => ?_⟩
  have whole : uncluster [(ph.1, ph.1 + ph.2 - 1)] = range ph.1 (ph.1 + ph.2) := by
    simp [uncluster]
  have distinct' := ((range_increasing ph.1 (ph.1 + ph.2)).imp Int.ne_of_lt).filter
    (fun a => decide (a ∉ s ∧ a ∉ c))
  rw [computeMissingLocs, whole, length_filter_within distinct']
  simp only [List.mem_filter, mem_range, decide_eq_true_eq]

/-- A set with a gap, of negative and positive integers. -/
theorem cluster_represents_gap
    : uncluster (cluster [3, -1, 0, 2]) = [-1, 0, 2, 3]
      ∧ cluster [3, -1, 0, 2] = [(-1, 0), (2, 3)] := by
  have represented := (@cluster_represents [3, -1, 0, 2] (by decide)).1
  refine ⟨represented.trans ?_, ?_⟩
  · decide
  · decide

end FastPokeEmu.Common
