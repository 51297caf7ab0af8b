import Mathlib.Data.List.Induction
import Mathlib.Data.List.Nodup

/-! Association lists read by `List.lookup`. -/

namespace Assoc

open List

variable {κ α : Type} [BEq κ] [LawfulBEq κ] {items : List (κ × α)} {k : κ} {a : α}

theorem mem_of_lookup (found : items.lookup k = some a) : (k, a) ∈ items := by
  obtain ⟨before, after, whole, _⟩ := lookup_eq_some_iff.mp found
  rw [whole]
  exact mem_append_right _ mem_cons_self

theorem isSome_lookup_iff : (items.lookup k).isSome ↔ k ∈ items.map Prod.fst := by
  induction items with
  | nil => simp
  | cons item rest ih =>
    rw [lookup_cons, map_cons, mem_cons]
    by_cases same : k = item.1
    · simp [same]
    · have other : (k == item.1) = false := beq_eq_false_iff_ne.mpr same
      simp [other, same, ih]

theorem lookup_eq_none_iff : items.lookup k = none ↔ k ∉ items.map Prod.fst := by
  rw [← isSome_lookup_iff, Option.not_isSome_iff_eq_none]

theorem lookup_eq_some_iff_mem (distinct : (items.map Prod.fst).Nodup)
    : items.lookup k = some a ↔ (k, a) ∈ items := by
  refine ⟨mem_of_lookup, fun mem => ?_⟩
  obtain ⟨b, found⟩ := Option.isSome_iff_exists.mp
    (isSome_lookup_iff.mpr (mem_map_of_mem (f := Prod.fst) mem))
  have same := inj_on_of_nodup_map distinct mem (mem_of_lookup found) rfl
  cases same
  exact found

section

variable [DecidableEq κ]

/-- Replace the binding of a key, or add one. -/
def put (items : List (κ × α)) (item : κ × α) : List (κ × α) := item :: items.filter (·.1 ≠ item.1)

omit [BEq κ] [LawfulBEq κ]

theorem mem_put {item other : κ × α}
    : other ∈ put items item ↔ other = item ∨ (other ∈ items ∧ other.1 ≠ item.1) := by
  simp [put]

theorem nodup_foldl_put (writes : List (κ × α)) (distinct : (items.map Prod.fst).Nodup)
    : ((writes.foldl put items).map Prod.fst).Nodup := by
  induction writes generalizing items with
  | nil => exact distinct
  | cons item writes ih =>
    apply ih
    rw [put, map_cons, nodup_cons]
    refine ⟨?_, distinct.sublist (filter_sublist.map _)⟩
    intro mem
    obtain ⟨other, left, same⟩ := mem_map.mp mem
    exact of_decide_eq_true (mem_filter.mp left).2 same

theorem mem_foldl_put_of_last {writes : List (κ × α)} {item : κ × α}
    (last : ∀ other ∈ writes, other.1 ≠ item.1) (mem : item ∈ items)
    : item ∈ writes.foldl put items := by
  induction writes generalizing items with
  | nil => exact mem
  | cons other writes ih =>
    refine ih (fun later inside => last later (mem_cons_of_mem _ inside)) ?_
    exact mem_put.mpr (.inr ⟨mem, (last other mem_cons_self).symm⟩)

theorem mem_foldl_put_of_nodup {writes : List (κ × α)} {item : κ × α}
    (distinct : (writes.map Prod.fst).Nodup) (mem : item ∈ writes)
    : item ∈ writes.foldl put items := by
  induction writes generalizing items with
  | nil => cases mem
  | cons first writes ih =>
    rw [map_cons, nodup_cons] at distinct
    rcases mem_cons.mp mem with rfl | later
    · rw [foldl_cons]
      refine mem_foldl_put_of_last (fun other inside same => ?_) (mem_put.mpr (.inl rfl))
      exact distinct.1 (mem_map.mpr ⟨other, inside, same⟩)
    · exact ih distinct.2 later

/-- If no key is written with two values, all writes are there in the end. -/
theorem mem_foldl_put_iff {writes : List (κ × α)}
    (functional : ∀ p ∈ writes, ∀ q ∈ writes, p.1 = q.1 → p = q) (item : κ × α)
    : item ∈ writes.foldl put [] ↔ item ∈ writes := by
  induction writes using reverseRecOn with
  | nil => rfl
  | append_singleton writes last ih =>
    have earlier := ih (fun p hp q hq =>
      functional p (mem_append_left _ hp) q (mem_append_left _ hq))
    rw [foldl_append, foldl_cons, foldl_nil, mem_put, earlier, mem_append, mem_singleton, or_comm]
    constructor
    · intro inside
      exact inside.imp_left And.left
    · intro inside
      rcases inside with mem | same
      · by_cases key : item.1 = last.1
        · exact .inr (functional item (mem_append_left _ mem) last
            (mem_append_right _ mem_cons_self) key)
        · exact .inl ⟨mem, key⟩
      · exact .inr same

end

end Assoc
