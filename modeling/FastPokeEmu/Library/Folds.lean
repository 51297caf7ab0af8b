import Mathlib.Data.List.Fold
import Mathlib.Data.List.Forall2
import Mathlib.Logic.Function.Basic

/-! Induction rules for loops over lists that may fail. -/

namespace Folds

open List Option

variable {α β σ : Type} {x : α} {γ : Type} {R : σ → σ → Prop} {ys : List β} {f : α → Option β}

theorem forall_mem_snoc {P : α → Prop} {xs : List α} (old : ∀ y ∈ xs, P y) (new : P x)
    : ∀ y ∈ xs ++ [x], P y :=
  forall_mem_append.mpr ⟨old, forall_mem_singleton.mpr new⟩

/-- An invariant of a loop that may fail, over the elements processed so far. -/
theorem foldlM_induction {P : List α → σ → Prop} {f : σ → α → Option σ} {xs : List α}
    {s s' : σ} (start : P [] s)
    (step
      : ∀ done a rest t t', xs = done ++ a :: rest → P done t → f t a = some t'
          → P (done ++ [a]) t')
    (res : xs.foldlM f s = some s')
    : P xs s' := by
  have general (todo done : List α) (t : σ) (whole : xs = done ++ todo) (here : P done t)
      (res : todo.foldlM f t = some s')
      : P xs s' := by
    induction todo generalizing done t with
    | nil =>
      cases res
      simpa [whole] using here
    | cons a rest ih =>
      rw [foldlM_cons] at res
      obtain ⟨next, first, later⟩ := bind_eq_some_iff.mp res
      exact ih (done ++ [a]) next (by simp [whole])
        (step done a rest t next whole here first) later
  exact general xs [] s rfl start res

theorem eq_length_of_range_eq {n a : Nat} {done rest : List Nat}
    (whole : List.range n = done ++ a :: rest)
    : a = done.length := by
  have here : (List.range n)[done.length]? = some a := by simp [whole]
  obtain ⟨_, same⟩ := List.getElem?_eq_some_iff.mp here
  simpa using same.symm

theorem foldlM_rel {f : σ → α → Option σ} {xs : List α} {s s' : σ} (refl : ∀ t, R t t)
    (trans : ∀ t t' t'', R t t' → R t' t'' → R t t'') (step : ∀ a t t', f t a = some t' → R t t')
    (res : xs.foldlM f s = some s')
    : R s s' :=
  foldlM_induction (P := fun _ t => R s t) (refl s)
    (fun _ a _ t t' _ sofar next => trans s t t' sofar (step a t t' next)) res

theorem rel_bind {τ γ δ : Type} {R : σ → τ → Prop} {S : γ → δ → Prop} {x : Option σ}
    {y : Option τ} {f : σ → Option γ} {g : τ → Option δ} (first : Option.Rel R x y)
    (next : ∀ s t, R s t → Option.Rel S (f s) (g t))
    : Option.Rel S (x.bind f) (y.bind g) := by
  cases first with
  | none => exact .none
  | some related => exact next _ _ related

theorem rel_foldlM {f g : σ → α → Option σ} (xs : List α) {s t : σ}
    (step : ∀ a ∈ xs, ∀ s t, R s t → Option.Rel R (f s a) (g t a)) (start : R s t)
    : Option.Rel R (xs.foldlM f s) (xs.foldlM g t) := by
  induction xs generalizing s t with
  | nil => exact .some start
  | cons a rest ih =>
    rw [foldlM_cons, foldlM_cons]
    refine rel_bind (step a mem_cons_self s t start) (fun s t related => ?_)
    exact ih (fun a mem => step a (mem_cons_of_mem _ mem)) related

/-- The turn for one element, with the state before it. -/
theorem foldlM_turn {f : σ → α → Option σ} {xs : List α} {s s' : σ} {a : α} (mem : a ∈ xs)
    (res : xs.foldlM f s = some s')
    : ∃ before after t t',
        xs = before ++ a :: after
        ∧ before.foldlM f s = some t
        ∧ f t a = some t'
        ∧ after.foldlM f t' = some s' := by
  obtain ⟨before, after, rfl⟩ := append_of_mem mem
  rw [foldlM_append] at res
  obtain ⟨t, earlier, later⟩ := bind_eq_some_iff.mp res
  rw [foldlM_cons] at later
  obtain ⟨t', here, rest⟩ := bind_eq_some_iff.mp later
  exact ⟨before, after, t, t', rfl, earlier, here, rest⟩

/-- A computation returns if its two parts do, the second one from any state. -/
theorem exists_bind {x : Option σ} {f : σ → Option γ} {P Q : Prop} (first : (∃ s, x = some s) ↔ P)
    (next : ∀ s, (∃ t, f s = some t) ↔ Q)
    : (∃ t, x.bind f = some t) ↔ P ∧ Q := by
  rw [← first]
  constructor
  · rintro ⟨t, made⟩
    obtain ⟨s, here, later⟩ := bind_eq_some_iff.mp made
    exact ⟨⟨s, here⟩, (next s).mp ⟨t, later⟩⟩
  · rintro ⟨⟨s, rfl⟩, holds⟩
    exact (next s).mpr holds

theorem exists_foldlM {f : σ → α → Option σ} {P : α → Prop} {xs : List α}
    (each : ∀ a ∈ xs, ∀ s, (∃ s', f s a = some s') ↔ P a) (s : σ)
    : (∃ s', xs.foldlM f s = some s') ↔ ∀ a ∈ xs, P a := by
  induction xs generalizing s with
  | nil => simp
  | cons a rest ih =>
    rw [foldlM_cons, forall_mem_cons]
    exact exists_bind (each a mem_cons_self s)
      (ih fun b mem => each b (mem_cons_of_mem _ mem))

theorem exists_ite {P : Prop} [Decidable P] {x : Option σ} (s : σ)
    : (∃ s', (if P then x else some s) = some s') ↔ (P → ∃ s', x = some s') := by
  by_cases holds : P
  · simp [holds]
  · simp [holds]

/-- What each result of a map that may fail has, the list of the results has. -/
theorem forall₂_of_mapM_mem {R : α → β → Prop} {xs : List α} (res : xs.mapM f = some ys)
    (each : ∀ x ∈ xs, ∀ y, f x = some y → R x y)
    : List.Forall₂ R xs ys := by
  induction xs generalizing ys with
  | nil =>
    cases res
    exact .nil
  | cons x rest ih =>
    rw [mapM_cons] at res
    obtain ⟨y, first, later⟩ := bind_eq_some_iff.mp res
    obtain ⟨tail, others, final⟩ := bind_eq_some_iff.mp later
    cases final
    refine .cons (each x mem_cons_self y first) (ih others ?_)
    exact fun x' mem => each x' (mem_cons_of_mem x mem)

theorem forall₂_of_mapM {xs : List α} (res : xs.mapM f = some ys)
    : List.Forall₂ (fun x y => f x = some y) xs ys :=
  forall₂_of_mapM_mem res (fun _ _ _ here => here)

theorem eq_filterMap_of_mapM {xs : List α} (res : xs.mapM f = some ys)
    : ys = xs.filterMap f := by
  induction xs generalizing ys with
  | nil =>
    cases res
    rfl
  | cons x rest ih =>
    rw [mapM_cons] at res
    obtain ⟨first, here, later⟩ := bind_eq_some_iff.mp res
    obtain ⟨tail, others, final⟩ := bind_eq_some_iff.mp later
    cases final
    rw [filterMap_cons_some here, ← ih others]

theorem mem_of_mapM {xs : List α} {y : β} (res : xs.mapM f = some ys)
    : y ∈ ys ↔ ∃ x ∈ xs, f x = some y := by
  rw [eq_filterMap_of_mapM res, mem_filterMap]

theorem exists_mapM {xs : List α} : (∃ ys, xs.mapM f = some ys) ↔ ∀ x ∈ xs, ∃ y, f x = some y := by
  induction xs with
  | nil => simp
  | cons x rest ih =>
    rw [forall_mem_cons, ← ih]
    simp only [mapM_cons]
    constructor
    · rintro ⟨ys, res⟩
      obtain ⟨first, here, later⟩ := bind_eq_some_iff.mp res
      obtain ⟨tail, others, _⟩ := bind_eq_some_iff.mp later
      exact ⟨⟨first, here⟩, tail, others⟩
    · rintro ⟨⟨first, here⟩, tail, others⟩
      exact ⟨first :: tail, by simp [here, others]⟩

theorem exists_flatten {f : α → Option (List β)} {xs : List α}
    : (∃ ys, (xs.mapM f).bind (fun parts => some parts.flatten) = some ys)
      ↔ ∀ x ∈ xs, ∃ part, f x = some part := by
  rw [← exists_mapM]
  constructor
  · rintro ⟨ys, res⟩
    obtain ⟨parts, mapped, _⟩ := bind_eq_some_iff.mp res
    exact ⟨parts, mapped⟩
  · rintro ⟨parts, mapped⟩
    exact ⟨parts.flatten, by rw [mapped, bind_some]⟩

theorem mem_of_flatten {f : α → Option (List β)} {xs : List α} {y : β}
    (res : (xs.mapM f).bind (fun parts => some parts.flatten) = some ys)
    : y ∈ ys ↔ ∃ x ∈ xs, ∃ part, f x = some part ∧ y ∈ part := by
  obtain ⟨parts, mapped, final⟩ := bind_eq_some_iff.mp res
  cases final
  simp only [mem_flatten, mem_of_mapM mapped]
  constructor
  · rintro ⟨part, ⟨x, mem, made⟩, inside⟩
    exact ⟨x, mem, part, made, inside⟩
  · rintro ⟨x, mem, part, made, inside⟩
    exact ⟨part, ⟨x, mem, made⟩, inside⟩

theorem mapM_congr {f g : α → Option β} {xs : List α} (same : ∀ x ∈ xs, f x = g x)
    : xs.mapM f = xs.mapM g := by
  induction xs with
  | nil => rfl
  | cons x rest ih =>
    have here := same x mem_cons_self
    have later := ih (fun y mem => same y (mem_cons_of_mem _ mem))
    rw [mapM_cons, mapM_cons, here, later]

theorem mapM_eq_some_map {g : α → β} {xs : List α} (each : ∀ x ∈ xs, f x = some (g x))
    : xs.mapM f = some (xs.map g) := by
  induction xs with
  | nil => rfl
  | cons x rest ih =>
    have here := each x mem_cons_self
    have later := ih (fun y mem => each y (mem_cons_of_mem _ mem))
    simp [mapM_cons, here, later]

theorem mapM_bind_mapM (f : α → Option β) (g : β → Option γ) (xs : List α)
    : (xs.mapM f).bind (List.mapM g) = xs.mapM (fun x => (f x).bind g) := by
  induction xs with
  | nil => rfl
  | cons x rest ih =>
    simp only [mapM_cons, bind_eq_bind, ← ih]
    cases f x with
    | none => rfl
    | some y =>
      cases rest.mapM f with
      | none => simp
      | some ys => simp [mapM_cons]

theorem mapM_mapIdx {f : Nat → α → β} {F : β → Option γ} {g : α → Option γ} {xs : List α}
    (same : ∀ i x, xs[i]? = some x → F (f i x) = g x)
    : (xs.mapIdx f).mapM F = xs.mapM g := by
  induction xs generalizing f with
  | nil => rfl
  | cons x rest ih =>
    have here : F (f 0 x) = g x := same 0 x rfl
    have later := ih (f := fun i => f (i + 1))
      (fun i y found => same (i + 1) y (by simpa using found))
    simp [mapIdx_cons, mapM_cons, here, later]

theorem mapM_mapIdx_some {f : Nat → α → β} {F : β → Option γ} {g : Nat → α → γ} {xs : List α}
    (each : ∀ i x, F (f i x) = some (g i x))
    : (xs.mapIdx f).mapM F = some (xs.mapIdx g) := by
  induction xs generalizing f g with
  | nil => rfl
  | cons x rest ih =>
    have later := ih (f := fun i => f (i + 1)) (g := fun i => g (i + 1)) (fun i => each (i + 1))
    simp [mapIdx_cons, mapM_cons, each, later]

theorem forall₂_mapIdx {f : Nat → α → β} {F : β → Option γ} {R : α → γ → Prop} {xs : List α}
    {ys : List γ} (res : (xs.mapIdx f).mapM F = some ys)
    (each : ∀ i x y, xs[i]? = some x → F (f i x) = some y → R x y)
    : List.Forall₂ R xs ys := by
  have related := forall₂_of_mapM res
  rw [forall₂_iff_get] at related ⊢
  refine ⟨length_mapIdx.symm.trans related.1, fun i inside inside' => ?_⟩
  have made := related.2 i (length_mapIdx.symm ▸ inside) inside'
  exact each i _ _ (by simp) (by simpa using made)

theorem mapM_of_forall₂ {xs : List α} (related : List.Forall₂ (fun x y => f x = some y) xs ys)
    : xs.mapM f = some ys := by
  induction related with
  | nil => rfl
  | cons first _ ih => simp [mapM_cons, first, ih]

theorem forall₂_left {R : α → β → Prop} {xs : List α} (related : List.Forall₂ R xs ys)
    (mem : x ∈ xs)
    : ∃ y ∈ ys, R x y := by
  induction related with
  | nil => cases mem
  | cons here _ ih =>
    rcases mem_cons.mp mem with rfl | there
    · exact ⟨_, mem_cons_self, here⟩
    · obtain ⟨y, inside, holds⟩ := ih there
      exact ⟨y, mem_cons_of_mem _ inside, holds⟩

theorem forall₂_iff_left {R S : α → β → Prop} {P : α → Prop} {xs : List α}
    (related : List.Forall₂ R xs ys) (each : ∀ x y, R x y → (S x y ↔ P x))
    : List.Forall₂ S xs ys ↔ ∀ x ∈ xs, P x := by
  induction related with
  | nil => simp
  | cons first _ ih => rw [forall₂_cons, forall_mem_cons, each _ _ first, ih]

/-- Only one of the numbered elements contributes. -/
theorem flatMap_mapIdx_single {f : Nat → α → β} {F : β → List γ} {xs : List α} {i : Nat}
    (found : xs[i]? = some x) (others : ∀ k y, xs[k]? = some y → k ≠ i → F (f k y) = [])
    : (xs.mapIdx f).flatMap F = F (f i x) := by
  induction xs generalizing f i with
  | nil => cases found
  | cons first rest ih =>
    rw [mapIdx_cons, flatMap_cons]
    cases i with
    | zero =>
      cases found
      have none : (rest.mapIdx (fun k => f (k + 1))).flatMap F = [] := by
        refine flatMap_eq_nil_iff.mpr ?_
        intro y mem
        obtain ⟨k, below, rfl⟩ := mem_mapIdx.mp mem
        exact others (k + 1) _ (by simp [below]) (by omega)
      rw [none, append_nil]
    | succ i =>
      have skip : F (f 0 first) = [] := others 0 first rfl (by omega)
      rw [skip, nil_append]
      exact ih found (fun k y here differ => others (k + 1) y here (by omega))

theorem mapM_perm {xs xs' : List α} (perm : xs.Perm xs') (res : xs.mapM f = some ys)
    : ∃ ys', xs'.mapM f = some ys' ∧ ys.Perm ys' := by
  have total : ∀ x ∈ xs', ∃ y, f x = some y := by
    intro x mem
    exact exists_mapM.mp ⟨ys, res⟩ x (perm.mem_iff.mpr mem)
  obtain ⟨ys', result'⟩ := exists_mapM.mpr total
  refine ⟨ys', result', ?_⟩
  rw [eq_filterMap_of_mapM res, eq_filterMap_of_mapM result']
  exact perm.filterMap f

theorem flatMap_range_blocks (b w a n : Nat)
    : (List.range' a n).flatMap (fun i => List.range' (b + i * w) w)
      = List.range' (b + a * w) (n * w) := by
  induction n generalizing a with
  | zero => simp
  | succ n ih =>
    rw [List.range'_succ, flatMap_cons, ih, Nat.succ_mul a, Nat.succ_mul n,
      Nat.add_comm (n * w), ← Nat.add_assoc, List.range'_append_1]

/-- Only one element, known by its key, gives anything. -/
theorem flatMap_of_unique {κ : Type} {key : α → κ} {g : α → List β} {xs : List α}
    (distinct : (xs.map key).Nodup) (mem : x ∈ xs)
    (others : ∀ y ∈ xs, key y ≠ key x → g y = [])
    : xs.flatMap g = g x := by
  induction xs with
  | nil => cases mem
  | cons y ys ih =>
    rw [map_cons, nodup_cons] at distinct
    have later (z : α) (inside : z ∈ ys) (apart : key z ≠ key x) : g z = [] :=
      others z (mem_cons_of_mem _ inside) apart
    rw [flatMap_cons]
    rcases mem_cons.mp mem with rfl | inside
    · have rest : ys.flatMap g = [] := by
        refine flatMap_eq_nil_iff.mpr fun z inside => later z inside fun same => ?_
        exact distinct.1 (same ▸ mem_map_of_mem inside)
      rw [rest, append_nil]
    · have first : g y = [] := by
        refine others y mem_cons_self fun same => ?_
        exact distinct.1 (same ▸ mem_map_of_mem inside)
      rw [first, nil_append, ih distinct.2 inside later]

/-- A loop that writes one buffer again and again, and each time overwrites what the last
step wrote, gives what it would give with a new buffer for each step.
-/
theorem foldl_overwrite {f : σ → α → σ} (again : ∀ s a b, f (f s a) b = f s b) (xs : List α)
    (s : σ)
    : (xs.foldl (fun written a => (written.1 ++ [f written.2 a], f written.2 a)) ([], s)).1
      = xs.map (f s) := by
  have step (done : List σ) (t : σ) (same : ∀ a, f t a = f s a)
      : (xs.foldl (fun written a => (written.1 ++ [f written.2 a], f written.2 a)) (done, t)).1
        = done ++ xs.map (f s) := by
    induction xs generalizing done t with
    | nil => simp
    | cons a rest ih =>
      have next : ∀ b, f (f t a) b = f s b := fun b => (again t a b).trans (same b)
      rw [foldl_cons, ih _ _ next, map_cons, same, append_assoc]
      rfl
  exact (step [] s (fun _ => rfl)).trans (nil_append _)

section

variable {κ : Type} [DecidableEq κ] {xs : List α} {key : α → κ} {value : α → β}

theorem foldl_update_of_ne (m : κ → β) {k : κ} (other : ∀ x ∈ xs, key x ≠ k)
    : xs.foldl (fun m x => Function.update m (key x) (value x)) m k = m k := by
  induction xs generalizing m with
  | nil => rfl
  | cons x rest ih =>
    rw [foldl_cons, ih _ (fun y mem => other y (mem_cons_of_mem x mem)),
      Function.update_of_ne (other x mem_cons_self).symm]

/-- A loop that stores no two different values at one place leaves each of them there. -/
theorem foldl_update_of_mem (m : κ → β)
    (distinct : ∀ x ∈ xs, ∀ y ∈ xs, key x = key y → value x = value y) (mem : x ∈ xs)
    : xs.foldl (fun m x => Function.update m (key x) (value x)) m (key x) = value x := by
  induction xs generalizing m x with
  | nil => cases mem
  | cons y rest ih =>
    have inner : ∀ x ∈ rest, ∀ y ∈ rest, key x = key y → value x = value y :=
      fun x hx z hz => distinct x (mem_cons_of_mem y hx) z (mem_cons_of_mem y hz)
    rw [foldl_cons]
    by_cases later : ∃ z ∈ rest, key z = key x
    · obtain ⟨z, inside, same⟩ := later
      rw [← same, ih _ inner inside]
      exact distinct z (mem_cons_of_mem y inside) x mem same
    · have other : ∀ z ∈ rest, key z ≠ key x := fun z inside same => later ⟨z, inside, same⟩
      have here : x = y := (mem_cons.mp mem).resolve_right (fun inside => other x inside rfl)
      rw [foldl_update_of_ne _ other, here, Function.update_self]

end

theorem foldl_again {f : α → β → α} [RightCommutative f] (again : ∀ a x, f (f a x) x = f a x)
    (xs : List β) (a : α)
    : xs.foldl f (xs.foldl f a) = xs.foldl f a := by
  induction xs generalizing a with
  | nil => rfl
  | cons x xs ih =>
    rw [foldl_cons, foldl_cons, ← foldl_cons_eq_apply_foldl (v := f), foldl_cons, again, ih]

end Folds
