import Mathlib.Data.Finset.Card
import Mathlib.Order.Interval.Finset.Nat

/-! Runs of a machine whose steps depend on choices from outside, one for each step. -/

namespace Runs

variable {σ ι : Type*} (step : ι → σ → σ) (start : σ)

/-- The state after a number of steps. -/
def after (choices : Nat → ι) : Nat → σ
  | 0 => start
  | n + 1 => step (choices n) (after choices n)

variable {step start} {choices choices' : Nat → ι} {P : σ → Prop}

theorem invariant (init : P start) (keeps : ∀ i s, P s → P (step i s)) (n : Nat)
    : P (after step start choices n) := by
  induction n with
  | zero => exact init
  | succ n ih => exact keeps _ _ ih

theorem after_congr {n : Nat} (same : ∀ i < n, choices i = choices' i)
    : after step start choices n = after step start choices' n := by
  induction n with
  | zero => rfl
  | succ n ih =>
    have earlier := ih (fun i inside => same i (Nat.lt_succ_of_lt inside))
    simp only [after, earlier, same n n.lt_succ_self]

/-- A measure that falls until something happens: it happens. -/
theorem exists_reached {done : σ → Prop} (measure : σ → Nat)
    (holds : ∀ n, P (after step start choices n))
    (falls : ∀ i s, P s → ¬ done s → measure (step i s) < measure s)
    : ∃ n, done (after step start choices n) := by
  by_contra never
  have open_ (n : Nat) : ¬ done (after step start choices n) := fun here => never ⟨n, here⟩
  have bounded (n : Nat)
      : measure (after step start choices n) + n ≤ measure start := by
    induction n with
    | zero => exact Nat.le_refl _
    | succ n ih =>
      have less := falls (choices n) _ (holds n) (open_ n)
      simp only [after]
      omega
  have last := bounded (measure start + 1)
  omega

section

variable (stage turn : Nat → Nat) {n m : Nat}

/-- Between a low and a high value lies every value that is never jumped over. -/
theorem exists_between (k : Nat) (before : n ≤ m) (low : stage n < k) (high : k < stage m)
    (near : ∀ i, n ≤ i → i < m → stage i < k → stage (i + 1) ≤ k)
    : ∃ i, n < i ∧ i < m ∧ stage i = k := by
  induction m, before using Nat.le_induction with
  | base => omega
  | succ m le ih =>
    rcases Nat.lt_trichotomy (stage m) k with less | equal | greater
    · have := near m le m.lt_succ_self less
      omega
    · refine ⟨m, Nat.lt_of_le_of_ne le ?_, m.lt_succ_self, equal⟩
      rintro rfl
      omega
    · obtain ⟨i, later, earlier, found⟩ :=
        ih greater (fun i ge lt => near i ge (Nat.lt_succ_of_lt lt))
      exact ⟨i, later, Nat.lt_succ_of_lt earlier, found⟩

theorem le_of_same (turns : ∀ i, turn i ≤ turn (i + 1))
    (rises : ∀ i, turn (i + 1) = turn i → stage i ≤ stage (i + 1)) (before : n ≤ m)
    (same : turn n = turn m)
    : stage n ≤ stage m := by
  induction m, before using Nat.le_induction with
  | base => exact Nat.le_refl _
  | succ m le ih =>
    have first := monotone_nat_of_le_succ turns le
    have last := turns m
    exact Nat.le_trans (ih (by omega)) (rises m (by omega))

/-- Events that happen at most once while a bounded count stays are few. -/
theorem card_events_le {event : Nat → Prop} [DecidablePred event] {bound : Nat}
    (small : ∀ i, turn i < bound) (once : ∀ i j, event i → event j → i < j → turn i ≠ turn j)
    (n : Nat)
    : ((Finset.range n).filter event).card ≤ bound := by
  have image : ∀ i ∈ (Finset.range n).filter event, turn i ∈ Finset.range bound :=
    fun i _ => Finset.mem_range.mpr (small i)
  have injective : Set.InjOn turn ((Finset.range n).filter event : Finset Nat) := by
    intro i inI j inJ same
    have eventI := (Finset.mem_filter.mp inI).2
    have eventJ := (Finset.mem_filter.mp inJ).2
    rcases Nat.lt_trichotomy i j with less | equal | greater
    · exact (once i j eventI eventJ less same).elim
    · exact equal
    · exact (once j i eventJ eventI greater same.symm).elim
  simpa using Finset.card_le_card_of_injOn turn image injective

end

end Runs
