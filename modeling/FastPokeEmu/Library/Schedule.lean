import Mathlib.Data.List.Basic

/-! Actions that run one after the other, each with a specification that may rely on what the
earlier ones did.
-/

namespace Schedule

variable {σ α : Type*} (run : σ → α → σ) (does : α → σ → σ → Prop)

/-- Every action of the list does what it is specified to do, in the state it starts in. -/
def Follows (s : σ) (actions : List α) : Prop :=
  ∀ done a rest,
    actions = done ++ a :: rest → does a (done.foldl run s) (run (done.foldl run s) a)

variable {run does} {s : σ} {actions done rest : List α} {a : α}

theorem Follows.append_left (follows : Follows run does s (done ++ rest))
    : Follows run does s done := by
  intro before a after split
  exact follows before a (after ++ rest) (by rw [split]; simp)

theorem Follows.append_right (follows : Follows run does s (done ++ rest))
    : Follows run does (done.foldl run s) rest := by
  intro before a after split
  have here := follows (done ++ before) a after (by rw [split]; simp)
  rwa [List.foldl_append] at here

/-- It suffices that an action does its part if all earlier ones did. -/
theorem follows_of_step
    (step
      : ∀ done a rest,
          actions = done ++ a :: rest
          → Follows run does s done
          → does a (done.foldl run s) (run (done.foldl run s) a))
    : Follows run does s actions := by
  have upTo (n : Nat) (done rest : List α) (length : done.length = n)
      (split : actions = done ++ rest)
      : Follows run does s done := by
    induction n using Nat.strongRecOn generalizing done rest with
    | _ n ih =>
      intro before a after shape
      have whole : actions = before ++ a :: (after ++ rest) := by rw [split, shape]; simp
      refine step before a _ whole (ih before.length ?_ before _ rfl whole)
      rw [← length, shape]
      simp
  exact upTo _ actions [] rfl (by simp)

theorem Follows.keeps {P : σ → Prop} (follows : Follows run does s actions)
    (step : ∀ a ∈ actions, ∀ s s', does a s s' → P s → P s') (start : P s)
    : P (actions.foldl run s) := by
  induction actions generalizing s with
  | nil => exact start
  | cons a rest ih =>
    have first : does a s (run s a) := follows [] a rest rfl
    have whole : Follows run does s ([a] ++ rest) := follows
    exact ih whole.append_right (fun b mem => step b (List.mem_cons_of_mem _ mem))
      (step a List.mem_cons_self _ _ first start)

theorem Follows.last {P : σ → Prop} (follows : Follows run does s (done ++ a :: rest))
    (sets : does a (done.foldl run s) (run (done.foldl run s) a) → P (run (done.foldl run s) a))
    (step : ∀ b ∈ rest, ∀ s s', does b s s' → P s → P s')
    : P ((done ++ a :: rest).foldl run s) := by
  have here := sets (follows done a rest rfl)
  have later : Follows run does ((done ++ [a]).foldl run s) rest :=
    Follows.append_right (by simpa using follows)
  have final := later.keeps step (by simpa using here)
  simpa using final

end Schedule
