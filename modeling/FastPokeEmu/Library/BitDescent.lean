import Mathlib.Data.BitVec

/-! Moving a bit vector towards a goal, one bit at a time from the lowest on, as long as a
predicate keeps holding.
-/

namespace BitDescent

variable {w : Nat} (holds : BitVec w → Bool) (start goal : BitVec w)

/-- The vector before bit `i` is visited. Each differing bit is changed if the predicate then
holds.
-/
def turn : Nat → BitVec w
  | 0 => start
  | i + 1 =>
    if (start ^^^ goal).getLsbD i && holds (turn i ^^^ .twoPow w i)
    then turn i ^^^ .twoPow w i
    else turn i

/-- A bit is changed when it is visited. -/
def accepts (i : Nat) : Bool :=
  (start ^^^ goal).getLsbD i && holds (turn holds start goal i ^^^ .twoPow w i)

variable {holds start goal}

theorem turn_succ (i : Nat)
    : turn holds start goal (i + 1)
      = if accepts holds start goal i then turn holds start goal i ^^^ .twoPow w i
        else turn holds start goal i := rfl

theorem holds_turn (init : holds start = true) (i : Nat)
    : holds (turn holds start goal i) = true := by
  induction i with
  | zero => exact init
  | succ i ih =>
    rw [turn_succ]
    split
    next accepted =>
      exact (Bool.and_eq_true_iff.mp accepted).2
    · exact ih

theorem getLsbD_flip (v : BitVec w) (i j : Nat) (inside : i < w)
    : (v ^^^ .twoPow w i).getLsbD j = if i = j then !v.getLsbD j else v.getLsbD j := by
  rw [BitVec.getLsbD_xor, BitVec.getLsbD_twoPow]
  by_cases same : i = j
  · subst same
    simp [inside]
  · simp [same]

theorem accepts_lt {i : Nat} (accepted : accepts holds start goal i = true) : i < w := by
  by_contra outside
  have differs := (Bool.and_eq_true_iff.mp accepted).1
  rw [BitVec.getLsbD_of_ge _ i (Nat.not_lt.mp outside)] at differs
  cases differs

theorem not_eq_of_xor {a b : Bool} (differs : (a ^^ b) = true) : (!a) = b := by
  cases a <;> cases b <;> simp at differs ⊢

/-- Bits that have been accepted are those of the goal, and all others the original ones. -/
theorem getLsbD_turn (n j : Nat)
    : (turn holds start goal n).getLsbD j
      = if j < n ∧ accepts holds start goal j = true then goal.getLsbD j
        else start.getLsbD j := by
  induction n with
  | zero => simp [turn]
  | succ n ih =>
    rw [turn_succ]
    cases accepted : accepts holds start goal n with
    | true =>
      have inside := accepts_lt accepted
      rw [if_pos rfl, getLsbD_flip _ _ _ inside, ih]
      by_cases same : n = j
      · subst same
        have differs := (Bool.and_eq_true_iff.mp accepted).1
        rw [BitVec.getLsbD_xor] at differs
        simp only [if_true, Nat.lt_irrefl, false_and, if_false, Nat.lt_succ_self, accepted,
          and_self]
        exact not_eq_of_xor differs
      · have lt : j < n + 1 ↔ j < n := by omega
        simp only [if_neg same, lt]
    | false =>
      rw [if_neg Bool.false_ne_true, ih]
      by_cases same : n = j
      · subst same
        simp [accepted]
      · have lt : j < n + 1 ↔ j < n := by omega
        simp only [lt]

theorem getLsbD_turn_or (holds : BitVec w → Bool) (start goal : BitVec w) (n j : Nat)
    : (turn holds start goal n).getLsbD j = start.getLsbD j
      ∨ (turn holds start goal n).getLsbD j = goal.getLsbD j := by
  rw [getLsbD_turn]
  split
  · exact .inr rfl
  · exact .inl rfl

/-- Bits that still differ from the goal were not visited, or were rejected. -/
theorem getLsbD_turn_ne_iff (n j : Nat)
    : (turn holds start goal n).getLsbD j ≠ goal.getLsbD j
      ↔ (start ^^^ goal).getLsbD j = true
        ∧ (n ≤ j ∨ holds (turn holds start goal j ^^^ .twoPow w j) = false) := by
  have differs : (start ^^^ goal).getLsbD j = true ↔ start.getLsbD j ≠ goal.getLsbD j := by
    rw [BitVec.getLsbD_xor]
    cases start.getLsbD j <;> cases goal.getLsbD j <;> simp
  rw [getLsbD_turn, differs]
  by_cases accepted : j < n ∧ accepts holds start goal j = true
  · have kept := (Bool.and_eq_true_iff.mp accepted.2).2
    rw [if_pos accepted]
    simp only [ne_eq, not_true_eq_false, false_iff, not_and, not_or]
    intro _
    exact ⟨Nat.not_le.mpr accepted.1, by rw [kept]; exact Bool.noConfusion⟩
  · rw [if_neg accepted]
    refine ⟨fun other => ⟨other, ?_⟩, And.left⟩
    rcases Nat.lt_or_ge j n with visited | later
    · have rejected : accepts holds start goal j ≠ true := fun yes => accepted ⟨visited, yes⟩
      rw [accepts, differs.mpr other, Bool.true_and] at rejected
      exact .inr (Bool.not_eq_true _ ▸ rejected)
    · exact .inl later

end BitDescent
