import Mathlib.Data.Nat.Digits.Lemmas

/-! Numerals as text: printing in a base, padding with zeros, and reading back.
-/

namespace Numerals

open List

/-- Digits of a number, most significant first. -/
def print (b n : Nat) : List Char :=
  if n = 0 then ['0'] else (Nat.digits b n).reverse.map Nat.digitChar

/-- Zeros in front, up to a width. -/
def pad (w : Nat) (cs : List Char) : List Char := replicate (w - cs.length) '0' ++ cs

def digitValue (c : Char) : Option Nat :=
  if '0' ≤ c ∧ c ≤ '9' then some (c.toNat - '0'.toNat)
  else if 'a' ≤ c ∧ c ≤ 'f' then some (c.toNat - 'a'.toNat + 10)
  else if 'A' ≤ c ∧ c ≤ 'F' then some (c.toNat - 'A'.toNat + 10)
  else none

/-- One more digit of a numeral. -/
def parseDigit (b n : Nat) (c : Char) : Option Nat :=
  match digitValue c with
  | some d => if d < b then some (n * b + d) else none
  | none => none

/-- Read a numeral; there is none without a digit. -/
def parse (b : Nat) (cs : List Char) : Option Nat :=
  if cs = [] then none else cs.foldlM (parseDigit b) 0

variable {b : Nat}

theorem digitValue_digitChar {d : Nat} (small : d < 16)
    : digitValue (Nat.digitChar d) = some d := by
  decide +revert

theorem parseDigit_digitChar {d : Nat} (n : Nat) (small : d < b) (bound : b ≤ 16)
    : parseDigit b n (Nat.digitChar d) = some (n * b + d) := by
  simp [parseDigit, digitValue_digitChar (Nat.lt_of_lt_of_le small bound), small]

theorem foldlM_digits {ds : List Nat} (small : ∀ d ∈ ds, d < b) (bound : b ≤ 16) (n : Nat)
    : (ds.map Nat.digitChar).foldlM (parseDigit b) n
      = some (n * b ^ ds.length + Nat.ofDigits b ds.reverse) := by
  induction ds generalizing n with
  | nil => simp
  | cons d rest ih =>
    have here := parseDigit_digitChar n (small d mem_cons_self) bound
    have later := ih (fun x mem => small x (mem_cons_of_mem _ mem)) (n * b + d)
    rw [map_cons, foldlM_cons, here]
    simp only [Option.bind_eq_bind, Option.bind_some, later, reverse_cons,
      Nat.ofDigits_append, length_reverse, Nat.ofDigits_singleton, length_cons]
    congr 1
    ring

theorem print_ne_nil (b n : Nat) : print b n ≠ [] := by
  unfold print
  split
  · simp
  next pos =>
    simpa using Nat.digits_ne_nil_iff_ne_zero.mpr pos

theorem parse_print (base : 2 ≤ b) (bound : b ≤ 16) (n : Nat) : parse b (print b n) = some n := by
  rw [parse, if_neg (print_ne_nil b n), print]
  split
  next zero =>
    have first : parseDigit b 0 '0' = some (0 * b + 0) :=
      parseDigit_digitChar 0 (show 0 < b by omega) bound
    simp [first, zero]
  · rw [foldlM_digits _ bound]
    · simp [Nat.ofDigits_digits]
    · intro d mem
      exact Nat.digits_lt_base (by omega) (mem_reverse.mp mem)

theorem parse_pad (base : 1 ≤ b) {cs : List Char} (some : cs ≠ []) (w : Nat)
    : parse b (pad w cs) = parse b cs := by
  have zeros (k : Nat) : (replicate k '0').foldlM (parseDigit b) 0 = Option.some 0 := by
    induction k with
    | zero => rfl
    | succ k ih =>
      have first : parseDigit b 0 '0' = Option.some 0 := by
        have zero : digitValue '0' = Option.some 0 := rfl
        have pos : b ≠ 0 := by omega
        simp [parseDigit, zero, Nat.pos_of_ne_zero pos]
      rw [replicate_succ, foldlM_cons, first]
      exact ih
  rw [parse, parse, if_neg some, if_neg (by simp [pad, some]), pad, foldlM_append, zeros]
  rfl

theorem pad_print_injective (base : 2 ≤ b) (bound : b ≤ 16) (w : Nat)
    : Function.Injective (fun n => pad w (print b n)) := by
  intro m n same
  have read := congrArg (parse b) same
  simp only [parse_pad (show 1 ≤ b by omega) (print_ne_nil b _), parse_print base bound] at read
  exact Option.some.inj read

end Numerals
