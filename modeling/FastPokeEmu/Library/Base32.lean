import Mathlib.Data.List.Induction
import Mathlib.Data.Nat.Basic
import Mathlib.Tactic.Ring

/-! Text in base 32: five bytes make eight letters, and a padding character fills up the last
quantum.
-/

namespace Base32

open List

variable {bytes : List Nat} {ds : List Nat}

/-- Digits of a number in a given number of places, most significant first. -/
def digits (b : Nat) : Nat → Nat → List Nat
  | 0, _ => []
  | n + 1, x => digits b n (x / b) ++ [x % b]

def value (b : Nat) (ds : List Nat) : Nat := ds.foldl (fun x d => x * b + d) 0

section

variable {b : Nat}

@[simp]
theorem length_digits (b n x : Nat) : (digits b n x).length = n := by
  induction n generalizing x with
  | zero => rfl
  | succ n ih => simp [digits, ih]

theorem value_concat (ds : List Nat) (d : Nat) : value b (ds ++ [d]) = value b ds * b + d := by
  simp [value]

theorem value_replicate_zero (ds : List Nat) (j : Nat)
    : value b (ds ++ replicate j 0) = value b ds * b ^ j := by
  induction j with
  | zero => simp
  | succ j ih =>
    rw [replicate_succ', ← append_assoc, value_concat, ih, pow_succ]
    ring

theorem digits_lt (base : 0 < b) (n x : Nat) : ∀ d ∈ digits b n x, d < b := by
  induction n generalizing x with
  | zero => simp [digits]
  | succ n ih =>
    intro d mem
    rcases mem_append.mp mem with before | last
    · exact ih _ d before
    · rw [mem_singleton.mp last]
      exact Nat.mod_lt x base

theorem value_lt (small : ∀ d ∈ ds, d < b) : value b ds < b ^ ds.length := by
  induction ds using reverseRecOn with
  | nil => simp [value]
  | append_singleton ds d ih =>
    have before := ih (fun d' mem => small d' (mem_append_left _ mem))
    have last := small d (mem_append_right _ mem_cons_self)
    rw [value_concat, length_append, length_singleton, pow_succ]
    calc value b ds * b + d < value b ds * b + b := by omega
      _ = (value b ds + 1) * b := by ring
      _ ≤ b ^ ds.length * b := Nat.mul_le_mul_right _ before

theorem value_digits (base : 0 < b) {n x : Nat} (small : x < b ^ n)
    : value b (digits b n x) = x := by
  induction n generalizing x with
  | zero =>
    have none : x = 0 := by simpa using small
    simp [digits, value, none]
  | succ n ih =>
    have less : x / b < b ^ n := by
      rw [Nat.div_lt_iff_lt_mul base, ← pow_succ]
      exact small
    rw [digits, value_concat, ih less, Nat.div_add_mod']

theorem digits_value (small : ∀ d ∈ ds, d < b) : digits b ds.length (value b ds) = ds := by
  induction ds using reverseRecOn with
  | nil => rfl
  | append_singleton ds d ih =>
    have before := ih (fun d' mem => small d' (mem_append_left _ mem))
    have last := small d (mem_append_right _ mem_cons_self)
    have base : 0 < b := Nat.lt_of_le_of_lt (Nat.zero_le d) last
    have quotient : (value b ds * b + d) / b = value b ds := by
      rw [Nat.add_comm, Nat.add_mul_div_right _ _ base, Nat.div_eq_of_lt last, Nat.zero_add]
    have remainder : (value b ds * b + d) % b = d := by
      rw [Nat.add_comm, Nat.add_mul_mod_self_right, Nat.mod_eq_of_lt last]
    rw [length_append, length_singleton, value_concat, digits, quotient, remainder, before]

theorem digits_mul_pow (base : 0 < b) (k j x : Nat)
    : digits b (k + j) (x * b ^ j) = digits b k x ++ replicate j 0 := by
  induction j with
  | zero => simp
  | succ j ih =>
    have quotient : x * b ^ (j + 1) / b = x * b ^ j := by
      rw [pow_succ, ← Nat.mul_assoc, Nat.mul_div_cancel _ base]
    have remainder : x * b ^ (j + 1) % b = 0 := by
      rw [pow_succ, ← Nat.mul_assoc, Nat.mul_mod_left]
    rw [← Nat.add_assoc, digits, quotient, remainder, ih, replicate_succ', append_assoc]

end

def letter (d : Nat) : Char := if d < 26 then Char.ofNat (65 + d) else Char.ofNat (24 + d)

def letterValue (c : Char) : Option Nat :=
  if 'A' ≤ c ∧ c ≤ 'Z' then some (c.toNat - 65)
  else if '2' ≤ c ∧ c ≤ '7' then some (c.toNat - 24)
  else none

theorem letterValue_letter {d : Nat} (small : d < 32) : letterValue (letter d) = some d := by
  decide +revert

theorem mapM_letterValue (small : ∀ d ∈ ds, d < 32)
    : (ds.map letter).mapM letterValue = some ds := by
  induction ds with
  | nil => rfl
  | cons d ds ih =>
    have later := ih (fun d' mem => small d' (mem_cons_of_mem _ mem))
    rw [map_cons, mapM_cons, letterValue_letter (small d mem_cons_self), later]
    rfl

/-- Eight letters for five bytes. -/
def letters (bytes : List Nat) : List Char := (digits 32 8 (value 256 bytes)).map letter

/-- Letters for the bytes of an incomplete quantum. -/
def kept : Nat → Nat
  | 1 => 2
  | 2 => 4
  | 3 => 5
  | 4 => 7
  | _ => 0

def encodeBody : List Nat → List Char
  | a :: b :: c :: d :: e :: rest => letters [a, b, c, d, e] ++ encodeBody rest
  | last => (letters (last ++ replicate (5 - last.length) 0)).take (kept last.length)

/-- Padding characters for a number of bytes. -/
def padding (n : Nat) : Nat := (8 - kept (n % 5)) % 8

def encode (pad : Char) (bytes : List Nat) : List Char :=
  encodeBody bytes ++ replicate (padding bytes.length) pad

/-- Bytes of an incomplete quantum, by the number of padding characters. -/
def left : Nat → Option Nat
  | 0 => some 0
  | 1 => some 4
  | 3 => some 3
  | 4 => some 2
  | 6 => some 1
  | _ => none

def decodeBody (padchars : Nat) : List Char → Option (List Nat)
  | c0 :: c1 :: c2 :: c3 :: c4 :: c5 :: c6 :: c7 :: rest => do
      let ds ← [c0, c1, c2, c3, c4, c5, c6, c7].mapM letterValue
      let others ← decodeBody padchars rest
      some (digits 256 5 (value 32 ds) ++ others)
  | last => do
      let ds ← last.mapM letterValue
      let n ← left padchars
      some ((digits 256 5 (value 32 (ds ++ replicate (8 - ds.length) 0))).take n)

/-- Padding characters at the end. -/
def padchars (pad : Char) (cs : List Char) : Nat := (cs.reverse.takeWhile (· == pad)).length

def decode (pad : Char) (cs : List Char) : Option (List Nat) :=
  if cs.length % 8 = 0 then
    decodeBody (padchars pad cs) (cs.take (cs.length - padchars pad cs))
  else none

theorem decodeBody_letters (n : Nat) (eight : ds.length = 8) (small : ∀ d ∈ ds, d < 32)
    (rest : List Char)
    : decodeBody n (ds.map letter ++ rest)
      = (decodeBody n rest).map (digits 256 5 (value 32 ds) ++ ·) := by
  match ds, eight with
  | [d0, d1, d2, d3, d4, d5, d6, d7], _ =>
    have read := mapM_letterValue small
    simp only [map_cons, map_nil, cons_append, nil_append] at read ⊢
    rw [decodeBody, read]
    cases decodeBody n rest <;> rfl

theorem decodeBody_short (n : Nat) {cs : List Char} (short : cs.length < 8)
    : decodeBody n cs
      = (cs.mapM letterValue).bind fun ds => (left n).map fun k =>
          (digits 256 5 (value 32 (ds ++ replicate (8 - ds.length) 0))).take k := by
  unfold decodeBody
  split
  · simp only [length_cons] at short
    omega
  · cases cs.mapM letterValue with
    | none => rfl
    | some ds => cases left n <;> rfl

theorem digits_value_digits (five : bytes.length = 5) (small : ∀ d ∈ bytes, d < 256)
    : digits 256 5 (value 32 (digits 32 8 (value 256 bytes))) = bytes := by
  have bound : value 256 bytes < 32 ^ 8 := by
    have less := value_lt small
    rw [five] at less
    exact less
  rw [value_digits (by decide) bound, ← five, digits_value small]

/-- An incomplete quantum. The letters that are left out stand for zeros. -/
theorem decodeBody_last {last : List Nat} {n k r : Nat} (length : last.length = n)
    (small : ∀ d ∈ last, d < 256) (fewer : n ≤ 5) (short : k < 8)
    (fits : 256 ^ (5 - n) = 2 ^ r * 32 ^ (8 - k)) {pads : Nat} (counted : left pads = some n)
    : decodeBody pads ((letters (last ++ replicate (5 - n) 0)).take k) = some last := by
  have whole : value 256 (last ++ replicate (5 - n) 0)
      = value 256 last * 2 ^ r * 32 ^ (8 - k) := by
    rw [value_replicate_zero, fits, Nat.mul_assoc]
  have split : digits 32 8 (value 256 (last ++ replicate (5 - n) 0))
      = digits 32 k (value 256 last * 2 ^ r) ++ replicate (8 - k) 0 := by
    have places := digits_mul_pow (show 0 < 32 by decide) k (8 - k) (value 256 last * 2 ^ r)
    rw [Nat.add_sub_cancel' (Nat.le_of_lt short)] at places
    rw [whole, places]
  have taken : (letters (last ++ replicate (5 - n) 0)).take k
      = (digits 32 k (value 256 last * 2 ^ r)).map letter := by
    rw [letters, split, map_append, take_left' (by simp)]
  have five : (last ++ replicate (5 - n) 0).length = 5 := by
    simp [length]
    omega
  have bytes := digits_value_digits five (by
    intro d mem
    rcases mem_append.mp mem with inLast | zero
    · exact small d inLast
    · rw [(mem_replicate.mp zero).2]
      decide)
  rw [taken, decodeBody_short pads (by simpa using short),
    mapM_letterValue (digits_lt (by decide) k _), Option.bind_some, counted, Option.map_some,
    length_digits, ← split, bytes, take_left' length]

theorem decodeBody_encodeBody (small : ∀ d ∈ bytes, d < 256)
    : decodeBody (padding bytes.length) (encodeBody bytes) = some bytes := by
  induction bytes using encodeBody.induct with
  | case1 a b c d e rest ih =>
    have later := ih (fun x mem => small x (by simp [mem]))
    have same : padding (a :: b :: c :: d :: e :: rest).length = padding rest.length := by
      have quotient : (rest.length + 5) % 5 = rest.length % 5 := Nat.add_mod_right _ _
      simp only [padding, length_cons, Nat.add_assoc, quotient]
    have first (x : Nat) (mem : x ∈ [a, b, c, d, e]) : x < 256 := by
      refine small x ?_
      simp only [mem_cons, not_mem_nil, or_false] at mem ⊢
      tauto
    rw [encodeBody, same, letters, decodeBody_letters _ (length_digits 32 8 _)
      (digits_lt (by decide) 8 _), later, digits_value_digits rfl first]
    rfl
  | case2 last short =>
    match last, short with
    | [], _ =>
      exact decodeBody_last (n := 0) (k := 0) (r := 0) rfl small (by decide)
        (by decide) (by decide) rfl
    | [_], _ =>
      exact decodeBody_last (n := 1) (k := 2) (r := 2) rfl small (by decide)
        (by decide) (by decide) rfl
    | [_, _], _ =>
      exact decodeBody_last (n := 2) (k := 4) (r := 4) rfl small (by decide)
        (by decide) (by decide) rfl
    | [_, _, _], _ =>
      exact decodeBody_last (n := 3) (k := 5) (r := 1) rfl small (by decide)
        (by decide) (by decide) rfl
    | [_, _, _, _], _ =>
      exact decodeBody_last (n := 4) (k := 7) (r := 3) rfl small (by decide)
        (by decide) (by decide) rfl
    | a :: b :: c :: d :: e :: rest, short => exact (short a b c d e rest rfl).elim

/-- Letters, and nothing else, stand before the padding. -/
theorem letter_of_mem_encodeBody {c : Char} (mem : c ∈ encodeBody bytes)
    : ∃ d < 32, c = letter d := by
  have inLetters {bytes : List Nat} (inside : c ∈ letters bytes) : ∃ d < 32, c = letter d := by
    obtain ⟨d, digit, rfl⟩ := mem_map.mp inside
    exact ⟨d, digits_lt (by decide) 8 _ d digit, rfl⟩
  induction bytes using encodeBody.induct with
  | case1 a b c' d e rest ih =>
    rw [encodeBody] at mem
    rcases mem_append.mp mem with first | later
    · exact inLetters first
    · exact ih later
  | case2 last short =>
    rw [encodeBody] at mem
    · exact inLetters (mem_of_mem_take mem)
    · exact short

theorem length_encodeBody (bytes : List Nat)
    : ((encodeBody bytes).length + padding bytes.length) % 8 = 0 := by
  induction bytes using encodeBody.induct with
  | case1 a b c d e rest ih =>
    have quotient : (rest.length + 5) % 5 = rest.length % 5 := Nat.add_mod_right _ _
    simp only [padding] at ih
    simp only [encodeBody, letters, padding, length_cons, length_append,
      length_map, length_digits, Nat.add_assoc, quotient]
    omega
  | case2 last short =>
    match last, short with
    | [], _ => rfl
    | [_], _ => simp [encodeBody, letters, kept, padding]
    | [_, _], _ => simp [encodeBody, letters, kept, padding]
    | [_, _, _], _ => simp [encodeBody, letters, kept, padding]
    | [_, _, _, _], _ => simp [encodeBody, letters, kept, padding]
    | a :: b :: c :: d :: e :: rest, short => exact (short a b c d e rest rfl).elim

variable {pad : Char}

theorem padchars_encode (other : letterValue pad = none) (bytes : List Nat)
    : padchars pad (encode pad bytes) = padding bytes.length := by
  have stop : (encodeBody bytes).reverse.takeWhile (· == pad) = [] := by
    cases shape : (encodeBody bytes).reverse with
    | nil => rfl
    | cons c rest =>
      have mem : c ∈ encodeBody bytes := by
        rw [← mem_reverse, shape]
        exact mem_cons_self
      obtain ⟨d, small, rfl⟩ := letter_of_mem_encodeBody mem
      refine takeWhile_cons_of_neg ?_
      intro same
      rw [← beq_iff_eq.mp same, letterValue_letter small] at other
      cases other
  rw [padchars, encode, reverse_append, reverse_replicate, takeWhile_append_of_pos,
    stop, append_nil, length_replicate]
  intro c mem
  rw [(mem_replicate.mp mem).2]
  exact beq_self_eq_true _

theorem decode_encode (other : letterValue pad = none) (small : ∀ d ∈ bytes, d < 256)
    : decode pad (encode pad bytes) = some bytes := by
  have length : (encode pad bytes).length = (encodeBody bytes).length + padding bytes.length := by
    rw [encode, length_append, length_replicate]
  rw [decode, length, if_pos (length_encodeBody bytes), padchars_encode other,
    Nat.add_sub_cancel, encode, take_left' rfl, decodeBody_encodeBody small]

theorem mem_encode {c : Char} (mem : c ∈ encode pad bytes)
    : c = pad ∨ ∃ d < 32, c = letter d := by
  rcases mem_append.mp mem with inBody | filled
  · exact Or.inr (letter_of_mem_encodeBody inBody)
  · exact Or.inl (mem_replicate.mp filled).2

end Base32
