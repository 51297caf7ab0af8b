import Mathlib.Logic.Function.Basic

/-! Multi-byte accesses to byte-addressed memory.
The bytes of an access sit at an arbitrary sequence of addresses, so that an access may
go through any address translation.
-/

namespace ByteMemory

abbrev Byte := BitVec 8

variable {α : Type} [DecidableEq α] {w : Nat}

/-- The little-endian value of the first `n` bytes. -/
def assemble (w : Nat) : Nat → (Nat → Byte) → BitVec w
  | 0, _ => 0
  | n + 1, bytes => assemble w n bytes ||| ((bytes n).setWidth w <<< (8 * n))

def byteAt (value : BitVec w) (i : Nat) : Byte := value.extractLsb' (8 * i) 8

/-- Read `n` bytes, the `i`-th one at `place i`. -/
def read (w : Nat) (mem : α → Byte) (place : Nat → α) (n : Nat) : BitVec w :=
  assemble w n (fun i => mem (place i))

/-- Write the low `n` bytes of a value, the `i`-th one at `place i`. -/
def write (mem : α → Byte) (place : Nat → α) (value : BitVec w) : Nat → α → Byte
  | 0 => mem
  | n + 1 => fun a => if a = place n then byteAt value n else write mem place value n a

theorem assemble_congr {n : Nat} {left right : Nat → Byte}
    (agree : ∀ i < n, left i = right i)
    : assemble w n left = assemble w n right := by
  induction n with
  | zero => rfl
  | succ n ih => rw [assemble, assemble, ih (fun i small => agree i (by omega)), agree n (by omega)]

/-- Each bit of the value comes from one byte, by induction on the number of bytes. -/
theorem getLsbD_assemble {n : Nat} (fits : 8 * n ≤ w) (bytes : Nat → Byte) (k : Nat)
    : (assemble w n bytes).getLsbD k = (decide (k < 8 * n) && (bytes (k / 8)).getLsbD (k % 8)) := by
  induction n with
  | zero => simp [assemble]
  | succ n ih =>
    rw [assemble, BitVec.getLsbD_or, ih (by omega), BitVec.getLsbD_shiftLeft,
      BitVec.getLsbD_setWidth]
    by_cases below : k < 8 * n
    · have inside : k < 8 * (n + 1) := by omega
      simp [below, inside]
    · by_cases inside : k < 8 * (n + 1)
      · have quotient : k / 8 = n := by omega
        have remainder : k - 8 * n = k % 8 := by omega
        have bound : k < w := by omega
        have bound' : k % 8 < w := by omega
        simp [below, inside, quotient, remainder, bound, bound']
      · have high : 8 ≤ k - 8 * n := by omega
        simp [below, inside, BitVec.getLsbD_of_ge _ _ high]

theorem getLsbD_assemble_byteAt {n : Nat} (fits : 8 * n ≤ w) (value : BitVec w) (k : Nat)
    : (assemble w n (byteAt value)).getLsbD k = (decide (k < 8 * n) && value.getLsbD k) := by
  rw [getLsbD_assemble fits]
  have whole : 8 * (k / 8) + k % 8 = k := by omega
  have small : k % 8 < 8 := Nat.mod_lt _ (by decide)
  simp [byteAt, whole, small]

theorem assemble_byteAt {n : Nat} (fits : 8 * n = w) (value : BitVec w)
    : assemble w n (byteAt value) = value := by
  apply BitVec.eq_of_getLsbD_eq
  intro k bound
  rw [getLsbD_assemble_byteAt (by omega)]
  simp [show k < 8 * n by omega]

theorem byteAt_assemble {n : Nat} (fits : 8 * n ≤ w) (bytes : Nat → Byte) {i : Nat}
    (inside : i < n)
    : byteAt (assemble w n bytes) i = bytes i := by
  apply BitVec.eq_of_getLsbD_eq
  intro k bound
  have quotient : (8 * i + k) / 8 = i := by omega
  have remainder : (8 * i + k) % 8 = k := by omega
  have position : 8 * i + k < 8 * n := by omega
  simp [byteAt, getLsbD_assemble fits, quotient, remainder, position, bound]

theorem byteAt_ext {n : Nat} (fits : 8 * n = w) {left right : BitVec w}
    (agree : ∀ i < n, byteAt left i = byteAt right i)
    : left = right := by
  rw [← assemble_byteAt fits left, ← assemble_byteAt fits right]
  exact assemble_congr agree

omit [DecidableEq α] in
theorem read_congr {mem other : α → Byte} {place place' : Nat → α} {n : Nat}
    (agree : ∀ i < n, mem (place i) = other (place' i))
    : read w mem place n = read w other place' n :=
  assemble_congr agree

theorem write_other (mem : α → Byte) {place : Nat → α} (value : BitVec w) {n : Nat}
    {a : α} (away : ∀ i < n, a ≠ place i)
    : write mem place value n a = mem a := by
  induction n with
  | zero => rfl
  | succ n ih =>
    simp only [write, if_neg (away n (by omega))]
    exact ih (fun i small => away i (by omega))

theorem write_place (mem : α → Byte) {place : Nat → α} (value : BitVec w) {n i : Nat}
    (inside : i < n) (distinct : ∀ j < n, place i = place j → i = j)
    : write mem place value n (place i) = byteAt value i := by
  induction n with
  | zero => omega
  | succ n ih =>
    by_cases last : i = n
    · simp only [write, last, if_true]
    · simp only [write, if_neg (fun same => last (distinct n (by omega) same))]
      exact ih (by omega) (fun j small => distinct j (by omega))

theorem write_congr (mem : α → Byte) {place place' : Nat → α} (value : BitVec w) {n : Nat}
    (agree : ∀ i < n, place i = place' i)
    : write mem place value n = write mem place' value n := by
  induction n with
  | zero => rfl
  | succ n ih =>
    funext a
    simp only [write, agree n (by omega), ih (fun i small => agree i (by omega))]

theorem read_write_other {mem : α → Byte} {place place' : Nat → α} {v : Nat}
    (value : BitVec v) {n m : Nat} (away : ∀ i < m, ∀ j < n, place' i ≠ place j)
    : read w (write mem place value n) place' m = read w mem place' m :=
  read_congr (fun i small => write_other mem value (away i small))

theorem read_write (mem : α → Byte) {place : Nat → α} (value : BitVec w) {n : Nat}
    (distinct : ∀ i < n, ∀ j < n, place i = place j → i = j)
    : read w (write mem place value n) place n = assemble w n (byteAt value) :=
  assemble_congr (fun i small => write_place mem value small (distinct i small))

theorem read_write_all (mem : α → Byte) {place : Nat → α} (value : BitVec w) {n : Nat}
    (fits : 8 * n = w) (distinct : ∀ i < n, ∀ j < n, place i = place j → i = j)
    : read w (write mem place value n) place n = value := by
  rw [read_write mem value distinct, assemble_byteAt fits]

/-- Words of four bytes, no byte of which is shared. -/
structure Words (κ α : Type) where
  place : κ → Nat → α
  distinct
    : ∀ k k' i i', i < 4 → i' < 4 → place k i = place k' i' → k = k' ∧ i = i'

namespace Words

variable {κ : Type} (words : Words κ α)

/-- The word under a key. -/
def value (mem : α → Byte) (k : κ) : BitVec 32 := read 32 mem (words.place k) 4

/-- The address belongs to none of the words. -/
def Free (a : α) : Prop := ∀ k, ∀ i < 4, a ≠ words.place k i

theorem value_write [DecidableEq κ] (mem : α → Byte) (k : κ) (v : BitVec 32)
    : words.value (write mem (words.place k) v 4) = Function.update (words.value mem) k v := by
  funext k'
  by_cases same : k' = k
  · subst same
    rw [Function.update_self]
    exact read_write_all mem v rfl (fun i hi j hj equal => (words.distinct k' k' i j hi hj equal).2)
  · rw [Function.update_of_ne same]
    exact read_write_other v (fun i hi j hj equal => same (words.distinct k' k i j hi hj equal).1)

theorem value_write_of_free (mem : α → Byte) {place : Nat → α} {w n : Nat} (v : BitVec w)
    (free : ∀ i < n, words.Free (place i))
    : words.value (write mem place v n) = words.value mem := by
  funext k
  exact read_write_other v (fun i hi j hj same => free j hj k i hi same.symm)

end Words

end ByteMemory
