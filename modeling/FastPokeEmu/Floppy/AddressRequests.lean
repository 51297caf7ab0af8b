import FastPokeEmu.Floppy.Allocation

/-! Requests for words in order, mixed with requests for scratch blocks at random places.
Words in order never overlap. A scratch block is chosen in steps of its own size from the start
of the range, whatever was handed out before, and only its first byte is known to be inside.
-/

namespace FastPokeEmu.Floppy

open List

/-- The number of bytes that `get_addr` reserves for `s` bytes. -/
def roundSize (s : Nat) : Nat := 4 * ((s + 3) / 4)

/-- `get_addr` at a random place: `k` is the position of the outcome in
`range(start_addr, end_addr, size)`.
-/
def getRandAddr (s k : Nat) : Option (List Nat) :=
  let addr := startAddr + k * roundSize s
  if addr < endAddr then some ((List.range (roundSize s / 4)).map (fun i => addr + 4 * i))
  else none

/-- A call of `get_addr`. -/
inductive Request where
  | inOrder (s : Nat)
  | random (s k : Nat)
  deriving DecidableEq, Repr

def Request.size : Request → Nat
  | .inOrder s | .random s _ => s

def Request.sequential : Request → Bool
  | .inOrder _ => true
  | .random _ _ => false

def request : Request → GenState → Option (List Nat × GenState)
  | .inOrder s, st => getAddr s st
  | .random s k, st => (getRandAddr s k).map (fun addr => (addr, st))

/-- Any sequence of calls, with the words that each of them returned. -/
def requests : List Request → GenState → Option (List (Request × List Nat) × GenState)
  | [], st => some ([], st)
  | r :: rest, st => do
      let (addr, st) ← request r st
      let (answers, st) ← requests rest st
      some ((r, addr) :: answers, st)

/-- Two words of four bytes do not overlap. -/
def WordsApart (a b : Nat) : Prop := a + 4 ≤ b ∨ b + 4 ≤ a

/-- Words are inside the range; words in order overlap neither later words in order nor later
scratch blocks.
-/
structure SafeAnswers (answers : List (Request × List Nat)) : Prop where
  inside : ∀ x ∈ answers, ∀ a ∈ x.2, startAddr ≤ a ∧ a + 3 ≤ endAddr
  apart
    : answers.Pairwise (fun x y =>
        x.1.sequential = true → ∀ a ∈ x.2, ∀ b ∈ y.2, WordsApart a b)

/-- Every scratch block starts at or after the word that is next in order, and ends inside the
range.
-/
def Clear : Nat → List Request → Prop
  | _, [] => True
  | next, .inOrder s :: rest => Clear (next + roundSize s) rest
  | next, .random s k :: rest =>
    (next ≤ startAddr + k * roundSize s ∧ startAddr + k * roundSize s + roundSize s ≤ endAddr + 1)
    ∧ Clear next rest

instance decidableClear : (next : Nat) → (calls : List Request) → Decidable (Clear next calls)
  | _, [] => isTrue trivial
  | next, .inOrder s :: rest => decidableClear (next + roundSize s) rest
  | next, .random s k :: rest =>
    have := decidableClear next rest
    inferInstanceAs (Decidable ((_ ∧ _) ∧ Clear next rest))

theorem roundSize_pos {s : Nat} (pos : 0 < s) : 4 ≤ roundSize s := by
  rw [roundSize]
  omega

theorem getAddr_words {s : Nat} (pos : 0 < s) {st st' : GenState} {f : List Nat}
    (res : getAddr s st = some (f, st'))
    : f = (List.range (roundSize s / 4)).map (fun i => st.nextAddr + 4 * i)
      ∧ st'.nextAddr = st.nextAddr + roundSize s
      ∧ st'.nextAddr ≤ endAddr := by
  obtain ⟨rfl, rfl, fits⟩ := getAddr_eq res
  have size : max ((s + 3) / 4) 1 = roundSize s / 4 := by
    rw [roundSize]
    omega
  exact ⟨by rw [size, consecutive], rfl, fits⟩

theorem mem_words {first n a : Nat}
    : a ∈ (List.range n).map (fun i => first + 4 * i) ↔ ∃ i < n, a = first + 4 * i := by
  simp only [mem_map, mem_range, eq_comm]

theorem exists_word_overlaps {first size b : Nat} (lower : first ≤ b) (upper : b < first + size)
    (whole : size % 4 = 0)
    : ∃ a ∈ (List.range (size / 4)).map (fun i => first + 4 * i), ¬ WordsApart a b := by
  refine ⟨first + 4 * ((b - first) / 4), mem_words.mpr ⟨_, by omega, rfl⟩, ?_⟩
  rw [WordsApart]
  omega

/-- No word of the answers lies below an address. -/
def Above (next : Nat) (answers : List (Request × List Nat)) : Prop :=
  ∀ x ∈ answers, ∀ b ∈ x.2, next ≤ b

theorem safeAnswers_cons {x : Request × List Nat} {answers : List (Request × List Nat)}
    : SafeAnswers (x :: answers)
      ↔ (∀ a ∈ x.2, startAddr ≤ a ∧ a + 3 ≤ endAddr)
        ∧ (x.1.sequential = true → ∀ y ∈ answers, ∀ a ∈ x.2, ∀ b ∈ y.2, WordsApart a b)
        ∧ SafeAnswers answers := by
  constructor
  · intro safe
    obtain ⟨here, later⟩ := forall_mem_cons.mp safe.inside
    obtain ⟨first, apart⟩ := pairwise_cons.mp safe.apart
    exact ⟨here, fun sequential y mem => first y mem sequential, later, apart⟩
  · intro parts
    obtain ⟨here, first, later⟩ := parts
    refine ⟨forall_mem_cons.mpr ⟨here, later.inside⟩, pairwise_cons.mpr ⟨?_, later.apart⟩⟩
    exact fun y mem sequential => first sequential y mem

/-- After a request in order, the next word in order has moved behind its words.
Witness: its words fill everything in between, so whatever is apart from them lies behind.
-/
theorem inOrder_step {s next : Nat} {answers : List (Request × List Nat)}
    (start : startAddr ≤ next) (bound : next + roundSize s ≤ endAddr)
    : let f := (List.range (roundSize s / 4)).map (fun i => next + 4 * i)
      SafeAnswers ((.inOrder s, f) :: answers) ∧ Above next ((.inOrder s, f) :: answers)
      ↔ SafeAnswers answers ∧ Above (next + roundSize s) answers := by
  intro f
  have whole : roundSize s % 4 = 0 := by
    rw [roundSize]
    omega
  have own : ∀ a ∈ f, next ≤ a ∧ a + 4 ≤ next + roundSize s := by
    intro a word
    obtain ⟨i, small, rfl⟩ := mem_words.mp word
    omega
  rw [safeAnswers_cons]
  constructor
  · intro safe
    obtain ⟨⟨_, first, later⟩, above⟩ := safe
    refine ⟨later, fun x mem b word => ?_⟩
    by_contra low
    have lower := above x (mem_cons_of_mem _ mem) b word
    obtain ⟨a, own, overlap⟩ := exists_word_overlaps lower (by omega) whole
    exact overlap (first rfl x mem a own b word)
  · intro safe
    obtain ⟨later, above⟩ := safe
    refine ⟨⟨?_, ?_, later⟩, forall_mem_cons.mpr ⟨fun a word => (own a word).1, ?_⟩⟩
    · intro a word
      have := own a word
      omega
    · intro _ x mem a word b other
      exact .inl ((own a word).2.trans (above x mem b other))
    · intro x mem b word
      exact (Nat.le_add_right _ _).trans (above x mem b word)

/-- A scratch block is fine if its first and last words are. -/
theorem random_step {s k next : Nat} {answers : List (Request × List Nat)} (pos : 0 < s)
    (start : startAddr ≤ next)
    : let addr := startAddr + k * roundSize s
      let f := (List.range (roundSize s / 4)).map (fun i => addr + 4 * i)
      SafeAnswers ((.random s k, f) :: answers) ∧ Above next ((.random s k, f) :: answers)
      ↔ (next ≤ addr ∧ addr + roundSize s ≤ endAddr + 1)
        ∧ SafeAnswers answers
        ∧ Above next answers := by
  intro addr f
  have size := roundSize_pos pos
  have whole : roundSize s % 4 = 0 := by
    rw [roundSize]
    omega
  rw [safeAnswers_cons]
  constructor
  · intro safe
    obtain ⟨⟨inside, _, later⟩, above⟩ := safe
    obtain ⟨here, above⟩ := forall_mem_cons.mp above
    have first := here addr (mem_words.mpr ⟨0, by omega, by omega⟩)
    have last := inside (addr + roundSize s - 4)
      (mem_words.mpr ⟨roundSize s / 4 - 1, by omega, by omega⟩)
    exact ⟨⟨first, by omega⟩, later, above⟩
  · intro safe
    obtain ⟨⟨lower, upper⟩, later, above⟩ := safe
    have own : ∀ a ∈ f, next ≤ a ∧ a + 3 ≤ endAddr := by
      intro a word
      obtain ⟨i, small, rfl⟩ := mem_words.mp word
      omega
    refine ⟨⟨?_, fun impossible => ?_, later⟩, forall_mem_cons.mpr ⟨?_, above⟩⟩
    · exact fun a word => ⟨start.trans (own a word).1, (own a word).2⟩
    · cases impossible
    · exact fun a word => (own a word).1

/-- The induction over the calls: words in order fill the range up to the next one. -/
theorem requests_safe_iff {calls : List Request} (pos : ∀ r ∈ calls, 0 < r.size)
    {st st' : GenState} {answers : List (Request × List Nat)}
    (res : requests calls st = some (answers, st')) (start : startAddr ≤ st.nextAddr)
    : SafeAnswers answers ∧ Above st.nextAddr answers ↔ Clear st.nextAddr calls := by
  induction calls generalizing st answers with
  | nil =>
    cases res
    exact ⟨fun _ => trivial, fun _ => ⟨⟨forall_mem_nil _, .nil⟩, forall_mem_nil _⟩⟩
  | cons r rest ih =>
    simp only [requests, Option.bind_eq_bind, Option.bind_eq_some_iff] at res
    obtain ⟨⟨f, st1⟩, answered, ⟨answers, st2⟩, later, final⟩ := res
    cases final
    obtain ⟨here, others⟩ := forall_mem_cons.mp pos
    cases r with
    | inOrder s =>
      obtain ⟨rfl, next, bound⟩ := getAddr_words here answered
      have tail := ih others later (next ▸ start.trans (Nat.le_add_right _ _))
      rw [next] at tail bound
      exact (inOrder_step start bound).trans tail
    | random s k =>
      obtain ⟨words, chosen, final⟩ := Option.map_eq_some_iff.mp answered
      cases final
      simp only [getRandAddr] at chosen
      split at chosen
      · cases chosen
        exact (random_step here start).trans (and_congr_right' (ih others later start))
      · cases chosen

/-- For every sequence of requests of positive sizes and every outcome of the random choices, if
no assertion fails: the answers are safe exactly if every scratch block starts at or after the
word that is next in order at that time, and ends inside the range.
-/
theorem getAddr_safe_iff {calls : List Request} (positive : ∀ r ∈ calls, 0 < r.size)
    {st st' : GenState} {answers : List (Request × List Nat)} (start : st.nextAddr = startAddr)
    (result : requests calls st = some (answers, st'))
    : SafeAnswers answers ↔ Clear startAddr calls := by
  rw [← start, ← requests_safe_iff positive result start.ge]
  constructor
  · intro safe
    exact ⟨safe, fun x member b word => start ▸ (safe.inside x member b word).1⟩
  · exact And.left

/-- The allocation pointer before the first request. -/
def untouched : GenState := { GenState.start with nextAddr := startAddr }

/-- A scratch block right behind the only word in order. -/
theorem getAddr_safe_iff_behind
    : ∃ answers st',
        requests [.inOrder 3, .random 4 1, .inOrder 10] untouched = some (answers, st')
        ∧ SafeAnswers answers := by
  have result : requests [.inOrder 3, .random 4 1, .inOrder 10] untouched
      = some ([(.inOrder 3, [0x128d014]), (.random 4 1, [0x128d018]),
          (.inOrder 10, [0x128d018, 0x128d01c, 0x128d020])],
        { untouched with nextAddr := 0x128d024 }) := by
    decide
  exact ⟨_, _, result, (getAddr_safe_iff (by decide) rfl result).mpr (by decide)⟩

/-- The first outcome of the random choice is the word that was handed out before, and the last
block of eight bytes ends behind the range.
-/
theorem getAddr_overlaps
    : (requests [.inOrder 4, .random 4 0] untouched).map Prod.fst
        = some [(.inOrder 4, [0x128d014]), (.random 4 0, [0x128d014])]
      ∧ (requests [.random 8 189949] untouched).map Prod.fst
        = some [(.random 8 189949, [0x13ffffc, 0x1400000])] := by
  decide

end FastPokeEmu.Floppy
