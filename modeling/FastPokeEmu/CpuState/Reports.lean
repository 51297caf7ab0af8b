import FastPokeEmu.CpuState.Comparison
import FastPokeEmu.Library.Folds

/-! Which differences the comparison of parsed states reports.
-/

namespace FastPokeEmu.CpuState

open List Folds

variable {pair : Path × Option Nat}

section

variable {α : Type} [DecidableEq α]

theorem diff_iff {dd : List α} : diff dd = true ↔ ∃ a ∈ dd, ∃ b ∈ dd, a ≠ b := by
  simp only [diff, decide_eq_true_eq]
  constructor
  · intro several
    obtain ⟨a, b, rest, shape⟩ : ∃ a b rest, dd.dedup = a :: b :: rest := by
      match shape : dd.dedup with
      | [] => simp [shape] at several
      | [a] => simp [shape] at several
      | a :: b :: rest => exact ⟨a, b, rest, rfl⟩
    have distinct := dd.nodup_dedup
    rw [shape] at distinct
    refine ⟨a, ?_, b, ?_, ?_⟩
    · exact mem_dedup.mp (shape ▸ mem_cons_self)
    · exact mem_dedup.mp (shape ▸ mem_cons_of_mem _ mem_cons_self)
    · intro same
      exact (nodup_cons.mp distinct).1 (same ▸ mem_cons_self)
  · rintro ⟨a, inA, b, inB, differ⟩
    by_contra few
    match shape : dd.dedup with
    | [] => exact absurd (mem_dedup.mpr inA) (by simp [shape])
    | [x] =>
      have isA := mem_dedup.mpr inA
      have isB := mem_dedup.mpr inB
      rw [shape, mem_singleton] at isA isB
      exact differ (isA.trans isB.symm)
    | x :: y :: rest =>
      rw [shape, length_cons, length_cons] at few
      omega

theorem diff_perm {dd dd' : List α} (perm : dd.Perm dd') : diff dd = diff dd' := by
  simp only [diff, perm.dedup.length_eq]

theorem dummyDiff_perm {dd dd' : List α} (filler : α) (perm : dd.Perm dd')
    : dummyDiff filler dd = dummyDiff filler dd' := by
  simp only [dummyDiff, perm.dedup.length_eq, perm.mem_iff]

theorem diff_pair {a b : α} : diff [a, b] = true ↔ a ≠ b := by
  rw [diff_iff]
  constructor
  · rintro ⟨x, inX, y, inY, differ⟩ same
    subst same
    simp only [mem_cons, not_mem_nil, or_false, or_self] at inX inY
    exact differ (inX.trans inY.symm)
  · intro differ
    exact ⟨a, by simp, b, by simp, differ⟩

theorem dummyDiff_pair {a b filler : α} (differ : a ≠ b)
    : dummyDiff filler [a, b] = true ↔ filler = a ∨ filler = b := by
  have two : [a, b].dedup.length = 2 := by
    rw [List.Nodup.dedup (by simpa using differ)]
    rfl
  simp [dummyDiff, two]

end

/-- The key and the offset of each reported difference. -/
def pairs (dd : List Difference) : List (Path × Option Nat) := dd.map (fun x => (x.key, x.offset))

theorem mem_pairs {dd : List Difference} : pair ∈ pairs dd ↔ ∃ x ∈ dd, (x.key, x.offset) = pair :=
  mem_map

theorem mem_pairs_flatten {α : Type} {f : α → Option (List Difference)} {xs : List α}
    {dd : List Difference} (res : (xs.mapM f).bind (fun parts => some parts.flatten) = some dd)
    : pair ∈ pairs dd ↔ ∃ x ∈ xs, ∃ part, f x = some part ∧ pair ∈ pairs part := by
  simp only [mem_pairs, mem_of_flatten res]
  constructor
  · rintro ⟨found, ⟨x, mem, part, made, inside⟩, same⟩
    exact ⟨x, mem, part, made, found, inside, same⟩
  · rintro ⟨x, mem, part, made, found, inside, same⟩
    exact ⟨found, ⟨x, mem, part, made, inside⟩, same⟩

theorem pairs_eq_nil {dd : List Difference} : dd = [] ↔ ∀ pair, pair ∉ pairs dd := by
  constructor
  · rintro rfl
    simp [pairs]
  · intro none
    cases dd with
    | nil => rfl
    | cons x rest => exact absurd mem_cons_self (none (x.key, x.offset))

/-- Pages in which every memory of the list is scanned word by word. -/
def Scanned (mems : List (List UInt8)) (j : Nat) : Prop :=
  diff (mems.map (slice j 4096)) = true ∧ dummyDiff fillerPage (mems.map (slice j 4096)) = false

/-- Words that a scan reports. -/
def WordReported (mems : List (List UInt8)) (i : Nat) : Prop :=
  i ∉ skippedWords ∧ diff (mems.map (slice i 4)) = true

/-- Words that a scan cannot print. -/
def Unprintable (mems : List (List UInt8)) (i : Nat) : Prop :=
  WordReported mems i
    ∧ dummyDiff fillerWord (mems.map (slice i 4)) = false
    ∧ ∃ s ∈ mems.map (slice i 4), wordText s = none

section

variable {states : List Dict} {dd : List Difference}

theorem map_slice (i n : Nat)
    : states.map (fun s => slice i n s.mem) = (states.map Dict.mem).map (slice i n) := by
  rw [map_map]
  rfl

theorem exists_diffWord {i : Nat}
    : (∃ dd, diffWord states i = some dd) ↔ ¬ Unprintable (states.map Dict.mem) i := by
  simp only [diffWord, Unprintable, WordReported, map_slice]
  generalize (states.map Dict.mem).map (slice i 4) = ss
  by_cases skipped : i ∈ skippedWords
  · simp [skipped]
  by_cases differ : diff ss = true
  · by_cases dummy : dummyDiff fillerWord ss = true
    · simp [differ, dummy, skipped]
    · have plain : dummyDiff fillerWord ss = false := by simpa using dummy
      have texts : (∃ texts, ss.mapM wordText = some texts) ↔ ¬ ∃ s ∈ ss, wordText s = none := by
        rw [exists_mapM]
        simp [Option.ne_none_iff_exists']
      simp only [differ, plain, skipped, not_false_eq_true, true_and, ← texts, if_true, if_false,
        Bool.false_eq_true]
      constructor
      · rintro ⟨_, res⟩
        obtain ⟨texts, printed, _⟩ := Option.bind_eq_some_iff.mp res
        exact ⟨texts, printed⟩
      · rintro ⟨texts, printed⟩
        exact ⟨_, by rw [printed]; rfl⟩
  · simp [differ, skipped]

theorem mem_diffWord {i : Nat} (res : diffWord states i = some dd)
    : pair ∈ pairs dd ↔ pair = (memKey, some i) ∧ WordReported (states.map Dict.mem) i := by
  simp only [diffWord, map_slice] at res
  simp only [WordReported]
  generalize (states.map Dict.mem).map (slice i 4) = ss at res ⊢
  by_cases skipped : i ∈ skippedWords
  · simp only [if_pos skipped, Option.some.injEq] at res
    simp [← res, pairs, skipped]
  simp only [if_neg skipped] at res
  by_cases differ : diff ss = true
  · have single : dd = [noteDifference states memKey (some i)
        (fun s => .bytes (slice i 4 s.mem))] := by
      split at res
      · obtain ⟨_, _, final⟩ := Option.bind_eq_some_iff.mp res
        exact (Option.some.inj final).symm
      · exact (Option.some.inj res).symm
    simp [single, pairs, noteDifference, differ, skipped]
  · simp only [differ, Bool.false_eq_true, false_and, if_false, Option.some.injEq] at res
    simp [← res, pairs, differ]

/-- The words of a page. -/
def pageWords (j : Nat) : List Nat := (List.range 1024).map (fun k => j + 4 * k)

theorem diffPage_eq (j : Nat)
    : diffPage states j
      = if diff ((states.map Dict.mem).map (slice j 4096)) = true
            ∧ dummyDiff fillerPage ((states.map Dict.mem).map (slice j 4096)) = false then
          ((pageWords j).mapM (diffWord states)).bind (fun parts => some parts.flatten)
        else some [] := by
  simp only [diffPage, map_slice, pageWords]
  generalize (states.map Dict.mem).map (slice j 4096) = ss
  cases diff ss <;> cases dummyDiff fillerPage ss <;> rfl

theorem exists_diffPage {j : Nat}
    : (∃ dd, diffPage states j = some dd)
      ↔ (Scanned (states.map Dict.mem) j
          → ∀ i ∈ pageWords j, ¬ Unprintable (states.map Dict.mem) i) := by
  rw [diffPage_eq, Scanned]
  split
  next scanned =>
    simp only [exists_flatten, exists_diffWord, scanned, and_self, true_implies]
  next skipped =>
    exact ⟨fun _ scanned => absurd scanned skipped, fun _ => ⟨[], rfl⟩⟩

theorem mem_diffPage {j : Nat} (res : diffPage states j = some dd)
    : pair ∈ pairs dd
      ↔ Scanned (states.map Dict.mem) j
        ∧ ∃ i ∈ pageWords j,
            pair = (memKey, some i) ∧ WordReported (states.map Dict.mem) i := by
  rw [diffPage_eq] at res
  rw [Scanned]
  split at res
  next scanned =>
    have total := exists_flatten.mp ⟨dd, res⟩
    rw [mem_pairs_flatten res]
    simp only [scanned, and_self, true_and]
    constructor
    · rintro ⟨i, mem, part, made, inside⟩
      exact ⟨i, mem, (mem_diffWord made).mp inside⟩
    · rintro ⟨i, mem, here⟩
      obtain ⟨part, made⟩ := total i mem
      exact ⟨i, mem, part, made, (mem_diffWord made).mpr here⟩
  next skipped =>
    cases res
    exact ⟨fun inside => absurd inside not_mem_nil, fun both => absurd both.1 skipped⟩

/-- The scan of a memory of some size fails nowhere. -/
def Printable (size : Nat) (mems : List (List UInt8)) : Prop :=
  ∀ j ∈ pageStarts size, Scanned mems j → ∀ i ∈ pageWords j, ¬ Unprintable mems i

/-- The scan reports the word. -/
def MemReported (size : Nat) (mems : List (List UInt8)) (i : Nat) : Prop :=
  ∃ j ∈ pageStarts size, Scanned mems j ∧ i ∈ pageWords j ∧ WordReported mems i

theorem diffMem_eq {first : Dict} {rest : List Dict} (shape : states = first :: rest)
    : diffMem states
      = ((pageStarts first.mem.length).mapM (diffPage states)).bind
          (fun parts => some parts.flatten) := by
  subst shape
  rfl

theorem exists_diffMem {first : Dict} {rest : List Dict} (shape : states = first :: rest)
    : (∃ dd, diffMem states = some dd) ↔ Printable first.mem.length (states.map Dict.mem) := by
  rw [diffMem_eq shape]
  simp only [exists_flatten, exists_diffPage, Printable]

theorem mem_diffMem {first : Dict} {rest : List Dict} (shape : states = first :: rest)
    (res : diffMem states = some dd)
    : pair ∈ pairs dd
      ↔ ∃ i,
          pair = (memKey, some i) ∧ MemReported first.mem.length (states.map Dict.mem) i := by
  rw [diffMem_eq shape] at res
  have total := exists_flatten.mp ⟨dd, res⟩
  rw [mem_pairs_flatten res]
  constructor
  · rintro ⟨j, page, part, made, inside⟩
    obtain ⟨scanned, i, word, same, reported⟩ := (mem_diffPage made).mp inside
    exact ⟨i, same, j, page, scanned, word, reported⟩
  · rintro ⟨i, same, j, page, scanned, word, reported⟩
    obtain ⟨part, made⟩ := total j page
    exact ⟨j, page, part, made, (mem_diffPage made).mpr ⟨scanned, i, word, same, reported⟩⟩

/-- A field that every state has and whose values differ. -/
def FieldReported (states : List Dict) (k : Path) : Prop :=
  k ≠ emulatorKey ∧ k ≠ memKey ∧ (∀ s ∈ states, k ∈ s) ∧ diff (states.map (comparedValue k)) = true

theorem mem_diffField {k : Path}
    : pair ∈ pairs (diffField states k)
      ↔ pair = (k, none)
        ∧ (∀ s ∈ states, k ∈ s)
        ∧ diff (states.map (comparedValue k)) = true := by
  simp only [diffField]
  by_cases absent : ∃ s ∈ states, k ∉ s
  · have lacking : ¬ ∀ s ∈ states, k ∈ s := by simpa using absent
    simp [absent, lacking, pairs]
  · have present : ∀ s ∈ states, k ∈ s := by simpa using absent
    generalize states.map (comparedValue k) = ss
    by_cases differ : diff ss = true
    · simp only [absent, differ, pairs, noteDifference, if_false, if_true, and_true, true_and]
      split
      · exact ⟨fun inside => ⟨mem_singleton.mp inside, present⟩,
          fun both => mem_singleton.mpr both.1⟩
      · exact ⟨fun inside => ⟨mem_singleton.mp inside, present⟩,
          fun both => mem_singleton.mpr both.1⟩
    · simp [absent, differ, pairs]

variable {first : Dict} {rest : List Dict}

theorem compareStates_eq (shape : states = first :: rest)
    : compareStates states
      = ((sortKeys first.keys).mapM (diffKey states)).bind (fun parts => some parts.flatten) := by
  subst shape
  rfl

/-- The comparison succeeds if the memory scan does. -/
theorem exists_compareStates (shape : states = first :: rest) (hasMem : memKey ∈ first)
    : (∃ dd, compareStates states = some dd)
      ↔ Printable first.mem.length (states.map Dict.mem) := by
  rw [compareStates_eq shape, exists_flatten, ← exists_diffMem shape]
  have notEmulator : memKey ≠ emulatorKey := by decide
  constructor
  · intro all
    have here := all memKey ((perm_insertionSort _ _).mem_iff.mpr hasMem)
    simpa only [diffKey, if_neg notEmulator, if_true] using here
  · intro scan k _
    unfold diffKey
    by_cases emulator : k = emulatorKey
    · simp [emulator]
    by_cases mem : k = memKey
    · simpa [mem, notEmulator] using scan
    · simp [emulator, mem]

/-- What a comparison reports does not mention the order of the states but for the size of
the first memory.
-/
theorem mem_compareStates (shape : states = first :: rest) (hasMem : memKey ∈ first)
    (res : compareStates states = some dd) (pair : Path × Option Nat)
    : pair ∈ pairs dd
      ↔ (∃ k, pair = (k, none) ∧ FieldReported states k)
        ∨ ∃ i,
            pair = (memKey, some i) ∧ MemReported first.mem.length (states.map Dict.mem) i := by
  rw [compareStates_eq shape] at res
  have total := exists_flatten.mp ⟨dd, res⟩
  have keys (k : Path) : k ∈ sortKeys first.keys ↔ k ∈ first := (perm_insertionSort _ _).mem_iff
  have notEmulator : memKey ≠ emulatorKey := by decide
  rw [mem_pairs_flatten res]
  constructor
  · rintro ⟨k, member, part, made, inside⟩
    unfold diffKey at made
    by_cases emulator : k = emulatorKey
    · simp only [if_pos emulator, Option.some.injEq] at made
      simp [← made, pairs] at inside
    by_cases mem : k = memKey
    · simp only [if_neg emulator, if_pos mem] at made
      exact Or.inr ((mem_diffMem shape made).mp inside)
    · simp only [if_neg emulator, if_neg mem, Option.some.injEq] at made
      rw [← made] at inside
      obtain ⟨same, everywhere, differ⟩ := mem_diffField.mp inside
      exact Or.inl ⟨k, same, emulator, mem, everywhere, differ⟩
  · rintro (⟨k, same, emulator, mem, everywhere, differ⟩ | word)
    · refine ⟨k, (keys k).mpr (everywhere first (shape ▸ mem_cons_self)),
        diffField states k, ?_, mem_diffField.mpr ⟨same, everywhere, differ⟩⟩
      simp only [diffKey, if_neg emulator, if_neg mem]
    · obtain ⟨part, made⟩ := total memKey ((keys memKey).mpr hasMem)
      refine ⟨memKey, (keys memKey).mpr hasMem, part, made, ?_⟩
      simp only [diffKey, if_neg notEmulator, if_true] at made
      exact (mem_diffMem shape made).mpr word

end

end FastPokeEmu.CpuState
