import FastPokeEmu.CpuState.NormalizedMemory

/-! Dumps of one test case: when their states can be compared.
-/

namespace FastPokeEmu.CpuState

open List

/-- The part of a memory that consists of whole words. -/
def wholeWords (size : Nat) : Nat := size / 4 * 4

/-- The symbols that normalisation looks for, inside the whole words of a memory. -/
structure KernelImage (getSymbol : Kernel) (size : Nat) : Prop where
  tables
    : ∀ name ∈ ["pd", "pt"],
        ∃ s, getSymbol name = some s ∧ 4 ∣ s.size ∧ s.address + s.size ≤ wholeWords size
  tss
    : ∀ name ∈ ["tssEXCP05", "tssEXCP32"],
        ∃ s, getSymbol name = some s ∧ s.size = 104 ∧ s.address + s.size < wholeWords size

/-- Dumps of runs of one test case with one kernel, with all of the memory. -/
structure SameTestcase (kernels : String → Option Kernel) (getSymbol : Kernel) (size : Nat)
    (l : List Dump)
    : Prop where
  checksums
    : ∀ d ∈ l, ∀ d' ∈ l,
        d.hdr.kernelChecksum = d'.hdr.kernelChecksum
        ∧ d.hdr.testcaseChecksum = d'.hdr.testcaseChecksum
  kernel : kernelOf kernels l = some getSymbol
  image : KernelImage getSymbol size
  memory : ∀ d ∈ l, isValidType d.hdr.type = true → d.hdr.memSize = size ∧ d.mem.length = size

section

variable {getSymbol : Kernel} {size : Nat} {data : List UInt8}

theorem wholeWords_le (size : Nat) : wholeWords size ≤ size := Nat.div_mul_le_self size 4

/-- The rewritten part of a memory lies in its whole words. -/
def Normalizes (f : List UInt8 → Option (List UInt8)) (size : Nat) : Prop :=
  ∀ data,
    data.length = size
    → ∃ data',
        f data = some data'
        ∧ data'.length = size
        ∧ ∀ n, slice (wholeWords size) n data' = slice (wholeWords size) n data

theorem Normalizes.bind {f g : List UInt8 → Option (List UInt8)} (first : Normalizes f size)
    (second : Normalizes g size)
    : Normalizes (fun data => (f data).bind g) size := by
  intro data length
  obtain ⟨data₁, made₁, length₁, same₁⟩ := first data length
  obtain ⟨data₂, made₂, length₂, same₂⟩ := second data₁ length₁
  refine ⟨data₂, ?_, length₂, fun n => (same₂ n).trans (same₁ n)⟩
  simp only [made₁, Option.bind_some, made₂]

theorem normalizes_table (name : String) (image : KernelImage getSymbol size)
    (table : name ∈ ["pd", "pt"])
    : ∃ s, getSymbol name = some s ∧ Normalizes (rewriteSymbol 4 entryChunk size s) size := by
  obtain ⟨s, symbol, words, inside⟩ := image.tables name table
  refine ⟨s, symbol, ?_⟩
  intro data length
  have made := rewriteTable_eq length words (inside.trans (wholeWords_le size))
  refine ⟨_, made, rewriteSymbol_length made, slice_congr (fun x high => ?_)⟩
  exact clearAccessed_outside (fun entry => absurd entry.2.1 (by omega))

theorem normalizes_tss (name : String) (image : KernelImage getSymbol size)
    (tss : name ∈ ["tssEXCP05", "tssEXCP32"])
    : Normalizes (ignoreEflags name (some getSymbol) size) size := by
  obtain ⟨⟨address, _⟩, symbol, rfl, inside⟩ := image.tss name tss
  intro data length
  have bound := wholeWords_le size
  have inside : address + 104 < wholeWords size := inside
  have made : ignoreEflags name (some getSymbol) size data = some (shiftTss address data) := by
    rw [ignoreEflags_eq symbol length, if_pos (by omega)]
  refine ⟨_, made, ?_, slice_congr (fun x high => shiftTss_above (by omega) (by omega))⟩
  rw [(shiftTss_length (by omega)).mpr (by omega), length]

theorem normalizes_accessed (emulators : List Nat) (image : KernelImage getSymbol size)
    : Normalizes (ignoreAccessed emulators (some getSymbol) size) size := by
  unfold ignoreAccessed
  by_cases bochs : emulatorBochs ∈ emulators
  · obtain ⟨pd, pdSymbol, first⟩ := normalizes_table "pd" image (by decide)
    obtain ⟨pt, ptSymbol, second⟩ := normalizes_table "pt" image (by decide)
    simp only [if_pos bochs, pdSymbol, ptSymbol, Option.bind_eq_bind, Option.bind_some]
    exact first.bind second
  · simp only [if_neg bochs]
    exact fun data length => ⟨data, rfl, length, fun n => rfl⟩

theorem normMem_image (emulators : List Nat) (image : KernelImage getSymbol size)
    : Normalizes (normMem emulators (some getSymbol) size) size := by
  have first := normalizes_accessed emulators image
  have second := normalizes_tss "tssEXCP05" image (by decide)
  have third := normalizes_tss "tssEXCP32" image (by decide)
  exact (first.bind second).bind third

end

theorem slice_length (i n : Nat) (data : List UInt8)
    : (slice i n data).length = min n (data.length - i) := by
  simp [slice]

theorem slice_slice {i j : Nat} (low : j ≤ i) (high : i + 4 ≤ j + 4096) (data : List UInt8)
    : slice (i - j) 4 (slice j 4096 data) = slice i 4 data := by
  simp only [slice, drop_take, drop_drop, take_take]
  have inside : min 4 (4096 - (i - j)) = 4 := by omega
  have place : j + (i - j) = i := by omega
  rw [inside, place]

theorem mem_pageStarts {size j : Nat}
    : j ∈ pageStarts size ↔ ∃ k, j = megabyte + 4096 * k ∧ j < size := by
  simp only [pageStarts, mem_map, mem_range]
  constructor
  · rintro ⟨k, below, rfl⟩
    exact ⟨k, rfl, by omega⟩
  · rintro ⟨k, rfl, below⟩
    exact ⟨k, by omega, rfl⟩

theorem mem_pageWords {i j : Nat} : i ∈ pageWords j ↔ ∃ k < 1024, i = j + 4 * k := by
  simp [pageWords, eq_comm]

/-- The scan comes to a last word that is not whole. -/
def CutWord (size : Nat) : Prop :=
  wholeWords size < size ∧ megabyte < size ∧ wholeWords size ∉ skippedWords

section

variable {size : Nat} {mems : List (List UInt8)}

theorem slice_cut {m : List UInt8} (length : m.length = size)
    : slice (wholeWords size) 4 m ≠ fillerWord ∧ wordText (slice (wholeWords size) 4 m) = none := by
  have short : (slice (wholeWords size) 4 m).length < 4 := by
    rw [slice_length, length, wholeWords]
    omega
  have notFiller : slice (wholeWords size) 4 m ≠ fillerWord := by
    intro filler
    rw [filler] at short
    exact absurd short (by decide)
  exact ⟨notFiller, by simp only [wordText, if_neg notFiller, if_pos short]⟩

section

variable (lengths : ∀ m ∈ mems, m.length = size)

include lengths

theorem unprintable_cut (skipped : wholeWords size ∉ skippedWords)
    (differ : diff (mems.map (slice (wholeWords size) 4)) = true)
    : Unprintable mems (wholeWords size) := by
  obtain ⟨s, mem, _⟩ := diff_iff.mp differ
  obtain ⟨m, place, rfl⟩ := mem_map.mp mem
  refine ⟨⟨skipped, differ⟩, ?_, _, mem, (slice_cut (lengths m place)).2⟩
  simp only [dummyDiff, decide_eq_false_iff_not, not_and, mem_map, not_exists]
  exact fun _ m mem => (slice_cut (lengths m mem)).1

/-- Only a cut word has no text. -/
theorem cut_of_unprintable {i j : Nat} (page : j ∈ pageStarts size) (word : i ∈ pageWords j)
    (unprintable : Unprintable mems i)
    : i = wholeWords size ∧ CutWord size := by
  obtain ⟨⟨skipped, differ⟩, _, s, mem, textless⟩ := unprintable
  obtain ⟨m, place, rfl⟩ := mem_map.mp mem
  obtain ⟨p, start, below⟩ := mem_pageStarts.mp page
  obtain ⟨k, _, place'⟩ := mem_pageWords.mp word
  have mb : megabyte = 1048576 := rfl
  have short : (slice i 4 m).length < 4 := by
    by_contra long
    unfold wordText at textless
    split at textless
    · cases textless
    · cases textless
  have inside : i < size := by
    by_contra outside
    obtain ⟨a, memberA, b, memberB, ne⟩ := diff_iff.mp differ
    have empty : ∀ s ∈ mems.map (slice i 4), s = [] := by
      intro s mem
      obtain ⟨m, place, rfl⟩ := mem_map.mp mem
      have none_ : (slice i 4 m).length = 0 := by
        rw [slice_length, lengths m place]
        omega
      exact length_eq_zero_iff.mp none_
    exact ne ((empty a memberA).trans (empty b memberB).symm)
  rw [slice_length, lengths m place] at short
  have here : i = wholeWords size := by
    unfold wholeWords
    omega
  refine ⟨here, ?_, by omega, here ▸ skipped⟩
  rw [← here]
  exact inside

/-- The page of the cut word is scanned if the words differ. -/
theorem scanned_cut {j : Nat} (page : j ∈ pageStarts size) (word : wholeWords size ∈ pageWords j)
    (differ : diff (mems.map (slice (wholeWords size) 4)) = true)
    : Scanned mems j := by
  obtain ⟨p, start, below⟩ := mem_pageStarts.mp page
  obtain ⟨k, small, place⟩ := mem_pageWords.mp word
  have words : wholeWords size = size / 4 * 4 := rfl
  constructor
  · obtain ⟨a, memberA, b, memberB, ne⟩ := diff_iff.mp differ
    obtain ⟨m, placeA, rfl⟩ := mem_map.mp memberA
    obtain ⟨m', placeB, rfl⟩ := mem_map.mp memberB
    refine diff_iff.mpr ⟨_, mem_map_of_mem placeA, _, mem_map_of_mem placeB, ?_⟩
    intro same
    apply ne
    rw [← slice_slice (j := j) (by omega) (by omega) m, same, slice_slice (by omega) (by omega) m']
  · simp only [dummyDiff, decide_eq_false_iff_not, not_and, mem_map, not_exists]
    intro _ m mem filler
    have full : (slice j 4096 m).length = 4096 := by
      rw [filler]
      exact length_replicate
    rw [slice_length, lengths m mem] at full
    omega

/-- The scan of some memories only fails at a cut word that is not the same in all. -/
theorem printable_iff
    : Printable size mems
      ↔ (CutWord size → diff (mems.map (slice (wholeWords size) 4)) = false) := by
  constructor
  · rintro printable ⟨cut, high, skipped⟩
    by_contra same
    have differ : diff (mems.map (slice (wholeWords size) 4)) = true := by simpa using same
    have mb : megabyte = 1048576 := rfl
    have words : wholeWords size = size / 4 * 4 := rfl
    generalize pageNumber : (wholeWords size - megabyte) / 4096 = p
    have page : megabyte + 4096 * p ∈ pageStarts size := mem_pageStarts.mpr ⟨p, rfl, by omega⟩
    have word : wholeWords size ∈ pageWords (megabyte + 4096 * p) :=
      mem_pageWords.mpr ⟨(wholeWords size - (megabyte + 4096 * p)) / 4, by omega, by omega⟩
    exact printable _ page (scanned_cut lengths page word differ) _ word
      (unprintable_cut lengths skipped differ)
  · intro agree j page _ i word unprintable
    obtain ⟨rfl, cut⟩ := cut_of_unprintable lengths page word unprintable
    have differ := unprintable.1.2
    rw [agree cut] at differ
    cases differ

end

end

/-- The first valid dump has a CPU to lend, or no dump has to borrow one. -/
def Lends (l : List Dump) (lender : Dump) : Prop :=
  l.find? (fun d => isValidType d.hdr.type) = some lender
    ∧ ((∀ d ∈ l, isValidType d.hdr.type = true) ∨ lender.cpus ≠ [])

/-- The bytes after the last whole word are the same in all memories. -/
def LastBytesAgree (size : Nat) (l : List Dump) : Prop :=
  ∀ d ∈ l, ∀ d' ∈ l,
    slice (wholeWords size) 4 (rawMem size d) = slice (wholeWords size) 4 (rawMem size d')

section

variable {kernels : String → Option Kernel} {getSymbol : Kernel} {size : Nat} {l : List Dump}
variable {lender : Dump}

theorem valid_not_io {d : Dump} (valid : isValidType d.hdr.type = true)
    : d.hdr.type &&& ioTestcase = 0 := by
  have small : d.hdr.type / 2 = 0 := by simpa [isValidType] using valid
  have cases_ : d.hdr.type = 0 ∨ d.hdr.type = 1 := by omega
  rcases cases_ with zero | one
  · rw [zero]; rfl
  · rw [one]; rfl

/-- The parts of a comparison that returns its differences. -/
theorem diffDumps_some {status : Nat} {dd : List Difference}
    (io : ∀ d ∈ l, d.hdr.type &&& ioTestcase = 0)
    : diffDumps kernels l = some (status, dd)
      ↔ comparable l = true
        ∧ (∀ d ∈ l, ∃ name, emulatorName d.hdr.emulator = some name)
        ∧ status = crashed l
        ∧ ∃ states, parsedStates kernels l = some states ∧ compareStates states = some dd := by
  have noIo : ¬ ∃ d ∈ l, d.hdr.type &&& ioTestcase ≠ 0 := by
    rintro ⟨d, mem, set⟩
    exact set (io d mem)
  unfold diffDumps
  rw [← Folds.exists_mapM]
  cases comparable l with
  | false => simp
  | true =>
    simp only [not_true_eq_false, if_false, if_neg noIo, true_and]
    constructor
    · intro res
      obtain ⟨states, parsed, later⟩ := Option.bind_eq_some_iff.mp res
      obtain ⟨names, named, later⟩ := Option.bind_eq_some_iff.mp later
      obtain ⟨found, compared, final⟩ := Option.bind_eq_some_iff.mp later
      cases final
      exact ⟨⟨names, named⟩, rfl, states, parsed, compared⟩
    · rintro ⟨⟨names, named⟩, rfl, states, parsed, compared⟩
      simp [parsed, named, compared]


theorem find_load {lender : Dump} (found : l.find? (fun d => isValidType d.hdr.type) = some lender)
    : ∃ t,
        (load l).dumps.find? (fun d => isValidType d.hdr.type) = some (loadDump t lender)
        ∧ l[t]? = some lender := by
  obtain ⟨valid, t, below, place, earlier⟩ := List.find?_eq_some_iff_getElem.mp found
  refine ⟨t, ?_, List.getElem?_eq_some_iff.mpr ⟨below, place⟩⟩
  refine List.find?_eq_some_iff_getElem.mpr ⟨valid, t, by simpa [load] using below, ?_, ?_⟩
  · simp only [load, getElem_mapIdx, place]
  · intro j before
    simpa only [load, getElem_mapIdx, loadDump] using earlier j before

theorem SameTestcase.comparable (runs : SameTestcase kernels getSymbol size l)
    : comparable l = true := by
  have same {α : Type} [DecidableEq α] {f : Dump → α} {l' : List Dump}
      (agree : ∀ d ∈ l', ∀ d' ∈ l', f d = f d')
      : diff (l'.map f) = false := by
    by_contra found
    have differ : diff (l'.map f) = true := by simpa using found
    obtain ⟨a, memberA, b, memberB, ne⟩ := diff_iff.mp differ
    obtain ⟨d, mem, rfl⟩ := mem_map.mp memberA
    obtain ⟨d', mem', rfl⟩ := mem_map.mp memberB
    exact ne (agree d mem d' mem')
  have sizes : ∀ d ∈ l.filter (fun d => isValidType d.hdr.type), d.hdr.memSize = size := by
    intro d mem
    obtain ⟨inside, valid⟩ := mem_filter.mp mem
    exact (runs.memory d inside valid).1
  simp only [CpuState.comparable, Bool.and_eq_true, Bool.not_eq_true']
  exact ⟨⟨same (fun d mem d' mem' => (runs.checksums d mem d' mem').1),
    same (fun d mem d' mem' => (runs.checksums d mem d' mem').2)⟩,
    same (fun d mem d' mem' => (sizes d mem).trans (sizes d' mem').symm)⟩

theorem SameTestcase.rawMem_length (runs : SameTestcase kernels getSymbol size l) {d : Dump}
    (mem : d ∈ l)
    : (rawMem size d).length = size := by
  unfold rawMem
  split
  next valid =>
    exact (runs.memory d mem valid).2
  · exact length_replicate

/-- What the comparison gets for a dump. -/
def Compared (emulators : List Nat) (kernel : Option Kernel) (size : Nat) (d : Dump) (s : Dict)
    : Prop :=
  normMem emulators kernel size (rawMem size d) = some s.mem ∧ memKey ∈ s

theorem parsedStates_lends (runs : SameTestcase kernels getSymbol size l) (lends : Lends l lender)
    : ∃ states,
        parsedStates kernels l = some states
        ∧ List.Forall₂ (Compared (l.map (·.hdr.emulator)) (some getSymbol) size) l states := by
  obtain ⟨found, available⟩ := lends
  have normal : ∀ d ∈ l,
      ∃ mem, normMem (l.map (·.hdr.emulator)) (some getSymbol) size (rawMem size d) = some mem := by
    intro d member
    obtain ⟨mem, made, _⟩ :=
      normMem_image (l.map (·.hdr.emulator)) runs.image _ (runs.rawMem_length member)
    exact ⟨mem, made⟩
  rcases available with valid | hasCpus
  · -- Every dump keeps its own CPUs.
    have own : ∀ d ∈ l,
        validState (l.map (·.hdr.emulator)) (kernelOf kernels l) d
        = (normMem (l.map (·.hdr.emulator)) (some getSymbol) size (rawMem size d)).map
            (dictOf d.hdr (d.cpus.map (normalized (l.map (·.hdr.emulator)) d.hdr.emulator))) := by
      intro d member
      rw [validState, runs.kernel, (runs.memory d member (valid d member)).1, rawMem,
        if_pos (valid d member)]
    have each : ∀ d ∈ l,
        ∃ s, validState (l.map (·.hdr.emulator)) (kernelOf kernels l) d = some s := by
      intro d member
      obtain ⟨mem, made⟩ := normal d member
      rw [own d member, made]
      exact ⟨_, rfl⟩
    obtain ⟨states, parsed⟩ := Folds.exists_mapM.mpr each
    refine ⟨states, (parsedStates_valid kernels valid).trans parsed, ?_⟩
    apply Folds.forall₂_of_mapM_mem parsed
    intro d member s made
    rw [own d member] at made
    obtain ⟨mem, res, rfl⟩ := Option.map_eq_some_iff.mp made
    exact ⟨res.trans (congrArg some mem_dictOf_mem.symm), mem_dictOf.mpr (Or.inl rfl)⟩
  · -- The others borrow the lender's first CPU.
    obtain ⟨t, loaded, place⟩ := find_load found
    obtain ⟨c, others, cpus⟩ := exists_cons_of_ne_nil hasCpus
    have lenderValid := List.find?_some found
    have lenderMember := mem_of_find?_eq_some found
    have lenderSize := (runs.memory lender lenderMember lenderValid).1
    have sizes : ∀ d ∈ l, isValidType d.hdr.type = true → d.hdr.memSize = lender.hdr.memSize :=
      fun d member valid => (runs.memory d member valid).1.trans lenderSize.symm
    obtain ⟨exists_, related⟩ := parsedStates_completed kernels loaded place cpus sizes
    rw [lenderSize, runs.kernel] at exists_ related
    obtain ⟨states, parsed⟩ := exists_.mpr normal
    refine ⟨states, parsed, (related states parsed).imp ?_⟩
    intro d s state
    exact ⟨state.mem, (state.keys memKey).mpr (Or.inl rfl)⟩

/-- Normalisation keeps the bytes after the last whole word. -/
theorem compared_slices {emulators : List Nat} {states : List Dict}
    (image : KernelImage getSymbol size)
    (related : List.Forall₂ (Compared emulators (some getSymbol) size) l states)
    (lengths : ∀ d ∈ l, (rawMem size d).length = size)
    : (∀ m ∈ states.map Dict.mem, m.length = size)
      ∧ (states.map Dict.mem).map (slice (wholeWords size) 4)
        = l.map (fun d => slice (wholeWords size) 4 (rawMem size d)) := by
  induction related with
  | nil => exact ⟨fun m member => absurd member not_mem_nil, rfl⟩
  | @cons d s l states compared _ ih =>
    obtain ⟨others, slices⟩ := ih (fun d member => lengths d (mem_cons_of_mem _ member))
    obtain ⟨mem, made, length, same⟩ := normMem_image emulators image _ (lengths d mem_cons_self)
    have mem_eq : mem = s.mem := Option.some.inj (made.symm.trans compared.1)
    subst mem_eq
    refine ⟨?_, ?_⟩
    · intro m member
      rcases mem_cons.mp member with rfl | later
      · exact length
      · exact others m later
    · simp only [map_cons, same, slices]

/-- With a lender, the comparison returns unless a cut word differs. -/
theorem exists_compared (runs : SameTestcase kernels getSymbol size l) (lends : Lends l lender)
    : (∃ dd states, parsedStates kernels l = some states ∧ compareStates states = some dd)
      ↔ (CutWord size → LastBytesAgree size l) := by
  obtain ⟨states, parsed, related⟩ := parsedStates_lends runs lends
  obtain ⟨lengths, slices⟩ :=
    compared_slices runs.image related (fun d mem => runs.rawMem_length mem)
  have agree : diff (l.map (fun d => slice (wholeWords size) 4 (rawMem size d))) = false
      ↔ LastBytesAgree size l := by
    rw [← Bool.not_eq_true, diff_iff]
    simp only [mem_map, not_exists, not_and, not_not, forall_exists_index, and_imp,
      forall_apply_eq_imp_iff₂, LastBytesAgree]
  obtain ⟨first, rest, shape⟩ : ∃ first rest, states = first :: rest := by
    cases related with
    | nil => cases mem_of_find?_eq_some lends.1
    | cons _ _ => exact ⟨_, _, rfl⟩
  have hasMem : memKey ∈ first := by
    rw [shape] at related
    cases related with
    | cons compared _ => exact compared.2
  have size_eq : first.mem.length = size := lengths _ (by simp [shape])
  rw [← agree, ← slices, ← printable_iff lengths, ← size_eq, ← exists_compareStates shape hasMem]
  constructor
  · intro returned
    obtain ⟨dd, states', parsed', compared⟩ := returned
    cases parsed.symm.trans parsed'
    exact ⟨dd, compared⟩
  · intro returned
    obtain ⟨dd, compared⟩ := returned
    exact ⟨dd, states, parsed, compared⟩

theorem SameTestcase.returns (runs : SameTestcase kernels getSymbol size l) (lends : Lends l lender)
    (io : ∀ d ∈ l, d.hdr.type &&& ioTestcase = 0)
    (names : ∀ d ∈ l, ∃ name, emulatorName d.hdr.emulator = some name)
    (agree : CutWord size → LastBytesAgree size l)
    : ∃ states dd,
        parsedStates kernels l = some states
        ∧ compareStates states = some dd
        ∧ diffDumps kernels l = some (crashed l, dd) := by
  obtain ⟨dd, states, parsed, compared⟩ := (exists_compared runs lends).mpr agree
  exact ⟨states, dd, parsed, compared,
    (diffDumps_some io).mpr ⟨runs.comparable, names, rfl, states, parsed, compared⟩⟩

end

end FastPokeEmu.CpuState
