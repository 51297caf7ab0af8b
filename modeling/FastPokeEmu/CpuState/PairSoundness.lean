import FastPokeEmu.CpuState.Testcases

/-! When the comparison of two valid dumps finds nothing.
-/

namespace FastPokeEmu.CpuState

open List Option

/-- Fields that both states have are equal, but for the emulator. -/
def FieldsAgree (s₁ s₂ : Dict) : Prop :=
  ∀ k, k ∈ s₁ → k ∈ s₂ → k ≠ emulatorKey → k ≠ memKey → Dict.get s₁ k = Dict.get s₂ k

/-- A word of a memory that is to be compared. -/
def ComparedWord (size i : Nat) : Prop := megabyte ≤ i ∧ i % 4 = 0 ∧ i + 4 ≤ size ∧ i ∉ skippedWords

def WordsAgree (s₁ s₂ : Dict) : Prop :=
  ∀ i, ComparedWord s₁.mem.length i → slice i 4 s₁.mem = slice i 4 s₂.mem

def DiffersAt (s₁ s₂ : Dict) (i : Nat) : Prop :=
  ComparedWord s₁.mem.length i ∧ slice i 4 s₁.mem ≠ slice i 4 s₂.mem

/-- The first address of the page of a word. -/
def pageOf (i : Nat) : Nat := megabyte + 4096 * ((i - megabyte) / 4096)

/-- Just one of the two pages is full of question marks. -/
def HiddenPage (s₁ s₂ : Dict) (j : Nat) : Prop :=
  slice j 4096 s₁.mem ≠ slice j 4096 s₂.mem
    ∧ (fillerPage = slice j 4096 s₁.mem ∨ fillerPage = slice j 4096 s₂.mem)

def HiddenDifference (s₁ s₂ : Dict) : Prop := ∃ i, DiffersAt s₁ s₂ i ∧ HiddenPage s₁ s₂ (pageOf i)

def VisibleDifference (s₁ s₂ : Dict) : Prop :=
  ¬ FieldsAgree s₁ s₂ ∨ ∃ i, DiffersAt s₁ s₂ i ∧ ¬ HiddenPage s₁ s₂ (pageOf i)

section

variable {s₁ s₂ : Dict}

theorem scanned_pair {j : Nat}
    : Scanned [s₁.mem, s₂.mem] j
      ↔ slice j 4096 s₁.mem ≠ slice j 4096 s₂.mem ∧ ¬ HiddenPage s₁ s₂ j := by
  simp only [Scanned, HiddenPage, map_cons, map_nil, diff_pair]
  constructor
  · rintro ⟨differ, plain⟩
    refine ⟨differ, fun hidden => ?_⟩
    rw [(dummyDiff_pair differ).mpr hidden.2] at plain
    cases plain
  · rintro ⟨differ, visible⟩
    refine ⟨differ, ?_⟩
    by_contra dummy
    have dummy : dummyDiff fillerPage [slice j 4096 s₁.mem, slice j 4096 s₂.mem] = true := by
      simpa using dummy
    exact visible ⟨differ, (dummyDiff_pair differ).mp dummy⟩

/-- The scan reports exactly the words that differ and are not hidden. -/
theorem memReported_pair (lengths : s₂.mem.length = s₁.mem.length)
    (printable : Printable s₁.mem.length [s₁.mem, s₂.mem]) (i : Nat)
    : MemReported s₁.mem.length [s₁.mem, s₂.mem] i
      ↔ DiffersAt s₁ s₂ i ∧ ¬ HiddenPage s₁ s₂ (pageOf i) := by
  have whole : megabyte = 1048576 := rfl
  constructor
  · rintro ⟨j, page, scanned, word, reported⟩
    obtain ⟨k, start, inMemory⟩ := mem_pageStarts.mp page
    obtain ⟨m, below, place⟩ := mem_pageWords.mp word
    have pageIs : pageOf i = j := by
      unfold pageOf
      omega
    have differ : slice i 4 s₁.mem ≠ slice i 4 s₂.mem := diff_pair.mp reported.2
    refine ⟨⟨⟨by omega, by omega, ?_, reported.1⟩, differ⟩, ?_⟩
    · -- A word that is cut off could not have been printed.
      by_contra cut
      have short (data : List UInt8) (length : data.length = s₁.mem.length)
          : slice i 4 data ≠ fillerWord ∧ (slice i 4 data).length < 4 := by
        have small : (slice i 4 data).length < 4 := by
          rw [slice_length, length]
          omega
        refine ⟨fun filler => ?_, small⟩
        rw [filler] at small
        exact absurd small (by decide)
      have first := short s₁.mem rfl
      have second := short s₂.mem lengths
      refine printable j page scanned i word ⟨reported, ?_, slice i 4 s₁.mem, by simp, ?_⟩
      · by_contra dummy
        have dummy : dummyDiff fillerWord [slice i 4 s₁.mem, slice i 4 s₂.mem] = true := by
          simpa using dummy
        rcases (dummyDiff_pair differ).mp dummy with here | there
        · exact first.1 here.symm
        · exact second.1 there.symm
      · simp [wordText, first.1, first.2]
    · rw [pageIs]
      exact (scanned_pair.mp scanned).2
  · rintro ⟨⟨⟨low, aligned, inMemory, compared⟩, differ⟩, visible⟩
    have near : pageOf i ≤ i ∧ i + 4 ≤ pageOf i + 4096 := by
      unfold pageOf
      omega
    refine ⟨pageOf i, mem_pageStarts.mpr ⟨_, rfl, by omega⟩, scanned_pair.mpr ⟨?_, visible⟩,
      mem_pageWords.mpr ⟨(i - pageOf i) / 4, by omega, ?_⟩, compared, diff_pair.mpr differ⟩
    · intro same
      refine differ ?_
      rw [← slice_slice near.1 near.2 s₁.mem, ← slice_slice near.1 near.2 s₂.mem, same]
    · unfold pageOf at near ⊢
      omega

theorem fieldReported_pair (valid₁ : isValidType (s₁.numAt typeKey) = true)
    (valid₂ : isValidType (s₂.numAt typeKey) = true) {k : Path}
    : FieldReported [s₁, s₂] k
      ↔ k ≠ emulatorKey ∧ k ≠ memKey ∧ k ∈ s₁ ∧ k ∈ s₂ ∧ Dict.get s₁ k ≠ Dict.get s₂ k := by
  simp only [FieldReported, map_cons, map_nil, diff_pair, comparedValue, valid₁, valid₂,
    if_true, mem_cons, not_mem_nil, or_false, forall_eq_or_imp, forall_eq, and_assoc]
  refine and_congr_right fun _ => and_congr_right fun _ => and_congr_right fun has₁ =>
    and_congr_right fun has₂ => ?_
  obtain ⟨v₁, here₁⟩ := mem_iff_get.mp has₁
  obtain ⟨v₂, here₂⟩ := mem_iff_get.mp has₂
  simp [here₁, here₂]

/-- The comparison of two states reports nothing unless there is a visible difference. -/
theorem compareStates_nil {dd : List Difference} (valid₁ : isValidType (s₁.numAt typeKey) = true)
    (valid₂ : isValidType (s₂.numAt typeKey) = true) (hasMem : memKey ∈ s₁)
    (lengths : s₂.mem.length = s₁.mem.length)
    (res : compareStates [s₁, s₂] = some dd)
    : dd = [] ↔ ¬ VisibleDifference s₁ s₂ := by
  have printable := (exists_compareStates rfl hasMem).mp ⟨dd, res⟩
  rw [pairs_eq_nil]
  simp only [mem_compareStates rfl hasMem res, VisibleDifference, FieldsAgree,
    fieldReported_pair valid₁ valid₂]
  have words := memReported_pair lengths printable
  simp only [map_cons, map_nil] at words ⊢
  simp only [words]
  constructor
  · intro none
    rintro (fields | ⟨i, differs, visible⟩)
    · refine fields ?_
      intro k has₁ has₂ notEmulator notMem
      by_contra differ
      exact none (k, Option.none) (Or.inl ⟨k, rfl, notEmulator, notMem, has₁, has₂, differ⟩)
    · exact none (memKey, some i) (Or.inr ⟨i, rfl, differs, visible⟩)
  · rintro nothing pair (⟨k, rfl, notEmulator, notMem, has₁, has₂, differ⟩ | ⟨i, rfl, here⟩)
    · exact nothing (Or.inl fun agree => differ (agree k has₁ has₂ notEmulator notMem))
    · exact nothing (Or.inr ⟨i, here⟩)

end

section

variable {kernels : String → Option Kernel} {d₁ d₂ : Dump} {s₁ s₂ : Dict} {status : Nat}
variable {dd : List Difference}

theorem validState_some {emulators : List Nat} {kernel : Option Kernel} {d : Dump} {s : Dict}
    (res : validState emulators kernel d = some s)
    : s.numAt typeKey = d.hdr.type ∧ s.mem.length = d.hdr.memSize ∧ memKey ∈ s := by
  obtain ⟨mem, normal, rfl⟩ := map_eq_some_iff.mp res
  refine ⟨numAt_type, ?_, mem_dictOf.mpr (Or.inl rfl)⟩
  rw [mem_dictOf_mem]
  exact normMem_length normal

variable (valid₁ : isValidType d₁.hdr.type = true) (valid₂ : isValidType d₂.hdr.type = true)

include valid₁ valid₂

theorem parsedStates_pair {states : List Dict}
    (parsed : parsedStates kernels [d₁, d₂] = some states)
    : ∃ s₁ s₂,
        states = [s₁, s₂]
        ∧ validState [d₁.hdr.emulator, d₂.hdr.emulator] (kernelOf kernels [d₁, d₂]) d₁ = some s₁
        ∧ validState [d₁.hdr.emulator, d₂.hdr.emulator] (kernelOf kernels [d₁, d₂]) d₂
          = some s₂ := by
  rw [parsedStates_valid kernels (by simp [valid₁, valid₂])] at parsed
  cases Folds.forall₂_of_mapM parsed with
  | cons first rest =>
    cases rest with
    | cons second none =>
      cases none
      exact ⟨_, _, rfl, first, second⟩

/-- Two valid dumps are compared by their states. -/
theorem diffDumps_pair (parsed : parsedStates kernels [d₁, d₂] = some [s₁, s₂])
    (returned : diffDumps kernels [d₁, d₂] = some (status, dd))
    : dd = [] ↔ ¬ VisibleDifference s₁ s₂ := by
  have io : ∀ d ∈ [d₁, d₂], d.hdr.type &&& ioTestcase = 0 := by
    simp [valid_not_io valid₁, valid_not_io valid₂]
  obtain ⟨checks, _, _, states, again, compared⟩ := (diffDumps_some io).mp returned
  cases parsed.symm.trans again
  obtain ⟨_, _, same, state₁, state₂⟩ := parsedStates_pair valid₁ valid₂ parsed
  cases same
  obtain ⟨type₁, length₁, hasMem⟩ := validState_some state₁
  obtain ⟨type₂, length₂, _⟩ := validState_some state₂
  have sizes : d₂.hdr.memSize = d₁.hdr.memSize := by
    by_contra differ
    have found : diff [d₁.hdr.memSize, d₂.hdr.memSize] = true := diff_pair.mpr (Ne.symm differ)
    simp [comparable, valid₁, valid₂, found] at checks
  exact compareStates_nil (type₁ ▸ valid₁) (type₂ ▸ valid₂) hasMem
    (length₂.trans (sizes.trans length₁.symm)) compared

/-- The comparison of two valid dumps reports nothing exactly if their states agree, except
if the only differences are hidden by pages full of question marks. Witness: a page is
skipped if just one copy is such a page, and everything else is compared.
-/
theorem diffDumps_nil_iff_agree
    (parsed : parsedStates kernels [d₁, d₂] = some [s₁, s₂])
    (returned : diffDumps kernels [d₁, d₂] = some (status, dd))
    : (dd = [] ↔ FieldsAgree s₁ s₂ ∧ WordsAgree s₁ s₂)
      ↔ (HiddenDifference s₁ s₂ → VisibleDifference s₁ s₂) := by
  rw [diffDumps_pair valid₁ valid₂ parsed returned]
  have agree : FieldsAgree s₁ s₂ ∧ WordsAgree s₁ s₂
      ↔ ¬ VisibleDifference s₁ s₂ ∧ ¬ HiddenDifference s₁ s₂ := by
    constructor
    · rintro ⟨fields, words⟩
      refine ⟨?_, ?_⟩
      · rintro (differ | ⟨i, ⟨compared, differ⟩, _⟩)
        · exact differ fields
        · exact differ (words i compared)
      · rintro ⟨i, ⟨compared, differ⟩, _⟩
        exact differ (words i compared)
    · rintro ⟨visible, hidden⟩
      refine ⟨by_contra fun differ => visible (Or.inl differ), ?_⟩
      intro i compared
      by_contra differ
      by_cases page : HiddenPage s₁ s₂ (pageOf i)
      · exact hidden ⟨i, ⟨compared, differ⟩, page⟩
      · exact visible (Or.inr ⟨i, ⟨compared, differ⟩, page⟩)
  rw [agree]
  constructor
  · intro same hidden
    by_contra invisible
    exact (same.mp invisible).2 hidden
  · intro shown
    exact ⟨fun invisible => ⟨invisible, fun hidden => invisible (shown hidden)⟩, fun both => both.1⟩

end

/-- A dump of a memory of one value, one page longer than a megabyte. -/
def filledDump (b : UInt8) : Dump where
  hdr :=
    { magic := 0xefef, version := 1, emulator := 2, kernelVersion := "1", kernelChecksum := "k",
      testcaseChecksum := "t", type := 1, cpusno := 1, memSize := megabyte + 4096,
      ioports := (0, 0) }
  cpus := [default]
  mem := replicate (megabyte + 4096) b
  cpus_valid := fun _ => rfl
  cpus_invalid := fun invalid => absurd invalid (by decide)
  mem_invalid := fun invalid => absurd invalid (by decide)

/-- A kernel with two TSSs at the beginning of the memory. -/
def filledKernel : Kernel := fun _ => some { address := 0, size := 104 }

def filledKernels : String → Option Kernel := fun _ => some filledKernel

theorem filled_image {size : Nat} (room : 108 ≤ size) : KernelImage filledKernel size where
  tables name _ := by
    refine ⟨{ address := 0, size := 104 }, rfl, by decide, ?_⟩
    simp only [wholeWords]
    omega
  tss name _ := by
    refine ⟨{ address := 0, size := 104 }, rfl, rfl, ?_⟩
    simp only [wholeWords]
    omega

theorem filled_normMem {emulators : List Nat} (bochs : emulatorBochs ∉ emulators) {size : Nat}
    {data : List UInt8} (length : data.length = size) (room : 105 ≤ size)
    : normMem emulators (some filledKernel) size data = some (shiftTss 0 (shiftTss 0 data)) := by
  have again : (shiftTss 0 data).length = size := by
    rw [(shiftTss_length (by omega)).mpr (by omega), length]
  have symbol (name : String) : filledKernel name = some { address := 0, size := 104 } := rfl
  unfold normMem ignoreAccessed
  rw [if_neg bochs, bind_some, ignoreEflags_eq (symbol _) length, if_pos (by omega),
    bind_some, ignoreEflags_eq (symbol _) again, if_pos (by omega)]

/-- Two dumps with one header and memories of whole words can be compared. -/
theorem filled_returns {d₁ d₂ : Dump} (same : d₂.hdr = d₁.hdr)
    (valid : isValidType d₁.hdr.type = true) (known : d₁.hdr.emulator = 2) {size : Nat}
    (sized : d₁.hdr.memSize = size) (length₁ : d₁.mem.length = size)
    (length₂ : d₂.mem.length = size) (room : 108 ≤ size) (whole : size % 4 = 0)
    : ∃ states dd,
        parsedStates filledKernels [d₁, d₂] = some states
        ∧ compareStates states = some dd
        ∧ diffDumps filledKernels [d₁, d₂] = some (0, dd) := by
  have headers : ∀ d ∈ [d₁, d₂], d.hdr = d₁.hdr := by simp [same]
  have runs : SameTestcase filledKernels filledKernel size [d₁, d₂] := by
    refine ⟨?_, rfl, filled_image room, ?_⟩
    · intro d mem d' mem'
      rw [headers d mem, headers d' mem']
      exact ⟨rfl, rfl⟩
    · intro d mem _
      rw [headers d mem]
      rcases mem_pair.mp mem with rfl | rfl
      · exact ⟨sized, length₁⟩
      · exact ⟨sized, length₂⟩
  have lends : Lends [d₁, d₂] d₁ :=
    ⟨List.find?_cons_of_pos valid, Or.inl fun d mem => (headers d mem).symm ▸ valid⟩
  have none_ : crashed [d₁, d₂] = 0 := by simp [crashed, same, valid]
  rw [← none_]
  refine runs.returns lends ?_ ?_ ?_
  · intro d mem
    rw [headers d mem]
    exact valid_not_io valid
  · intro d mem
    rw [headers d mem, known]
    exact ⟨"VBOX", rfl⟩
  · rintro ⟨cut, _⟩
    unfold wholeWords at cut
    omega

/-- Two filled memories can be compared, and agree up to their only page. -/
theorem filled_states (b₁ b₂ : UInt8)
    : ∃ s₁ s₂ dd,
        parsedStates filledKernels [filledDump b₁, filledDump b₂] = some [s₁, s₂]
        ∧ diffDumps filledKernels [filledDump b₁, filledDump b₂] = some (0, dd)
        ∧ FieldsAgree s₁ s₂
        ∧ s₁.mem.length = megabyte + 4096
        ∧ slice megabyte 4096 s₁.mem = replicate 4096 b₁
        ∧ slice megabyte 4096 s₂.mem = replicate 4096 b₂ := by
  have length (b : UInt8) : (filledDump b).mem.length = megabyte + 4096 := length_replicate
  have valid (b : UInt8) : isValidType (filledDump b).hdr.type = true := by
    simp [filledDump, isValidType]
  have page {b : UInt8} {s : Dict}
      (state : validState [2, 2] (some filledKernel) (filledDump b) = some s)
      : slice megabyte 4096 s.mem = replicate 4096 b := by
    obtain ⟨mem, made, rfl⟩ := map_eq_some_iff.mp state
    have room : 0 + 105 ≤ (filledDump b).mem.length := by
      rw [length]
      decide
    have again : 0 + 105 ≤ (shiftTss 0 (filledDump b).mem).length := by
      rwa [(shiftTss_length (by omega)).mpr room]
    have above (x : Nat) (high : megabyte ≤ x)
        : (shiftTss 0 (shiftTss 0 (filledDump b).mem))[x]? = (filledDump b).mem[x]? := by
      have low : 0 + 104 ≤ x := Nat.le_trans (by decide) high
      rw [shiftTss_above again low, shiftTss_above room low]
    cases made.symm.trans (filled_normMem (by decide) (length b)
      (by decide : 105 ≤ megabyte + 4096))
    rw [mem_dictOf_mem, slice_congr above, filledDump, slice, drop_replicate,
      take_replicate, Nat.add_sub_cancel_left, Nat.min_self]
  have header : (filledDump b₂).hdr = (filledDump b₁).hdr := rfl
  have sized : (filledDump b₁).hdr.memSize = megabyte + 4096 := rfl
  obtain ⟨states, dd, parsed, _, returned⟩ := filled_returns header (valid b₁) rfl sized
    (length b₁) (length b₂) (by decide) (by decide)
  obtain ⟨s₁, s₂, rfl, state₁, state₂⟩ := parsedStates_pair (valid b₁) (valid b₂) parsed
  refine ⟨s₁, s₂, dd, parsed, returned, fun k _ _ _ notMem => ?_, (validState_some state₁).2.1,
    page state₁, page state₂⟩
  obtain ⟨_, _, rfl⟩ := map_eq_some_iff.mp state₁
  obtain ⟨_, _, rfl⟩ := map_eq_some_iff.mp state₂
  simp only [dictOf, get_insert, if_neg notMem]
  rfl

section

variable {s₁ s₂ : Dict} {b₁ b₂ : UInt8}

theorem filled_word (page : slice megabyte 4096 s₁.mem = replicate 4096 b₁)
    : slice megabyte 4 s₁.mem = replicate 4 b₁ := by
  rw [← slice_slice (Nat.le_refl megabyte) (by omega), page, slice, Nat.sub_self, drop_zero,
    take_replicate]
  rfl

theorem filled_differsAt (length : s₁.mem.length = megabyte + 4096)
    (page₁ : slice megabyte 4096 s₁.mem = replicate 4096 b₁)
    (page₂ : slice megabyte 4096 s₂.mem = replicate 4096 b₂) (other : b₁ ≠ b₂)
    : DiffersAt s₁ s₂ megabyte := by
  refine ⟨⟨Nat.le_refl _, by decide, by omega, by decide⟩, fun same => other ?_⟩
  rw [filled_word page₁, filled_word page₂] at same
  exact (replicate_inj.mp same).2.resolve_left (by decide)

end

/-- A page of question marks hides every difference to the other dump. -/
theorem question_marks_hide_page
    : ∃ s₁ s₂,
        parsedStates filledKernels [filledDump 0x3f, filledDump 0x78] = some [s₁, s₂]
        ∧ diffDumps filledKernels [filledDump 0x3f, filledDump 0x78] = some (0, [])
        ∧ ¬ WordsAgree s₁ s₂ := by
  obtain ⟨s₁, s₂, dd, parsed, returned, fields, length, page₁, page₂⟩ := filled_states 0x3f 0x78
  have differs := filled_differsAt length page₁ page₂ (by decide)
  refine ⟨s₁, s₂, parsed, ?_, fun agree => differs.2 (agree megabyte differs.1)⟩
  rw [returned, (diffDumps_pair (by decide) (by decide) parsed returned).mpr]
  rintro (differ | ⟨i, ⟨⟨low, _, high, _⟩, differ⟩, visible⟩)
  · exact differ fields
  · -- There is only one page.
    have only : pageOf i = megabyte := by
      unfold pageOf
      omega
    refine visible ⟨fun same => differ ?_, Or.inl (only ▸ page₁.symm)⟩
    rw [only] at same
    rw [← slice_slice low (length ▸ high) s₁.mem, same, slice_slice low (length ▸ high)]

/-- Memories of different values differ visibly. -/
theorem diffDumps_nil_iff_agree_filled
    : ∃ s₁ s₂ dd,
        parsedStates filledKernels [filledDump 0x78, filledDump 0x79] = some [s₁, s₂]
        ∧ diffDumps filledKernels [filledDump 0x78, filledDump 0x79] = some (0, dd)
        ∧ VisibleDifference s₁ s₂
        ∧ ((dd = [] ↔ FieldsAgree s₁ s₂ ∧ WordsAgree s₁ s₂)
            ↔ (HiddenDifference s₁ s₂ → VisibleDifference s₁ s₂)) := by
  obtain ⟨s₁, s₂, dd, parsed, returned, _, length, page₁, page₂⟩ := filled_states 0x78 0x79
  refine ⟨s₁, s₂, dd, parsed, returned, ?_, diffDumps_nil_iff_agree (by decide) (by decide) parsed
    returned⟩
  refine Or.inr ⟨megabyte, filled_differsAt length page₁ page₂ (by decide), ?_⟩
  have only : pageOf megabyte = megabyte := by decide
  rintro ⟨_, filler⟩
  rw [only, page₁, page₂, fillerPage, replicate_inj, replicate_inj] at filler
  revert filler
  decide

end FastPokeEmu.CpuState
