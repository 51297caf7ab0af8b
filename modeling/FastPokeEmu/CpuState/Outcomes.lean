import FastPokeEmu.CpuState.Orders

/-! The outcomes of a comparison: which lists of dumps get the status that the kinds of their
dumps call for.
-/

namespace FastPokeEmu.CpuState

open List Option

/-- The status that the kinds of the dumps call for. -/
def expectedStatus (l : List Dump) : Nat :=
  if ∃ d ∈ l, d.hdr.type &&& ioTestcase ≠ 0 then ioTestcase
  else if ∃ d ∈ l, isValidType d.hdr.type = false then crashTestcase
  else 0

/-- The comparison returns, with that status. -/
def Classified (kernels : String → Option Kernel) (l : List Dump) : Prop :=
  ∃ dd, diffDumps kernels l = some (expectedStatus l, dd)

section

variable {kernels : String → Option Kernel} {getSymbol : Kernel} {size : Nat} {l : List Dump}
variable {lender : Dump}

/-- Without a memory there is no TSS to rewrite. -/
theorem normMem_nil {emulators : List Nat} {memSize : Nat} (image : KernelImage getSymbol size)
    : normMem emulators (some getSymbol) memSize [] = none := by
  have empty {step : Nat} {chunk : List UInt8 → Nat → Option (List UInt8)} {s : Symbol}
      {data' : List UInt8} (fails : ∀ i, chunk [] i = none)
      (res : rewriteSymbol step chunk memSize s [] = some data')
      : data' = [] ∧ (s.size + (step - 1)) / step = 0 := by
    obtain ⟨parts, made, final⟩ := bind_eq_some_iff.mp res
    have none_ : (s.size + (step - 1)) / step = 0 := by
      by_contra pos
      obtain ⟨part, impossible⟩ := Folds.exists_mapM.mp ⟨parts, made⟩ (s.address + step * 0)
        (mem_map_of_mem (mem_range.mpr (Nat.pos_of_ne_zero pos)))
      rw [fails] at impossible
      cases impossible
    refine ⟨?_, none_⟩
    rw [none_] at made
    cases made
    simp only [take_nil, drop_nil, append_nil] at final
    exact (Option.some.inj (ite_none_right_eq_some.mp final).2).symm
  by_contra some_
  obtain ⟨data, res⟩ := ne_none_iff_exists'.mp some_
  obtain ⟨data₂, step₂, _⟩ := bind_eq_some_iff.mp res
  obtain ⟨data₁, step₁, eflags⟩ := bind_eq_some_iff.mp step₂
  have same : data₁ = [] := by
    unfold ignoreAccessed at step₁
    split at step₁
    · obtain ⟨pd, _, later⟩ := bind_eq_some_iff.mp step₁
      obtain ⟨pt, _, later⟩ := bind_eq_some_iff.mp later
      obtain ⟨data₀, first, second⟩ := bind_eq_some_iff.mp later
      have noEntry : ∀ i, entryChunk [] i = none := fun i => by simp [entryChunk]
      obtain ⟨rfl, _⟩ := empty noEntry first
      exact (empty noEntry second).1
    · exact (Option.some.inj step₁).symm
  subst same
  obtain ⟨s, symbol, tssSize, _⟩ := image.tss "tssEXCP05" (by decide)
  obtain ⟨s', symbol', final⟩ := bind_eq_some_iff.mp eflags
  have found : s' = s := Option.some.inj (symbol'.symm.trans symbol)
  subst found
  have noTss : ∀ i, tssChunk [] i = none := fun i => by simp [tssChunk]
  have none_ := (empty noTss final).2
  rw [tssSize] at none_
  cases none_

/-- If all runs failed, there is no memory to normalise. -/
theorem parsedStates_failed (runs : SameTestcase kernels getSymbol size l)
    (failed : l.find? (fun d => isValidType d.hdr.type) = none)
    : parsedStates kernels l = none := by
  have invalid : ∀ d ∈ l, isValidType d.hdr.type = false := by
    simpa using List.find?_eq_none.mp failed
  have unchanged : borrowCpus (load l) = some (load l) := by
    have noLender : (load l).dumps.find? (fun d => isValidType d.hdr.type) = none := by
      refine List.find?_eq_none.mpr ?_
      intro d mem
      obtain ⟨i, below, rfl⟩ := mem_mapIdx.mp mem
      simpa [loadDump] using invalid _ (getElem_mem below)
    unfold borrowCpus
    rw [noLender]
  obtain ⟨d, rest, shape⟩ : ∃ d rest, l = d :: rest := by
    cases shape : l with
    | nil =>
      have kernel := runs.kernel
      rw [shape] at kernel
      cases kernel
    | cons d rest => exact ⟨d, rest, rfl⟩
  have first : loadDump 0 d ∈ (load l).dumps := by simp [load, shape]
  have empty : (loadDump 0 d).mem = [] := d.mem_invalid (invalid d (by simp [shape]))
  have broken : normalizeStates (some getSymbol) (load l) = none := by
    rw [normalizeStates_eq, map_eq_none_iff]
    by_contra some_
    obtain ⟨dumps, made⟩ := ne_none_iff_exists'.mp some_
    obtain ⟨d', res⟩ := Folds.exists_mapM.mp ⟨dumps, made⟩ _ first
    rw [Loaded.mapMem, empty, normMem_nil runs.image] at res
    cases res
  unfold parsedStates
  simp only [unchanged, runs.kernel, bind_eq_bind, bind_some, broken,
    bind_none]

theorem expectedStatus_crashed (io : ∀ d ∈ l, d.hdr.type &&& ioTestcase = 0)
    (found : l.find? (fun d => isValidType d.hdr.type) = some lender)
    : expectedStatus l = crashed l := by
  have noIo : ¬ ∃ d ∈ l, d.hdr.type &&& ioTestcase ≠ 0 := by
    intro set
    obtain ⟨d, mem, bit⟩ := set
    exact bit (io d mem)
  have lenderValid := List.find?_some found
  have valid : ∃ d ∈ l, isValidType d.hdr.type = true :=
    ⟨lender, mem_of_find?_eq_some found, lenderValid⟩
  unfold expectedStatus crashed
  simp only [if_neg noIo, valid, true_and]

/-- The comparison gives the status that the dumps call for exactly if some dump has the I/O
bit, or if some dump is valid, the first such dump has a CPU for the dumps of failed runs,
all emulators are known, and the bytes after the last whole word do not differ. Witness: the
lender decides whether there are states, and the scan only stops at a cut word.
-/
theorem classified_iff (runs : SameTestcase kernels getSymbol size l)
    : Classified kernels l
      ↔ (∃ d ∈ l, d.hdr.type &&& ioTestcase ≠ 0)
        ∨ (∃ lender, Lends l lender)
          ∧ (∀ d ∈ l, ∃ name, emulatorName d.hdr.emulator = some name)
          ∧ (CutWord size → LastBytesAgree size l) := by
  by_cases io : ∃ d ∈ l, d.hdr.type &&& ioTestcase ≠ 0
  · refine iff_of_true ⟨[], ?_⟩ (Or.inl io)
    simp only [diffDumps, runs.comparable, expectedStatus, if_pos io, not_true_eq_false, if_false]
  have noIo : ∀ d ∈ l, d.hdr.type &&& ioTestcase = 0 := by simpa using io
  simp only [Classified, diffDumps_some noIo, runs.comparable, true_and, io, false_or]
  cases found : l.find? (fun d => isValidType d.hdr.type) with
  | none =>
    have broken := parsedStates_failed runs found
    constructor
    · intro returned
      obtain ⟨dd, _, _, states, parsed, _⟩ := returned
      rw [broken] at parsed
      cases parsed
    · intro followed
      obtain ⟨⟨lender, lends, _⟩, _⟩ := followed
      rw [found] at lends
      cases lends
  | some lender =>
    have status := expectedStatus_crashed noIo found
    by_cases lends : Lends l lender
    · rw [← exists_compared runs lends]
      constructor
      · intro returned
        obtain ⟨dd, names, _, states, parsed, compared⟩ := returned
        exact ⟨⟨lender, lends⟩, names, dd, states, parsed, compared⟩
      · intro followed
        obtain ⟨_, names, dd, states, parsed, compared⟩ := followed
        exact ⟨dd, names, status, states, parsed, compared⟩
    · -- The first valid dump has nothing to lend.
      have poor : lender.cpus = [] ∧ ∃ d ∈ l, isValidType d.hdr.type = false := by
        simpa [Lends, found, and_comm] using lends
      obtain ⟨t, loaded, _⟩ := find_load found
      have broken : parsedStates kernels l = none := parsedStates_none loaded poor.1 poor.2
      constructor
      · intro returned
        obtain ⟨dd, _, _, states, parsed, _⟩ := returned
        rw [broken] at parsed
        cases parsed
      · intro followed
        obtain ⟨⟨lender', lends'⟩, _⟩ := followed
        cases found.symm.trans lends'.1
        exact absurd lends' lends

end

theorem failed_sameTestcase
    : SameTestcase filledKernels filledKernel 108 [failedDump, failedDump] where
  checksums := by decide
  kernel := rfl
  image := filled_image (Nat.le_refl 108)
  memory := by decide

/-- If all runs crashed, the comparison fails. -/
theorem all_failed_unclassified
    : SameTestcase filledKernels filledKernel 108 [failedDump, failedDump]
      ∧ expectedStatus [failedDump, failedDump] = crashTestcase
      ∧ diffDumps filledKernels [failedDump, failedDump] = none :=
  ⟨failed_sameTestcase, by decide,
    diffDumps_none (by decide) (parsedStates_failed failed_sameTestcase rfl)⟩

theorem mixed_sameTestcase
    : SameTestcase filledKernels filledKernel (megabyte + 4096) [filledDump 0, failedDump] where
  checksums := by decide
  kernel := rfl
  image := filled_image (by decide)
  memory d mem valid := by
    rcases mem_cons.mp mem with rfl | later
    · exact ⟨rfl, length_replicate⟩
    · cases mem_singleton.mp later
      cases valid

theorem classified_iff_mixed
    : SameTestcase filledKernels filledKernel (megabyte + 4096) [filledDump 0, failedDump]
      ∧ Classified filledKernels [filledDump 0, failedDump] := by
  refine ⟨mixed_sameTestcase, (classified_iff mixed_sameTestcase).mpr (Or.inr ⟨?_, ?_, ?_⟩)⟩
  · exact ⟨filledDump 0, rfl, Or.inr (by simp [filledDump])⟩
  · intro d member
    rcases mem_cons.mp member with rfl | later
    · exact ⟨"VBOX", rfl⟩
    · cases mem_singleton.mp later
      exact ⟨"VBOX", rfl⟩
  · intro cut
    exact absurd cut.1 (by decide)

end FastPokeEmu.CpuState
