import FastPokeEmu.EmuFuzzball.InputRuns

/-! The script's checks of a snapshot: when it gets to its end.
-/

namespace FastPokeEmu.SymbolicInputs

open LazyMemory InputNames List Option Folds

/-- The numbers that `struct.pack` takes. -/
def Fits (v size : Nat) : Prop := size ∈ [1, 2, 4] ∧ v < 256 ^ size
deriving Decidable

section

variable (script : Script) (snap : Snapshot)

/-- A register that the script can make symbolic, or does not have to. -/
def Taken (r : List Char) (size : Nat) : Prop :=
  (startsWith r "reg_".toList ∧ script.symbolicRegs ∧ r ≠ "reg_EIP".toList → Fits 0 size)
  ∧ (startsWith r "sreg_".toList ∧ script.symbolicSregs
    → script.bochs = true ∧ Fits (snap.selector r) 2)
  ∧ (startsWith r "creg_".toList ∧ script.symbolicCregs
    → Fits (cregInput snap r).1 size ∧ Fits (cregInput snap r).2.1 size)
  ∧ (startsWith r "dreg_".toList ∧ script.symbolicDregs → Fits 0 size)
deriving Decidable

/-- The memory of the snapshot has all entries of a table that the script goes through. -/
def Readable (table : TableRegister) : Prop :=
  ∀ i ∈ table.entries, table.base + i * 8 + 8 ≤ snap.mem.length

/-- What the script needs to get to its end: registers that it takes, the tables to be made
symbolic, and the page directory with all page tables.
-/
structure Passes : Prop where
  registers : ∀ reg ∈ script.cpuRegs, Taken script snap reg.1 reg.2.1
  gdt : script.symbolicGdt = true → Readable snap snap.gdtr
  idt : script.symbolicIdt = true → Readable snap snap.idtr
  paged : snap.paged = true
  pages : ∀ i < 2 ^ 10, PageInside snap i

end

section

variable {script : Script} {snap : Snapshot} {s : State} {i : Nat}

theorem exists_chunk {v size : Nat} : (∃ bytes, chunk v size = some bytes) ↔ Fits v size := by
  simp [chunk, Fits]

theorem exists_makeRegister {a size value mask dumped : Nat} {r : List Char} {mindist : Bool}
    : (∃ s', makeRegister s a r size value mask mindist dumped = some s')
      ↔ Fits value size ∧ Fits mask size := by
  refine (?_ : _ ↔ ∃ s', makeRegSymbolic s a r size value mask mindist = some s').trans ?_
  · simp [makeRegister]
  · refine (exists_bind exists_chunk fun _ => exists_bind exists_chunk
      fun _ => iff_of_true ⟨_, rfl⟩ trivial).trans ?_
    rw [and_true]

theorem exists_registerStep (reg : List Char × Nat × Nat) (s : State)
    : (∃ s', registerStep script snap s reg = some s') ↔ Taken script snap reg.1 reg.2.1 := by
  refine exists_bind ((exists_ite s).trans (imp_congr_right fun _ => ?_))
    fun s => exists_bind ((exists_ite s).trans (imp_congr_right fun _ => ?_))
      fun s => exists_bind ((exists_ite s).trans (imp_congr_right fun _ => exists_makeRegister))
        fun s => (exists_ite s).trans (imp_congr_right fun _ => ?_)
  · exact exists_makeRegister.trans (and_self_iff)
  · cases script.bochs with
    | false => simp
    | true =>
      have fits : Fits 0xfffc 2 := by decide
      simp [exists_makeRegister, fits]
  · exact exists_makeRegister.trans (and_self_iff)

theorem length_slice_iff {data : Bytes} {a n : Nat} (some : 0 < n)
    : (slice data a (a + n)).length = n ↔ a + n ≤ data.length := by
  rw [slice, length_drop, length_take]
  omega

/-- A descriptor can be made symbolic if the memory has all of it. -/
theorem exists_descriptor {table : TableRegister} {haddr : Nat} {sym : Bytes}
    (entry : i ∈ table.entries)
    : (∃ s',
        makeMemSymbolic s haddr (table.base + i * 8) sym
          (slice (table.data snap.mem) (i * 8) ((i + 1) * 8)) mask true = some s')
      ↔ table.base + i * 8 + 8 ≤ snap.mem.length := by
  rw [descriptor_slice entry, ← length_slice_iff (by decide)]
  simp [makeMemSymbolic, mask]

theorem exists_gdtStep (entry : i ∈ snap.gdtr.entries) (s : State)
    : (∃ s', gdtStep script snap s i = some s')
      ↔ (script.symbolicGdt = true → snap.gdtr.base + i * 8 + 8 ≤ snap.mem.length) := by
  refine (exists_ite _).trans (imp_congr_right fun _ => ?_)
  refine (exists_bind (exists_descriptor entry) fun s => iff_of_true ⟨_, rfl⟩ trivial).trans ?_
  exact and_iff_left trivial

theorem exists_idtStep (entry : i ∈ snap.idtr.entries) (s : State)
    : (∃ s', idtStep script snap s i = some s')
      ↔ (script.symbolicIdt = true → snap.idtr.base + i * 8 + 8 ≤ snap.mem.length) :=
  (exists_ite _).trans (imp_congr_right fun _ => exists_descriptor entry)

theorem inside_of_deref4 {x word : Nat} (read : deref4 snap.mem x = some word)
    : x + 4 ≤ snap.mem.length := by
  refine (length_slice_iff (by decide)).mp ?_
  unfold deref4 at read
  split at read
  next shape =>
    rw [shape]
    rfl
  · cases read

/-- A directory entry that was processed, if the page tables walked before are in memory. -/
theorem pageInside_of_pdeStep {done : List Nat} {next : State × List Nat}
    (walked : ∀ t ∈ done, t + 2 ^ 12 ≤ snap.mem.length)
    (made : pdeStep script snap (s, done) i = some next)
    : PageInside snap i ∧ ∀ t ∈ next.2, t + 2 ^ 12 ≤ snap.mem.length := by
  obtain ⟨word, read, made⟩ := bind_eq_some_iff.mp made
  obtain ⟨s₁, _, made⟩ := bind_eq_some_iff.mp made
  have inside : pdeOf snap i + 4 ≤ snap.mem.length := inside_of_deref4 read
  obtain rfl : wordOf snap (pdeOf snap i) = word :=
    Option.some.inj ((deref4_eq_some inside).symm.trans read)
  split at made
  next use =>
    obtain ⟨s₂, looped, made⟩ := bind_eq_some_iff.mp made
    cases made
    -- The last turn reads the last entry.
    have last : 2 ^ 10 - 1 ∈ List.range (2 ^ 10) := mem_range.mpr (by decide)
    obtain ⟨_, _, t, t', _, _, turn, _⟩ := foldlM_turn last looped
    obtain ⟨_, read, _⟩ := bind_eq_some_iff.mp turn
    have table : tableOf snap i + 2 ^ 12 ≤ snap.mem.length := inside_of_deref4 read
    exact ⟨⟨inside, fun _ => table⟩, forall_mem_cons.mpr ⟨table, walked⟩⟩
  next skipped =>
    cases made
    refine ⟨⟨inside, fun present => ?_⟩, walked⟩
    by_contra outside
    exact skipped ⟨present, fun before => outside (walked _ before)⟩

theorem exists_pageTables (s : State)
    : (∃ s', pageTables script snap s = some s')
      ↔ snap.paged = true ∧ ∀ i < 2 ^ 10, PageInside snap i := by
  unfold pageTables
  split
  next paged =>
    rw [and_iff_right paged]
    constructor
    · rintro ⟨s', made⟩
      obtain ⟨next, looped, _⟩ := map_eq_some_iff.mp made
      have all := (foldlM_induction (P := fun done t =>
          (∀ i ∈ done, PageInside snap i) ∧ ∀ table ∈ t.2, table + 2 ^ 12 ≤ snap.mem.length)
        ⟨forall_mem_nil _, forall_mem_nil _⟩ (fun done i rest t t' _ sofar made => ?_) looped).1
      · exact fun i small => all i (mem_range.mpr small)
      · obtain ⟨inside, walked⟩ := pageInside_of_pdeStep sofar.2 made
        exact ⟨forall_mem_snoc sofar.1 inside, walked⟩
    · intro inside
      obtain ⟨s', done, looped, _⟩ := puts_pdeLoop inside s
      exact ⟨s', map_eq_some_iff.mpr ⟨_, looped, rfl⟩⟩
  next notPaged => simp [notPaged]

theorem exists_inputs : (∃ s, inputs script snap = some s) ↔ Passes script snap := by
  refine (exists_bind (exists_foldlM (fun reg _ => exists_registerStep reg) _)
    fun s => exists_bind (exists_foldlM (fun i => exists_gdtStep) s)
      fun s => exists_bind (exists_foldlM (fun i => exists_idtStep) s)
        fun s => exists_bind (exists_pageTables s)
          fun s => iff_of_true ⟨_, rfl⟩ trivial).trans ?_
  constructor
  · rintro ⟨registers, gdt, idt, ⟨paged, pages⟩, _⟩
    exact ⟨registers, fun flag i entry => gdt i entry flag, fun flag i entry => idt i entry flag,
      paged, pages⟩
  · intro passes
    exact ⟨passes.registers, fun i entry flag => passes.gdt flag i entry,
      fun i entry flag => passes.idt flag i entry, ⟨passes.paged, passes.pages⟩, trivial⟩

end

end FastPokeEmu.SymbolicInputs
