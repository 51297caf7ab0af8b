import FastPokeEmu.EmuFuzzball.MissingRegions
import FastPokeEmu.Library.Numerals

/-! Memory made symbolic at its first load: the load and store hooks of `emu_fuzzball.ml`,
over the regions that `run-emu-fuzzball.py` leaves neither symbolic nor concrete.
-/

namespace FastPokeEmu.LazyMemory

open Numerals Clusters List

/-- `%.8Lx` -/
def hex8 (n : Nat) : List Char := pad 8 (print 16 n)

/-- `%d` -/
def dec (n : Nat) : List Char := print 10 n

def startsWith (str pat : List Char) : Bool :=
  let n := min pat.length str.length
  str.take n == pat

theorem startsWith_iff {str pat : List Char} : startsWith str pat = true ↔ pat <+: str := by
  rw [startsWith, beq_iff_eq, prefix_iff_eq_take, ← take_eq_take_min]
  exact eq_comm

theorem startsWith_append (pat rest : List Char) : startsWith (pat ++ rest) pat = true :=
  startsWith_iff.mpr (prefix_append pat rest)

theorem not_startsWith {str pat : List Char} {c d : Char} (head : str.head? = some c)
    (other : c ≠ d)
    : startsWith str (d :: pat) = false := by
  rw [← Bool.not_eq_true, startsWith_iff]
  rintro ⟨rest, rfl⟩
  exact other (Option.some.inj head).symm

/-- First and last address and the name given on the command line. -/
structure Region where
  first : Nat
  last : Nat
  name : List Char
deriving DecidableEq

def Region.Holds (r : Region) (addr : Nat) : Prop := r.first ≤ addr ∧ addr ≤ r.last

instance (r : Region) (addr : Nat) : Decidable (r.Holds addr) := inferInstanceAs (Decidable (_ ∧ _))

/-- The options the hooks read. -/
structure Config where
  /-- `-symbolic-byte`, symbolic from the start -/
  symbolicBytes : List Nat
  /-- `-symbolic-bytes-lazy` -/
  lazyRegions : List Region
  /-- `-dump-region` -/
  trackedRegions : List Region

/-- The hooks' tables. -/
structure Tables where
  stores : List (List Char × Nat)
  symbolicBytesLazy : List (Nat × List Char)
  /-- Bytes replaced by a variable of the formula manager, with its name, oldest first -/
  made : List (Nat × List Char)
  iteration : Nat
  /-- An assertion failed and ended the exploration. -/
  failed : Bool
deriving DecidableEq

/-- Tables when a path starts. -/
def fresh (made : List (Nat × List Char)) (iteration : Nat) : Tables :=
  { stores := [], symbolicBytesLazy := [], made, iteration, failed := false }

/-- Addresses in the table of bytes that are not to be made symbolic again. -/
def Tables.noted (t : Tables) : List Nat := t.symbolicBytesLazy.map Prod.fst

/-- The last region of the list that holds the address. -/
def matched (regions : List Region) (addr : Nat) : Option Region :=
  regions.foldl (fun found r => if r.Holds addr then some r else found) none

/-- `65535 - !iteration` printed by `%u`, on 63-bit integers -/
def age (iteration : Nat) : List Char := dec ((65535 + 2 ^ 63 - iteration) % 2 ^ 63)

def storeName (r : Region) (iteration addr j : Nat) : List Char :=
  if startsWith r.name "out_mem_".toList then
    "out_mem_".toList ++ hex8 (addr - r.first) ++ "___1_0_".toList ++ age iteration
  else if startsWith r.name "out_fpu_".toList then
    "out_fpu_".toList ++ hex8 (addr - r.first) ++ "___1_0_".toList ++ age iteration
  else if startsWith r.name "out_desc_cache".toList then
    "out_desc_cache_".toList ++ dec (addr - r.first) ++ "_".toList ++ age iteration
  else
    r.name ++ "_".toList ++ dec j ++ "_".toList ++ age iteration

/-- The store hook's loop body, for byte `j` of the access. -/
def storeByte (r : Region) (addr : Nat) (t : Tables) (j : Nat) : Tables :=
  let a := addr + j
  let name := storeName r t.iteration a j
  let stores := (name, a) :: t.stores.filter (·.1 ≠ name)
  if a ∈ t.noted then { t with stores }
  else { t with stores, symbolicBytesLazy := (a, "???????".toList) :: t.symbolicBytesLazy }

def storeHook (cfg : Config) (t : Tables) (addr ty : Nat) : Tables :=
  match matched cfg.trackedRegions addr with
  | some r => (List.range (ty / 8)).foldl (storeByte r addr) t
  | none => t

def loadName (r : Region) (a i : Nat) : List Char :=
  if startsWith r.name "in_mem_".toList then
    "in_mem_".toList ++ hex8 (a - r.first) ++ "__1_0".toList
  else
    r.name ++ "_".toList ++ dec i

/-- The load hook's loop body, for byte `i` of the access. -/
def loadByte (cfg : Config) (r : Region) (addr : Nat) (t : Tables) (i : Nat) : Tables :=
  let a := addr + i
  if t.failed then t
  else if a ∈ cfg.symbolicBytes then { t with failed := true }
  else if a ∈ t.noted then t
  else
    let name := loadName r a i
    { t with
      made := t.made ++ [(a, name)]
      symbolicBytesLazy := (a, name) :: t.symbolicBytesLazy }

def loadHook (cfg : Config) (t : Tables) (addr ty : Nat) : Tables :=
  match matched cfg.lazyRegions addr with
  | some r => (List.range (ty / 8)).foldl (loadByte cfg r addr) t
  | none => t

/-- The part of `finish_path_hook` that prepares the next path; only some paths are counted. -/
def finishPathHook (t : Tables) (counted : Bool) : Tables :=
  { t with
    iteration := if counted then t.iteration + 1 else t.iteration
    stores := []
    symbolicBytesLazy := [] }

/-- A memory access of the symbolic execution: its address and its type's number of bits. -/
inductive Access where
  | load (addr ty : Nat)
  | store (addr ty : Nat)
deriving DecidableEq

inductive Event where
  | access (a : Access)
  | finishPath (counted : Bool)

/-- Nothing runs after a failed assertion. -/
def Tables.access (cfg : Config) (t : Tables) (a : Access) : Tables :=
  if t.failed then t
  else
    match a with
    | .load addr ty => loadHook cfg t addr ty
    | .store addr ty => storeHook cfg t addr ty

def Tables.event (cfg : Config) (t : Tables) : Event → Tables
  | .access a => t.access cfg a
  | .finishPath counted => if t.failed then t else finishPathHook t counted

/-- Any number of paths, one after the other. -/
def explore (cfg : Config) (events : List Event) : Tables :=
  events.foldl (Tables.event cfg) (fresh [] 0)

/-- Bytes of the physical memory that are neither symbolic nor concrete; `uncluster` gives
the range of all its addresses.
-/
def missing (ph : Nat × Nat) (s c : List Nat) : List Nat :=
  (List.range' ph.1 ph.2).filter (fun a => a ∉ s ∧ a ∉ c)

/-- The regions that the script computes, between addresses. -/
def computeMissingLocs (ph : Nat × Nat) (s c : List Nat) : List (Nat × Nat) :=
  (Common.computeMissingLocs (ph.1, ph.2) (s.map Nat.cast) (c.map Nat.cast)).map
    (Prod.map Int.toNat Int.toNat)

/-- The options of the script. Every `-symbolic-bytes-lazy` option adds a region in front. -/
def scriptConfig (ph : Nat × Nat) (s c : List Nat) (tracked : List Region) : Config where
  symbolicBytes := s
  lazyRegions :=
    ((computeMissingLocs ph s c).map
      (fun r => { first := r.1, last := r.2, name := "in_mem___1".toList })).reverse
  trackedRegions := tracked

section

variable {ph : Nat × Nat} {s c : List Nat} {first last : Nat}

theorem missing_nodup : (missing ph s c).Nodup := List.Nodup.filter _ nodup_range'

theorem missing_cast_nodup : ((missing ph s c).map (Nat.cast : Nat → Int)).Nodup :=
  missing_nodup.map Nat.cast_injective

theorem computeMissingLocs_eq
    : Common.computeMissingLocs (ph.1, ph.2) (s.map Nat.cast) (c.map Nat.cast)
      = cluster ((missing ph s c).map Nat.cast) := by
  have bytes : uncluster [((ph.1 : Int), (ph.1 : Int) + ph.2 - 1)]
      = (List.range' ph.1 ph.2).map Nat.cast := by
    simp [uncluster, Clusters.range, range'_eq_map_range, Function.comp_def]
  rw [Common.computeMissingLocs, bytes, filter_map, missing]
  congr 2
  apply filter_congr
  intro a _
  simp only [Function.comp, mem_map_of_injective (Nat.cast_injective (R := Int))]

theorem exists_region {r : Int × Int} (mem : r ∈ cluster ((missing ph s c).map Nat.cast))
    : ∃ first last : Nat, r = ((first : Int), (last : Int)) := by
  have ordered := cluster_ordered missing_cast_nodup r mem
  obtain ⟨first, _, same⟩ := mem_map.mp
    ((mem_cluster missing_cast_nodup r.1).mp ⟨r, mem, Int.le_refl _, ordered⟩)
  exact ⟨first, r.2.toNat, Prod.ext same.symm (Int.toNat_of_nonneg (by omega)).symm⟩

theorem mem_computeMissingLocs
    : (first, last) ∈ computeMissingLocs ph s c
      ↔ ((first : Int), (last : Int)) ∈ cluster ((missing ph s c).map Nat.cast) := by
  rw [computeMissingLocs, computeMissingLocs_eq, mem_map]
  constructor
  · rintro ⟨r, mem, same⟩
    obtain ⟨first', last', rfl⟩ := exists_region mem
    cases same
    exact mem
  · intro mem
    exact ⟨_, mem, rfl⟩

theorem locs_ordered (mem : (first, last) ∈ computeMissingLocs ph s c) : first ≤ last :=
  Int.ofNat_le.mp (cluster_ordered missing_cast_nodup _ (mem_computeMissingLocs.mp mem))

theorem locs_starts (mem : (first, last) ∈ computeMissingLocs ph s c) {a : Nat}
    (inside : a ∈ missing ph s c)
    : a + 1 ≠ first := by
  have start := cluster_starts missing_cast_nodup (mem_computeMissingLocs.mp mem)
    (mem_map_of_mem inside)
  simp only at start
  omega

theorem length_filter_locs (a : Nat)
    : ((computeMissingLocs ph s c).filter (fun r => r.1 ≤ a ∧ a ≤ r.2)).length
      = if a ∈ missing ph s c then 1 else 0 := by
  have counted := @length_filter_within ((missing ph s c).map Nat.cast) missing_cast_nodup a
  simp only [mem_map_of_injective (Nat.cast_injective (R := Int))] at counted
  rw [← counted, computeMissingLocs, computeMissingLocs_eq, filter_map, length_map]
  congr 1
  apply filter_congr
  intro r mem
  obtain ⟨first, last, rfl⟩ := exists_region mem
  simp [Within]

theorem mem_locs (a : Nat)
    : (∃ first last, (first, last) ∈ computeMissingLocs ph s c ∧ first ≤ a ∧ a ≤ last)
      ↔ a ∈ missing ph s c := by
  rw [← mem_map_of_injective (Nat.cast_injective (R := Int)), ← mem_cluster missing_cast_nodup]
  constructor
  · rintro ⟨first, last, mem, within⟩
    exact ⟨_, mem_computeMissingLocs.mp mem, Int.ofNat_le.mpr within.1, Int.ofNat_le.mpr within.2⟩
  · rintro ⟨r, mem, within⟩
    obtain ⟨first, last, rfl⟩ := exists_region mem
    exact ⟨first, last, mem_computeMissingLocs.mpr mem, Int.ofNat_le.mp within.1,
      Int.ofNat_le.mp within.2⟩

end

section

variable {cfg : Config} {t : Tables} {r : Region} {regions : List Region} {addr ty a : Nat}

theorem matched_some (found : matched regions addr = some r) : r ∈ regions ∧ r.Holds addr := by
  have upTo (regions : List Region) (start : Option Region)
      (found : regions.foldl (fun found r => if r.Holds addr then some r else found) start = some r)
      : start = some r ∨ (r ∈ regions ∧ r.Holds addr) := by
    induction regions generalizing start with
    | nil => exact Or.inl found
    | cons first rest ih =>
      rcases ih _ found with early | late
      · by_cases holds : first.Holds addr
        · simp only [if_pos holds] at early
          cases early
          exact Or.inr ⟨mem_cons_self, holds⟩
        · simp only [if_neg holds] at early
          exact Or.inl early
      · exact Or.inr ⟨mem_cons_of_mem _ late.1, late.2⟩
  rcases upTo regions none found with impossible | here
  · cases impossible
  · exact here

theorem matched_none : matched regions addr = none ↔ ∀ r ∈ regions, ¬ r.Holds addr := by
  have upTo (start : Option Region)
      : regions.foldl (fun found r => if r.Holds addr then some r else found) start = none
        ↔ start = none ∧ ∀ r ∈ regions, ¬ r.Holds addr := by
    induction regions generalizing start with
    | nil => simp
    | cons first rest ih =>
      rw [foldl_cons, ih]
      by_cases holds : first.Holds addr <;> simp [holds]
  rw [matched, upTo none]
  simp

/-- The address lies in one of the regions. -/
def InRegions (regions : List Region) (a : Nat) : Prop := ∃ r ∈ regions, r.Holds a

instance (regions : List Region) (a : Nat) : Decidable (InRegions regions a) :=
  inferInstanceAs (Decidable (∃ r ∈ regions, r.Holds a))

theorem matched_none_iff : matched regions addr = none ↔ ¬ InRegions regions addr := by
  rw [matched_none]
  simp [InRegions]

/-- What the load hook's loop did to `n` bytes from `addr` on. -/
structure Loaded (cfg : Config) (r : Region) (addr n : Nat) (t t' : Tables) : Prop where
  failed : t'.failed = false ↔ ∀ i < n, addr + i ∉ cfg.symbolicBytes
  noted
    : t'.failed = false → ∀ a, a ∈ t'.noted ↔ a ∈ t.noted ∨ (addr ≤ a ∧ a < addr + n)
  made
    : ∃ new,
        t'.made = t.made ++ new
        ∧ (∀ entry ∈ new, ∃ i < n, entry = (addr + i, loadName r (addr + i) i))
        ∧ (t'.failed = false
            → (new.map Prod.fst).Nodup
              ∧ ∀ a, a ∈ new.map Prod.fst ↔ (addr ≤ a ∧ a < addr + n) ∧ a ∉ t.noted)

theorem Loaded.loadByte {t' : Tables} {n : Nat} (sofar : Loaded cfg r addr n t t')
    : Loaded cfg r addr (n + 1) t (loadByte cfg r addr t' n) := by
  obtain ⟨new, madeSofar, entries, exact_⟩ := sofar.made
  have wider : ∀ entry ∈ new, ∃ i < n + 1, entry = (addr + i, loadName r (addr + i) i) := by
    intro entry mem
    obtain ⟨i, below, same⟩ := entries entry mem
    exact ⟨i, Nat.lt_succ_of_lt below, same⟩
  have failedNext : (∀ i < n + 1, addr + i ∉ cfg.symbolicBytes)
      ↔ t'.failed = false ∧ addr + n ∉ cfg.symbolicBytes := by
    rw [sofar.failed, Nat.forall_lt_succ_right]
  unfold LazyMemory.loadByte
  by_cases stopped : t'.failed = true
  · simp only [if_pos stopped]
    refine ⟨?_, ?_, new, madeSofar, wider, ?_⟩
    · rw [failedNext]
      simp [stopped]
    · simp [stopped]
    · simp [stopped]
  have running : t'.failed = false := by simpa using stopped
  obtain ⟨nodup, news⟩ := exact_ running
  simp only [if_neg stopped]
  by_cases eager : addr + n ∈ cfg.symbolicBytes
  · simp only [if_pos eager]
    refine ⟨?_, by simp, new, madeSofar, wider, by simp⟩
    rw [failedNext]
    simp [eager]
  simp only [if_neg eager]
  have notedSofar := sofar.noted running
  by_cases already : addr + n ∈ t'.noted
  · simp only [if_pos already]
    -- A byte beyond those loaded so far was noted before the access.
    have old : addr + n ∈ t.noted := by
      rcases (notedSofar _).mp already with old | loaded
      · exact old
      · omega
    refine ⟨?_, fun _ a => ?_, new, madeSofar, wider, fun _ => ⟨nodup, fun a => ?_⟩⟩
    · rw [failedNext]
      simp [running, eager]
    · rw [notedSofar]
      by_cases last : a = addr + n
      · subst last
        exact ⟨fun _ => Or.inl old, fun _ => Or.inl old⟩
      · have same : (addr ≤ a ∧ a < addr + n) ↔ (addr ≤ a ∧ a < addr + (n + 1)) := by omega
        rw [same]
    · rw [news]
      by_cases last : a = addr + n
      · subst last
        exact ⟨fun both => absurd old both.2, fun both => absurd old both.2⟩
      · have same : (addr ≤ a ∧ a < addr + n) ↔ (addr ≤ a ∧ a < addr + (n + 1)) := by omega
        rw [same]
  · simp only [if_neg already]
    have unknown : addr + n ∉ t.noted := fun old => already ((notedSofar _).mpr (Or.inl old))
    refine ⟨?_, fun _ a => ?_, new ++ [(addr + n, loadName r (addr + n) n)], ?_, ?_, fun _ => ?_⟩
    · rw [failedNext]
      simp [running, eager]
    · have step : a ∈ ((addr + n, loadName r (addr + n) n) :: t'.symbolicBytesLazy).map Prod.fst
          ↔ a = addr + n ∨ a ∈ t'.noted := by
        simp [Tables.noted]
      have within : (addr ≤ a ∧ a < addr + (n + 1)) ↔ a = addr + n ∨ (addr ≤ a ∧ a < addr + n) := by
        omega
      refine step.trans ?_
      rw [notedSofar, within]
      exact or_left_comm
    · simp [madeSofar]
    · intro entry mem
      rcases mem_append.mp mem with old | last
      · exact wider entry old
      · exact ⟨n, Nat.lt_succ_self n, mem_singleton.mp last⟩
    · constructor
      · rw [map_append]
        refine nodup_append.mpr ⟨nodup, nodup_singleton _, ?_⟩
        intro b inNew c last same
        have := ((news b).mp inNew).1
        simp only [map_cons, map_nil, mem_singleton] at last
        omega
      · intro a
        rw [map_append, mem_append, news]
        simp only [map_cons, map_nil, mem_singleton]
        constructor
        · rintro (old | rfl)
          · exact ⟨by omega, old.2⟩
          · exact ⟨by omega, unknown⟩
        · rintro ⟨within, notOld⟩
          by_cases last : a = addr + n
          · exact Or.inr last
          · exact Or.inl ⟨by omega, notOld⟩

theorem loaded_foldl (running : t.failed = false) (n : Nat)
    : Loaded cfg r addr n t ((List.range n).foldl (loadByte cfg r addr) t) := by
  induction n with
  | zero =>
    refine ⟨by simp [running], fun _ a => ?_, [], by simp, by simp,
      fun _ => ⟨by simp, fun a => ?_⟩⟩
    · simp
    · simp only [map_nil, not_mem_nil, false_iff]
      omega
  | succ n ih =>
    rw [range_succ, foldl_append]
    exact ih.loadByte

/-- What the store hook's loop did to `n` bytes from `addr` on. -/
structure Stored (addr n : Nat) (t t' : Tables) : Prop where
  failed : t'.failed = t.failed
  made : t'.made = t.made
  noted : ∀ a, a ∈ t'.noted ↔ a ∈ t.noted ∨ (addr ≤ a ∧ a < addr + n)

theorem stored_foldl (n : Nat) : Stored addr n t ((List.range n).foldl (storeByte r addr) t) := by
  induction n with
  | zero =>
    refine ⟨rfl, rfl, fun a => ?_⟩
    simp
  | succ n ih =>
    rw [range_succ, foldl_append]
    simp only [foldl_cons, foldl_nil]
    generalize (List.range n).foldl (storeByte r addr) t = t' at ih
    have within (a : Nat) : (addr ≤ a ∧ a < addr + (n + 1))
        ↔ (addr ≤ a ∧ a < addr + n) ∨ a = addr + n := by
      omega
    unfold storeByte
    by_cases already : addr + n ∈ t'.noted
    · simp only [if_pos already]
      refine ⟨ih.failed, ih.made, fun a => ?_⟩
      rw [within, ← or_assoc, ← ih.noted]
      refine ⟨Or.inl, ?_⟩
      rintro (old | rfl)
      · exact old
      · exact already
    · simp only [if_neg already]
      refine ⟨ih.failed, ih.made, fun a => ?_⟩
      rw [within, ← or_assoc, ← ih.noted]
      simp [Tables.noted, or_comm]

end

end FastPokeEmu.LazyMemory
