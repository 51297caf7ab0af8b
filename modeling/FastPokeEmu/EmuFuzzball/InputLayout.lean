import FastPokeEmu.EmuFuzzball.InputRuns
import Mathlib.Data.List.Nodup
import Mathlib.Data.List.Dedup
import Mathlib.Data.List.Pairwise

/-! Where the inputs lie: the tables of a snapshot whose ranges do not overlap are processed
byte by byte without repetition, each byte with the mask of its place in its entry.
-/

namespace FastPokeEmu.SymbolicInputs

open InputNames List

/-- Ranges without a common address. -/
def Apart (range range' : Nat × Nat) : Prop := ∀ a, Has range a → ¬ Has range' a

instance : Std.Symm Apart where
  symm _ _ apart a holds' holds := apart a holds holds'

theorem apart_of_le {range range' : Nat × Nat} (before : range.1 + range.2 ≤ range'.1)
    : Apart range range' := by
  intro a has has'
  unfold Has at has has'
  omega

/-- Page tables are aligned, so that different ones never overlap. -/
theorem apart_pageRanges (snap : Snapshot) : (pageRanges snap).Pairwise Apart := by
  have aligned (i : Nat) : tableOf snap i % 2 ^ 12 = 0 := by
    rw [tableOf, Nat.and_mod_two_pow]
    exact Nat.and_zero _
  refine List.Pairwise.map _ (fun t t' apart => apart) ?_
  refine List.Pairwise.imp_of_mem ?_ (nodup_dedup _)
  intro t t' mem mem' ne
  obtain ⟨i, _, rfl⟩ := mem_map.mp (mem_dedup.mp mem)
  obtain ⟨k, _, rfl⟩ := mem_map.mp (mem_dedup.mp mem')
  have first := aligned i
  have second := aligned k
  rcases Nat.lt_or_gt_of_ne ne with less | greater
  · exact apart_of_le (by simp only; omega)
  · exact Std.Symm.symm _ _ (apart_of_le (by simp only; omega))

/-- The snapshot pages memory as the script expects, its tables lie in the physical memory,
which the snapshot has, and do not overlap. The emulator keeps its registers elsewhere.
-/
structure Layout (script : Script) (snap : Snapshot) : Prop where
  paged : snap.paged = true
  readable : ∀ range ∈ tables snap, ∀ a, Has range a → a < snap.mem.length
  inside : ∀ range ∈ tables snap, ∀ a, Has range a → a < script.physMem.2
  apart : (tables snap).Pairwise Apart
  registers
    : ∀ r size a, (r, size, a) ∈ script.cpuRegs → ∀ i < max size 2, ¬ Has script.physMem (a + i)

/-- Host addresses without repetition, all of one range of guest addresses. -/
structure Fills (host : Nat) (range : Nat × Nat) (addrs : List Nat) : Prop where
  nodup : addrs.Nodup
  inside : ∀ a ∈ addrs, ∃ g, Has range g ∧ a = g + host

section

variable {script : Script} {snap : Snapshot}

theorem haddr_entryInputs (gaddr : Nat) (sym : Bytes) (masks : List Nat) (mindist : Bool)
    : (entryInputs script snap gaddr sym masks mindist).map Input.haddr
      = List.range' (gaddr + script.physMem.1) masks.length := by
  rw [entryInputs, map_map, List.range'_eq_map_range]
  rfl

/-- A run of entries of one width fills a range of addresses. -/
theorem fills_entries {range : Nat × Nat} {f : Nat → List Input} {first n b w : Nat}
    (addresses : ∀ i, (f i).map Input.haddr = List.range' (b + i * w + script.physMem.1) w)
    (low : range.1 ≤ b + first * w) (high : b + (first + n) * w ≤ range.1 + range.2)
    : Fills script.physMem.1 range (((List.range' first n).flatMap f).map Input.haddr) := by
  have all : ((List.range' first n).flatMap f).map Input.haddr
      = List.range' (b + script.physMem.1 + first * w) (n * w) := by
    rw [map_flatMap, ← Folds.flatMap_range_blocks]
    refine flatMap_congr fun i _ => ?_
    rw [addresses i, Nat.add_right_comm]
  rw [all]
  refine ⟨nodup_range', fun a mem => ?_⟩
  obtain ⟨lower, upper⟩ := mem_range'_1.mp mem
  rw [Nat.add_mul] at high
  exact ⟨a - script.physMem.1, ⟨by omega, by omega⟩, by omega⟩

variable (script snap) in
theorem fills_descriptors (table : TableRegister) (kind : String) (flag : Bool)
    : Fills script.physMem.1 (table.base, table.limit)
        ((table.entries.flatMap (descriptorInputs script snap table kind flag)).map
          Input.haddr) := by
  rcases Nat.lt_or_ge (table.limit / 8) 2 with short | long
  · have none : table.entries = [] := by
      rw [TableRegister.entries, List.range'_eq_nil_iff]
      omega
    rw [none]
    exact ⟨nodup_nil, fun a mem => (not_mem_nil mem).elim⟩
  · refine fills_entries (b := table.base) (w := 8) (fun i => ?_) (by simp) (by simp only; omega)
    rw [descriptorInputs, haddr_entryInputs, length_masksIf]
    rfl

theorem haddr_pageEntryInputs (entry : Nat) (sym : Bytes) (mindist : Bool)
    : (pageEntryInputs script snap entry sym mindist).map Input.haddr
      = List.range' (entry + script.physMem.1) 4 := by
  rw [pageEntryInputs, haddr_entryInputs, length_masksIf]
  rfl

variable (script snap) in
theorem fills_directory
    : Fills script.physMem.1 (directory snap, 2 ^ 12)
        (((List.range (2 ^ 10)).flatMap (pdeInputs script snap)).map Input.haddr) := by
  rw [range_eq_range']
  refine fills_entries (b := directory snap) (w := 4) (fun i => ?_) (by simp) (by simp)
  exact haddr_pageEntryInputs _ _ _

theorem fills_table (i : Nat)
    : Fills script.physMem.1 (tableOf snap i, 2 ^ 12)
        ((tableInputs script snap i).map Input.haddr) := by
  rw [tableInputs, range_eq_range']
  refine fills_entries (b := tableOf snap i) (w := 4) (fun j => ?_) (by simp) (by simp)
  exact haddr_pageEntryInputs _ _ _

theorem Fills.disjoint {host : Nat} {range range' : Nat × Nat} {addrs addrs' : List Nat}
    (fills : Fills host range addrs) (fills' : Fills host range' addrs')
    (apart : Apart range range')
    : List.Disjoint addrs addrs' := by
  intro a mem mem'
  obtain ⟨g, holds, rfl⟩ := fills.inside a mem
  obtain ⟨g', holds', same⟩ := fills'.inside _ mem'
  rw [Nat.add_right_cancel same] at holds
  exact apart g' holds holds'

/-- The page tables walked, each at the first directory entry that points to it. -/
def walkedInputs (script : Script) (snap : Snapshot) (i : Nat) : List Input :=
  if FirstUse snap i then tableInputs script snap i else []

variable (script snap) in
theorem pageInputs_perm
    : ((List.range (2 ^ 10)).flatMap (pdeInputs script snap)
        ++ (List.range (2 ^ 10)).flatMap (walkedInputs script snap)).Perm
        ((List.range (2 ^ 10)).flatMap (pageInputs script snap)) :=
  flatMap_append_perm _ _ _

theorem mem_walked {i : Nat} {a : Nat} (mem : a ∈ (walkedInputs script snap i).map Input.haddr)
    : FirstUse snap i ∧ a ∈ (tableInputs script snap i).map Input.haddr := by
  rw [walkedInputs] at mem
  split at mem
  next use =>
    exact ⟨use, mem⟩
  · cases mem

variable (layout : Layout script snap)

include layout

theorem Layout.walked_nodup
    : (((List.range (2 ^ 10)).flatMap (walkedInputs script snap)).map Input.haddr).Nodup := by
  rw [map_flatMap, nodup_flatMap]
  constructor
  · intro i _
    rw [walkedInputs]
    split
    · exact (fills_table i).nodup
    · exact nodup_nil
  · -- Two tables walked are different ranges of the list.
    have apart := layout.apart
    simp only [tables, pairwise_cons] at apart
    refine List.Pairwise.imp_of_mem ?_ pairwise_lt_range
    intro i k inside inside' before a mem mem'
    obtain ⟨use, mem⟩ := mem_walked mem
    obtain ⟨use', mem'⟩ := mem_walked mem'
    have range := mem_pageRanges (mem_range.mp inside) use.1
    have range' := mem_pageRanges (mem_range.mp inside') use'.1
    have ne := use'.2 i before use.1
    have between := apart.2.2.2.forall range range' (fun same => ne (Prod.mk.inj same).1)
    exact (fills_table i).disjoint (fills_table k) between mem mem'

theorem Layout.nodup : ((memoryInputs script snap).map Input.haddr).Nodup := by
  have apart := layout.apart
  simp only [tables, pairwise_cons, mem_cons] at apart
  obtain ⟨gdt, idt, page, _⟩ := apart
  have walked (range : Nat × Nat) (addrs : List Nat) (fills : Fills script.physMem.1 range addrs)
      (apart : ∀ range' ∈ pageRanges snap, Apart range range')
      : List.Disjoint addrs
          (((List.range (2 ^ 10)).flatMap (walkedInputs script snap)).map Input.haddr) := by
    intro a mem mem'
    rw [map_flatMap, mem_flatMap] at mem'
    obtain ⟨i, inside, mem'⟩ := mem'
    obtain ⟨use, mem'⟩ := mem_walked mem'
    have range' := mem_pageRanges (mem_range.mp inside) use.1
    exact fills.disjoint (fills_table i) (apart _ range') mem mem'
  rw [memoryInputs, map_append, map_append]
  have pages := (pageInputs_perm script snap).map Input.haddr
  rw [map_append] at pages
  have later := (List.Perm.append_left
    ((snap.idtr.entries.flatMap
      (descriptorInputs script snap snap.idtr "IDT" script.symbolicIdt)).map Input.haddr) pages)
  have whole := (List.Perm.append_left
    ((snap.gdtr.entries.flatMap
      (descriptorInputs script snap snap.gdtr "GDT" script.symbolicGdt)).map Input.haddr) later)
  rw [← whole.nodup_iff]
  have gdtFills := fills_descriptors script snap snap.gdtr "GDT" script.symbolicGdt
  have idtFills := fills_descriptors script snap snap.idtr "IDT" script.symbolicIdt
  have dirFills := fills_directory script snap
  refine gdtFills.nodup.append (idtFills.nodup.append
    (dirFills.nodup.append layout.walked_nodup ?_) ?_) ?_
  · exact walked _ _ dirFills page
  · exact disjoint_append_right.mpr
      ⟨idtFills.disjoint dirFills (idt _ (Or.inl rfl)),
        walked _ _ idtFills (fun range mem => idt range (Or.inr mem))⟩
  · exact disjoint_append_right.mpr
      ⟨gdtFills.disjoint idtFills (gdt _ (Or.inl rfl)),
        disjoint_append_right.mpr
          ⟨gdtFills.disjoint dirFills (gdt _ (Or.inr (Or.inl rfl))),
            walked _ _ gdtFills (fun range mem => gdt range (Or.inr (Or.inr mem)))⟩⟩

end

/-- The mask of a byte of an entry that the flags make symbolic. -/
inductive MaskOf (script : Script) (snap : Snapshot) : Nat → Nat → Prop where
  | gdt (i k : Nat) (flag : script.symbolicGdt = true) (entry : i ∈ snap.gdtr.entries)
      (small : k < 8)
      : MaskOf script snap (snap.gdtr.base + i * 8 + k) (mask.getD k 0)
  | idt (i k : Nat) (flag : script.symbolicIdt = true) (entry : i ∈ snap.idtr.entries)
      (small : k < 8)
      : MaskOf script snap (snap.idtr.base + i * 8 + k) (mask.getD k 0)
  | pde (i k : Nat) (flag : script.symbolicPt = true) (entry : i < 2 ^ 10)
      (present : Present snap (pdeOf snap i)) (small : k < 4)
      : MaskOf script snap (pdeOf snap i + k) (pteMask.getD k 0)
  | pte (i j k : Nat) (flag : script.symbolicPt = true) (directoryEntry : i < 2 ^ 10)
      (table : Present snap (pdeOf snap i)) (entry : j < 2 ^ 10)
      (present : Present snap (tableOf snap i + j * 4)) (small : k < 4)
      : MaskOf script snap (tableOf snap i + j * 4 + k) (pteMask.getD k 0)

/-- An input for the byte at a guest address: its name has a symbol, its value is the
snapshot's, and its mask is the one of the table, unless it is concrete.
-/
structure InputAt (script : Script) (snap : Snapshot) (x : Input) (gaddr : Nat) : Prop where
  haddr : x.haddr = gaddr + script.physMem.1
  name : ∃ sym, sym ≠ [] ∧ x.name = memName gaddr sym
  value : x.value = byteOf snap gaddr
  mask : x.mask < 0xff → MaskOf script snap gaddr x.mask

section

variable {script : Script} {snap : Snapshot}

theorem getD_masksIf {P : Prop} [Decidable P] {masks : List Nat} {k : Nat}
    (small : k < masks.length) (symbolic : (masksIf P masks).getD k 0 < 0xff)
    : P ∧ (masksIf P masks).getD k 0 = masks.getD k 0 := by
  rw [masksIf] at symbolic ⊢
  split at symbolic
  next holds =>
    exact ⟨holds, by rw [if_pos holds]⟩
  · rw [getD_eq_getElem?_getD, List.getElem?_replicate_of_lt small] at symbolic
    exact (Nat.lt_irrefl _ symbolic).elim

theorem inputAt_of_mem_entry {P : Prop} [Decidable P] {gaddr : Nat} {sym : Bytes}
    {masks : List Nat} {mindist : Bool} {x : Input}
    (masked : P → ∀ k < masks.length, MaskOf script snap (gaddr + k) (masks.getD k 0))
    (mem : x ∈ entryInputs script snap gaddr sym (masksIf P masks) mindist)
    : ∃ k < masks.length, InputAt script snap x (gaddr + k) := by
  obtain ⟨k, inside, rfl⟩ := mem_map.mp mem
  rw [length_masksIf, mem_range] at inside
  refine ⟨k, inside, ?_⟩
  constructor
  · simp only
    omega
  · exact ⟨byteSym sym k, by simp [byteSym, ascii], rfl⟩
  · rfl
  · intro symbolic
    obtain ⟨holds, same⟩ := getD_masksIf inside symbolic
    simp only [same]
    exact masked holds k inside

theorem inputAt_of_mem_descriptor {table : TableRegister} {kind : String} {flag : Bool} {i : Nat}
    {x : Input} (entry : i ∈ table.entries)
    (masked : flag = true → ∀ k < 8, MaskOf script snap (table.base + i * 8 + k) (mask.getD k 0))
    (mem : x ∈ descriptorInputs script snap table kind flag i)
    : ∃ gaddr, InputAt script snap x gaddr ∧ Has (table.base, table.limit) gaddr := by
  obtain ⟨k, small, holds⟩ := inputAt_of_mem_entry masked mem
  have eight : k < 8 := small
  have bounds := mem_entries.mp entry
  exact ⟨_, holds, by simp only; omega, by simp only; omega⟩

/-- Every input of the tables is one of a byte of the tables. -/
theorem inputAt_of_mem {x : Input} (mem : x ∈ memoryInputs script snap)
    : ∃ gaddr, InputAt script snap x gaddr ∧ ∃ range ∈ tables snap, Has range gaddr := by
  simp only [memoryInputs, mem_append, mem_flatMap, pageInputs, mem_range]
    at mem
  rcases mem with ⟨i, entry, mem⟩ | ⟨i, entry, mem⟩ | ⟨i, small, mem | mem⟩
  · obtain ⟨gaddr, holds, has⟩ := inputAt_of_mem_descriptor entry
      (fun flag k bound => MaskOf.gdt i k flag entry bound) mem
    exact ⟨gaddr, holds, _, mem_tables_gdt, has⟩
  · obtain ⟨gaddr, holds, has⟩ := inputAt_of_mem_descriptor entry
      (fun flag k bound => MaskOf.idt i k flag entry bound) mem
    exact ⟨gaddr, holds, _, mem_tables_idt, has⟩
  · obtain ⟨k, bound, holds⟩ := inputAt_of_mem_entry
      (fun both k bound => MaskOf.pde i k both.2 small both.1 bound) mem
    have four : k < 4 := bound
    exact ⟨_, holds, _, mem_tables_directory, by simp only [pdeOf]; omega,
      by simp only [pdeOf]; omega⟩
  · split at mem
    next use =>
      obtain ⟨j, inside, mem⟩ := mem_flatMap.mp mem
      have entry := mem_range.mp inside
      obtain ⟨k, bound, holds⟩ := inputAt_of_mem_entry
        (fun both k bound => MaskOf.pte i j k both.2 small use.1 entry both.1 bound) mem
      have four : k < 4 := bound
      exact ⟨_, holds, _, mem_tables_of_page (mem_pageRanges small use.1), by simp only; omega,
        by simp only; omega⟩
    · cases mem

variable (script snap) in
theorem exists_mem_entry {P : Prop} [Decidable P] (masks : List Nat) (holds : P) {k : Nat}
    (small : k < masks.length) (gaddr : Nat) (sym : Bytes) (mindist : Bool)
    : ∃ x ∈ entryInputs script snap gaddr sym (masksIf P masks) mindist,
        x.haddr = gaddr + k + script.physMem.1 ∧ x.mask = masks.getD k 0 := by
  rw [masksIf, if_pos holds]
  refine ⟨_, mem_map_of_mem (mem_range.mpr small), ?_, rfl⟩
  simp only
  omega

theorem exists_firstUse {i : Nat} (present : Present snap (pdeOf snap i))
    : ∃ k ≤ i, FirstUse snap k ∧ tableOf snap k = tableOf snap i := by
  induction i using Nat.strong_induction_on with
  | _ i ih =>
    by_cases use : FirstUse snap i
    · exact ⟨i, Nat.le_refl i, use, rfl⟩
    · have earlier : ∃ k < i, Present snap (pdeOf snap k) ∧ tableOf snap k = tableOf snap i := by
        by_contra never
        push Not at never
        exact use ⟨present, never⟩
      obtain ⟨k, before, presentK, same⟩ := earlier
      obtain ⟨first, bound, use, same'⟩ := ih k before presentK
      exact ⟨first, by omega, use, same'.trans same⟩

/-- The input of a byte with a mask. -/
theorem MaskOf.exists_input {gaddr m : Nat} (masked : MaskOf script snap gaddr m)
    : ∃ x ∈ memoryInputs script snap, x.haddr = gaddr + script.physMem.1 ∧ x.mask = m := by
  simp only [memoryInputs, mem_append, mem_flatMap, pageInputs, mem_range]
  cases masked with
  | gdt i k flag entry small =>
    obtain ⟨x, mem, holds⟩ := exists_mem_entry script snap mask flag small
      (snap.gdtr.base + i * 8) (entrySym "GDT" i 8) true
    exact ⟨x, Or.inl ⟨i, entry, mem⟩, holds⟩
  | idt i k flag entry small =>
    obtain ⟨x, mem, holds⟩ := exists_mem_entry script snap mask flag small
      (snap.idtr.base + i * 8) (entrySym "IDT" i 8) true
    exact ⟨x, Or.inr (Or.inl ⟨i, entry, mem⟩), holds⟩
  | pde i k flag entry present small =>
    obtain ⟨x, mem, holds⟩ := exists_mem_entry script snap pteMask
      (And.intro present flag) small (pdeOf snap i) (entrySym "PDE" i 4) false
    exact ⟨x, Or.inr (Or.inr ⟨i, entry, Or.inl mem⟩), holds⟩
  | pte i j k flag directoryEntry table entry present small =>
    obtain ⟨first, bound, use, same⟩ := exists_firstUse table
    obtain ⟨x, mem, holds⟩ := exists_mem_entry script snap pteMask
      (And.intro present flag) small (tableOf snap i + j * 4)
      (entrySym "PTE" first 4) true
    refine ⟨x, Or.inr (Or.inr ⟨first, by omega, Or.inr ?_⟩), holds⟩
    rw [if_pos use]
    refine mem_flatMap.mpr ⟨j, mem_range.mpr entry, ?_⟩
    rw [same]
    exact mem

end

end FastPokeEmu.SymbolicInputs
