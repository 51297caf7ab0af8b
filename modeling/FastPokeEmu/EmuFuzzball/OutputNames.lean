import FastPokeEmu.EmuFuzzball.InputNames
import FastPokeEmu.Library.Assoc

/-! The names under which a path's program writes the bytes that were stored to.
The store hook counts the bytes of a register from the start of the store and of all other
regions from the start of the region, and replaces entries by name. A name stands for the byte
it encodes exactly if every store to a register starts at its first byte, no store leaves its
region, and no two regions share their names.
-/

namespace FastPokeEmu.LazyMemory

open Numerals InputNames List

/-- The name that encodes the offset of a byte from the start of its region. -/
def byteName (r : Region) (iteration offset : Nat) : List Char :=
  storeName r iteration (r.first + offset) offset

def Region.memory (r : Region) : Bool := startsWith r.name "out_mem_".toList

def Region.fpu (r : Region) : Bool := startsWith r.name "out_fpu_".toList

def Region.descriptors (r : Region) : Bool := startsWith r.name "out_desc_cache".toList

/-- Offsets are written in eight hexadecimal digits. -/
def Region.hexed (r : Region) : Bool := r.memory || r.fpu

/-- Bytes are counted from the start of the store. -/
def Region.counted (r : Region) : Bool := !(r.hexed || r.descriptors)

/-- What the names of a region's bytes begin with. -/
def Region.label (r : Region) : List Char :=
  if r.memory then "out_mem_".toList
  else if r.fpu then "out_fpu_".toList
  else if r.descriptors then "out_desc_cache".toList
  else r.name

section

variable {r r' : Region} {iteration k k' : Nat}

theorem storeName_eq (r : Region) (iteration a j : Nat)
    : storeName r iteration a j
      = if r.memory then
          "out_mem_".toList ++ hex8 (a - r.first) ++ "___1_0_".toList ++ age iteration
        else if r.fpu then
          "out_fpu_".toList ++ hex8 (a - r.first) ++ "___1_0_".toList ++ age iteration
        else if r.descriptors then
          "out_desc_cache_".toList ++ dec (a - r.first) ++ "_".toList ++ age iteration
        else r.name ++ "_".toList ++ dec j ++ "_".toList ++ age iteration :=
  rfl

theorem storeName_counted (counted : r.counted = true) (a j : Nat)
    : storeName r iteration a j = byteName r iteration j := by
  rw [byteName, storeName_eq, storeName_eq]
  simp only [Region.counted, Region.hexed, Bool.not_eq_true', Bool.or_eq_false_iff] at counted
  simp only [counted.1.1, counted.1.2, counted.2, Bool.false_eq_true, if_false]

theorem storeName_offset (other : r.counted = false) {a : Nat} (inside : r.first ≤ a) (j : Nat)
    : storeName r iteration a j = byteName r iteration (a - r.first) := by
  have offset : r.first + (a - r.first) - r.first = a - r.first := by omega
  rw [byteName, storeName_eq, storeName_eq, offset]
  simp only [Region.counted, Region.hexed, Bool.not_eq_false', Bool.or_eq_true] at other
  cases memory : r.memory with
  | true => rfl
  | false =>
    cases fpu : r.fpu with
    | true => rfl
    | false =>
      have descriptors : r.descriptors = true := by simpa [memory, fpu] using other
      simp only [descriptors, Bool.false_eq_true, if_false, if_true]

/-- A name without the path's suffix. -/
def stem (r : Region) (offset : Nat) : List Char :=
  if r.hexed then r.label ++ (hex8 offset ++ "___1".toList) ++ '_' :: "0".toList
  else r.label ++ '_' :: dec offset

theorem byteName_eq (r : Region) (iteration offset : Nat)
    : byteName r iteration offset = stem r offset ++ '_' :: age iteration := by
  have back : r.first + offset - r.first = offset := by omega
  rw [byteName, storeName_eq, back, stem, Region.hexed, Region.label]
  cases r.memory with
  | true => simp
  | false =>
    cases r.fpu with
    | true => simp
    | false => cases r.descriptors <;> simp

theorem underscore_not_mem_dec (n : Nat) : '_' ∉ dec n := by
  intro mem
  obtain ⟨d, small, same⟩ := mem_dec mem
  have other : Nat.digitChar d ≠ '_' := by decide +revert
  exact other same.symm

theorem dec_injective : Function.Injective dec := by
  intro m n same
  have parsed := congrArg (parse 10) same
  rw [dec, dec, parse_print (by decide) (by decide), parse_print (by decide) (by decide)] at parsed
  exact Option.some.inj parsed

theorem append_last_underscore_inj {a b rest rest' : List Char} (plain : '_' ∉ rest)
    (plain' : '_' ∉ rest') (same : a ++ '_' :: rest = b ++ '_' :: rest')
    : a = b ∧ rest = rest' := by
  have reversed := congrArg List.reverse same
  simp only [reverse_append, reverse_cons, append_assoc, singleton_append]
    at reversed
  have parts := append_underscore_inj (fun mem => plain (mem_reverse.mp mem))
    (fun mem => plain' (mem_reverse.mp mem)) reversed
  exact ⟨reverse_injective parts.2, reverse_injective parts.1⟩

theorem Region.label_of_hexed (hexed : r.hexed = true)
    : r.label = "out_mem_".toList ∨ r.label = "out_fpu_".toList := by
  rw [Region.label]
  rcases Bool.or_eq_true_iff.mp hexed with memory | fpu
  · exact .inl (if_pos memory)
  · cases r.memory with
    | true => exact .inl rfl
    | false => exact .inr (by rw [if_neg Bool.false_ne_true, if_pos fpu])

theorem Region.startsWith_label (decimal : r.hexed = false)
    : startsWith r.label "out_mem_".toList = false
      ∧ startsWith r.label "out_fpu_".toList = false := by
  obtain ⟨memory, fpu⟩ := Bool.or_eq_false_iff.mp decimal
  rw [Region.label, memory, fpu]
  cases r.descriptors with
  | true => simp [startsWith]
  | false => exact ⟨memory, fpu⟩

theorem stem_ne (hexed : r.hexed = true) (decimal : r'.hexed = false) : stem r k ≠ stem r' k' := by
  intro same
  rw [stem, if_pos hexed, stem, decimal, if_neg Bool.false_ne_true] at same
  have zero : '_' ∉ "0".toList := by decide
  obtain ⟨label, _⟩ := append_last_underscore_inj zero (underscore_not_mem_dec k') same
  obtain ⟨memory, fpu⟩ := Region.startsWith_label decimal
  rcases Region.label_of_hexed hexed with is | is
  · rw [← label, is, startsWith_append] at memory
    cases memory
  · rw [← label, is, startsWith_append] at fpu
    cases fpu

/-- A name determines the label and the offset. -/
theorem byteName_inj (same : byteName r iteration k = byteName r' iteration k')
    : r.label = r'.label ∧ k = k' := by
  rw [byteName_eq, byteName_eq, append_left_inj] at same
  cases hexed : r.hexed with
  | true =>
    cases hexed' : r'.hexed with
    | true =>
      rw [stem, if_pos hexed, stem, if_pos hexed', append_left_inj] at same
      have length : r.label.length = r'.label.length := by
        rcases Region.label_of_hexed hexed with is | is <;>
          rcases Region.label_of_hexed hexed' with is' | is' <;> simp [is, is']
      obtain ⟨label, digits⟩ := append_inj same length
      exact ⟨label, hex8_injective (append_left_injective _ digits)⟩
    | false => exact (stem_ne hexed hexed' same).elim
  | false =>
    cases hexed' : r'.hexed with
    | true => exact (stem_ne hexed' hexed same.symm).elim
    | false =>
      rw [stem, hexed, if_neg Bool.false_ne_true, stem, hexed', if_neg Bool.false_ne_true]
        at same
      obtain ⟨label, digits⟩ := append_last_underscore_inj (underscore_not_mem_dec k)
        (underscore_not_mem_dec k') same
      exact ⟨label, dec_injective digits⟩

theorem byteName_of_label (label : r.label = r'.label) (iteration k : Nat)
    : byteName r iteration k = byteName r' iteration k := by
  have hexed : r.hexed = r'.hexed := by
    have agrees {r r' : Region} (label : r.label = r'.label) (hexed : r.hexed = true)
        : r'.hexed = true := by
      by_contra decimal
      obtain ⟨memory, fpu⟩ := Region.startsWith_label (Bool.not_eq_true _ ▸ decimal)
      rw [← label] at memory fpu
      rcases Region.label_of_hexed hexed with is | is
      · simp [is, startsWith] at memory
      · simp [is, startsWith] at fpu
    exact Bool.eq_iff_iff.mpr ⟨agrees label, agrees label.symm⟩
  rw [byteName_eq, byteName_eq, stem, stem, label, hexed]

end

/-- Stores of one path, each with its address and its type's number of bits. -/
def runStores (cfg : Config) (t : Tables) (stores : List (Nat × Nat)) : Tables :=
  stores.foldl (fun t s => storeHook cfg t s.1 s.2) t

/-- The entries that one store adds, in this order. -/
def hookWrites (cfg : Config) (iteration : Nat) (s : Nat × Nat) : List (List Char × Nat) :=
  match matched cfg.trackedRegions s.1 with
  | some r => (List.range (s.2 / 8)).map (fun j => (storeName r iteration (s.1 + j) j, s.1 + j))
  | none => []

section

variable {cfg : Config} {r : Region} {iteration : Nat}

theorem storeByte_stores (r : Region) (addr : Nat) (t : Tables) (j : Nat)
    : (storeByte r addr t j).stores
        = Assoc.put t.stores (storeName r t.iteration (addr + j) j, addr + j)
      ∧ (storeByte r addr t j).iteration = t.iteration := by
  unfold storeByte
  by_cases noted : addr + j ∈ t.noted
  · simp only [if_pos noted]
    exact ⟨rfl, trivial⟩
  · simp only [if_neg noted]
    exact ⟨rfl, trivial⟩

theorem storeBytes_stores (r : Region) (addr : Nat) (js : List Nat) (t : Tables)
    : (js.foldl (storeByte r addr) t).stores
        = (js.map (fun j => (storeName r t.iteration (addr + j) j, addr + j))).foldl Assoc.put
            t.stores
      ∧ (js.foldl (storeByte r addr) t).iteration = t.iteration := by
  induction js generalizing t with
  | nil => exact ⟨rfl, rfl⟩
  | cons j js ih =>
    obtain ⟨stores, same⟩ := storeByte_stores r addr t j
    obtain ⟨later, still⟩ := ih (storeByte r addr t j)
    rw [foldl_cons, map_cons, foldl_cons, later, still, stores, same]
    exact ⟨rfl, rfl⟩

theorem storeHook_stores (cfg : Config) (t : Tables) (s : Nat × Nat)
    : (storeHook cfg t s.1 s.2).stores = (hookWrites cfg t.iteration s).foldl Assoc.put t.stores
      ∧ (storeHook cfg t s.1 s.2).iteration = t.iteration := by
  unfold storeHook hookWrites
  cases matched cfg.trackedRegions s.1 with
  | none => exact ⟨rfl, rfl⟩
  | some r => exact storeBytes_stores r s.1 _ t

theorem runStores_stores (cfg : Config) (t : Tables) (stores : List (Nat × Nat))
    : (runStores cfg t stores).stores
      = (stores.flatMap (hookWrites cfg t.iteration)).foldl Assoc.put t.stores := by
  induction stores generalizing t with
  | nil => rfl
  | cons s stores ih =>
    obtain ⟨first, same⟩ := storeHook_stores cfg t s
    rw [flatMap_cons, foldl_append, ← first, ← same]
    exact ih (storeHook cfg t s.1 s.2)

/-- A byte was stored to. -/
def Written (stores : List (Nat × Nat)) (a : Nat) : Prop :=
  ∃ s ∈ stores, s.1 ≤ a ∧ a < s.1 + s.2 / 8

/-- `finish_path_hook` writes the content of the byte of every entry. -/
def outvars {E : Type} (content : Nat → E) (table : List (List Char × Nat))
    : List (List Char × E) :=
  table.map (fun entry => (entry.1, content entry.2))

/-- The entries of a table identify the bytes that were stored to. -/
structure Identifies (cfg : Config) (iteration : Nat) (stores : List (Nat × Nat))
    (table : List (List Char × Nat)) : Prop where
  entry
    : ∀ a, a ∈ table.map Prod.snd ↔ InRegions cfg.trackedRegions a ∧ Written stores a
  once : (table.map Prod.snd).Nodup
  name
    : ∀ entry ∈ table,
        ∀ r ∈ cfg.trackedRegions,
          r.Holds entry.2 → entry.1 = byteName r iteration (entry.2 - r.first)
  apart : (table.map Prod.fst).Nodup
  output
    : ∀ {E : Type} (content : Nat → E) (r : Region) (a : Nat),
        r ∈ cfg.trackedRegions
        → r.Holds a
        → Written stores a
        → (outvars content table).lookup (byteName r iteration (a - r.first))
          = some (content a)

/-- A store stays in the region it starts in; if that is a register, then it starts at its first
byte.
-/
def Fits (cfg : Config) (s : Nat × Nat) : Prop :=
  ∀ r ∈ cfg.trackedRegions,
    r.Holds s.1 → ∀ j < s.2 / 8, r.Holds (s.1 + j) ∧ (r.counted = true → s.1 = r.first)

/-- Bytes that were stored to differ in their offsets or in the labels of their regions. -/
def Distinguished (cfg : Config) (stores : List (Nat × Nat)) : Prop :=
  ∀ r ∈ cfg.trackedRegions,
    ∀ r' ∈ cfg.trackedRegions,
      ∀ a a',
        r.Holds a
        → r'.Holds a'
        → Written stores a
        → Written stores a'
        → r.label = r'.label
        → a - r.first = a' - r'.first
        → a = a'

def Disjoint (regions : List Region) : Prop :=
  ∀ r ∈ regions, ∀ r' ∈ regions, ∀ a, r.Holds a → r'.Holds a → r = r'

theorem Fits.storeName {s : Nat × Nat} (fits : Fits cfg s) (mem : r ∈ cfg.trackedRegions)
    (holds : r.Holds s.1) {j : Nat} (small : j < s.2 / 8) (iteration : Nat)
    : storeName r iteration (s.1 + j) j = byteName r iteration (s.1 + j - r.first) := by
  have inside := holds.1
  cases counted : r.counted with
  | true =>
    have first := (fits r mem holds j small).2 counted
    have index : s.1 + j - r.first = j := by omega
    rw [storeName_counted counted, index]
  | false => exact storeName_offset counted (by omega) j

section

variable {stores : List (Nat × Nat)}

theorem mem_writes_iff (iteration : Nat) (disjoint : Disjoint cfg.trackedRegions)
    (starts : ∀ s ∈ stores, InRegions cfg.trackedRegions s.1)
    (fits : ∀ s ∈ stores, Fits cfg s) (entry : List Char × Nat)
    : entry ∈ stores.flatMap (hookWrites cfg iteration)
      ↔ ∃ r ∈ cfg.trackedRegions,
          r.Holds entry.2
          ∧ Written stores entry.2
          ∧ entry.1 = byteName r iteration (entry.2 - r.first) := by
  rw [mem_flatMap]
  constructor
  · intro written
    obtain ⟨s, mem, written⟩ := written
    cases found : matched cfg.trackedRegions s.1 with
    | none => exact (matched_none_iff.mp found (starts s mem)).elim
    | some r =>
      obtain ⟨tracked, holds⟩ := matched_some found
      rw [hookWrites, found] at written
      obtain ⟨j, small, rfl⟩ := mem_map.mp written
      have small := mem_range.mp small
      refine ⟨r, tracked, (fits s mem r tracked holds j small).1,
        ⟨s, mem, by omega, by omega⟩, ?_⟩
      exact (fits s mem).storeName tracked holds small iteration
  · intro named
    obtain ⟨r, tracked, holds, ⟨s, mem, lower, upper⟩, name⟩ := named
    refine ⟨s, mem, ?_⟩
    cases found : matched cfg.trackedRegions s.1 with
    | none => exact (matched_none_iff.mp found (starts s mem)).elim
    | some r' =>
      obtain ⟨tracked', start⟩ := matched_some found
      have byte : s.1 + (entry.2 - s.1) = entry.2 := by omega
      have small : entry.2 - s.1 < s.2 / 8 := by omega
      have inside := (fits s mem r' tracked' start _ small).1
      rw [byte] at inside
      cases disjoint r tracked r' tracked' entry.2 holds inside
      rw [hookWrites, found]
      refine mem_map.mpr ⟨entry.2 - s.1, mem_range.mpr small, ?_⟩
      rw [(fits s mem).storeName tracked start small iteration, byte, ← name]

/-- Stores that fit, to bytes that are distinguished, leave a table that identifies them. -/
theorem identifies_of_fits (made : List (Nat × List Char)) (iteration : Nat)
    (disjoint : Disjoint cfg.trackedRegions)
    (starts : ∀ s ∈ stores, InRegions cfg.trackedRegions s.1)
    (fits : ∀ s ∈ stores, Fits cfg s) (distinguished : Distinguished cfg stores)
    : Identifies cfg iteration stores
        (runStores cfg (fresh made iteration) stores).stores := by
  have writes := mem_writes_iff iteration disjoint starts fits
  rw [runStores_stores]
  have functional
      : ∀ p ∈ stores.flatMap (hookWrites cfg iteration),
          ∀ q ∈ stores.flatMap (hookWrites cfg iteration), p.1 = q.1 → p = q := by
    intro p hp q hq same
    obtain ⟨r, tracked, holds, written, name⟩ := (writes p).mp hp
    obtain ⟨r', tracked', holds', written', name'⟩ := (writes q).mp hq
    rw [name, name'] at same
    obtain ⟨label, offset⟩ := byteName_inj same
    have address := distinguished r tracked r' tracked' p.2 q.2 holds holds' written written'
      label offset
    exact Prod.ext (by rw [name, name', same]) address
  have entries (entry : List Char × Nat) := (Assoc.mem_foldl_put_iff functional entry).trans
    (writes entry)
  have apart
      : (((stores.flatMap (hookWrites cfg iteration)).foldl Assoc.put []).map Prod.fst).Nodup :=
    Assoc.nodup_foldl_put _ nodup_nil
  change Identifies cfg iteration stores
    ((stores.flatMap (hookWrites cfg iteration)).foldl Assoc.put [])
  generalize (stores.flatMap (hookWrites cfg iteration)).foldl Assoc.put [] = table
    at entries apart
  refine ⟨?_, ?_, ?_, apart, ?_⟩
  · intro a
    constructor
    · intro mem
      obtain ⟨entry, inside, rfl⟩ := mem_map.mp mem
      obtain ⟨r, tracked, holds, written, _⟩ := (entries entry).mp inside
      exact ⟨⟨r, tracked, holds⟩, written⟩
    · intro stored
      obtain ⟨⟨r, tracked, holds⟩, written⟩ := stored
      have inside := (entries (byteName r iteration (a - r.first), a)).mpr
        ⟨r, tracked, holds, written, rfl⟩
      exact mem_map.mpr ⟨_, inside, rfl⟩
  · refine apart.of_map.map_on (fun p hp q hq same => ?_)
    obtain ⟨r, tracked, holds, _, name⟩ := (entries p).mp hp
    obtain ⟨r', tracked', holds', _, name'⟩ := (entries q).mp hq
    rw [← same] at holds' name'
    cases disjoint r tracked r' tracked' p.2 holds holds'
    exact Prod.ext (name.trans name'.symm) same
  · intro entry mem r tracked holds
    obtain ⟨r', tracked', holds', _, name⟩ := (entries entry).mp mem
    cases disjoint r tracked r' tracked' entry.2 holds holds'
    exact name
  · intro E content r a tracked holds written
    have keys : (outvars content table).map Prod.fst = table.map Prod.fst := by
      rw [outvars, map_map]
      rfl
    apply (Assoc.lookup_eq_some_iff_mem (keys ▸ apart)).mpr
    exact mem_map.mpr ⟨_, (entries (_, a)).mpr ⟨r, tracked, holds, written, rfl⟩, rfl⟩

/-- Right after a store its bytes have the names that the hook gave them. -/
theorem mem_runStores_last (t : Tables) (stores : List (Nat × Nat)) {s : Nat × Nat}
    (found : matched cfg.trackedRegions s.1 = some r) {j : Nat} (small : j < s.2 / 8)
    : (storeName r t.iteration (s.1 + j) j, s.1 + j)
      ∈ (runStores cfg t (stores ++ [s])).stores := by
  rw [runStores_stores, flatMap_append, foldl_append, flatMap_cons,
    flatMap_nil, append_nil, hookWrites, found]
  have inside := (matched_some found).2.1
  apply Assoc.mem_foldl_put_of_nodup
  · rw [map_map]
    apply nodup_range.map
    intro i j same
    replace same : storeName r t.iteration (s.1 + i) i = storeName r t.iteration (s.1 + j) j := same
    cases counted : r.counted with
    | true =>
      rw [storeName_counted counted, storeName_counted counted] at same
      exact (byteName_inj same).2
    | false =>
      rw [storeName_offset counted (by omega), storeName_offset counted (by omega)] at same
      have offsets := (byteName_inj same).2
      omega
  · exact mem_map.mpr ⟨j, mem_range.mpr small, rfl⟩

/-- A store fits if the names are right after it. -/
theorem Identifies.fits {made : List (Nat × List Char)} {s : Nat × Nat}
    (disjoint : Disjoint cfg.trackedRegions) (start : InRegions cfg.trackedRegions s.1)
    (identifies : Identifies cfg iteration (stores ++ [s])
      (runStores cfg (fresh made iteration) (stores ++ [s])).stores)
    : Fits cfg s := by
  intro r tracked holds j small
  cases found : matched cfg.trackedRegions s.1 with
  | none => exact (matched_none_iff.mp found start).elim
  | some r' =>
    obtain ⟨tracked', holds'⟩ := matched_some found
    cases disjoint r tracked r' tracked' s.1 holds holds'
    have mem := mem_runStores_last (fresh made iteration) stores found small
    obtain ⟨⟨r', tracked', holds'⟩, _⟩ := (identifies.entry _).mp (mem_map.mpr ⟨_, mem, rfl⟩)
    have name := identifies.name _ mem r' tracked' holds'
    have lower := holds.1
    have upper := holds'.2
    have lower' := holds'.1
    cases counted : r.counted with
    | true =>
      rw [storeName_counted counted] at name
      have index := (byteName_inj name).2
      have first : r'.Holds s.1 := ⟨by omega, by omega⟩
      cases disjoint r tracked r' tracked' s.1 holds first
      exact ⟨holds', fun _ => by omega⟩
    | false =>
      rw [storeName_offset counted (by omega)] at name
      have index := (byteName_inj name).2
      have first : r'.Holds r.first := ⟨by omega, by omega⟩
      have own : r.Holds r.first := ⟨Nat.le_refl _, lower.trans holds.2⟩
      cases disjoint r tracked r' tracked' r.first own first
      exact ⟨holds', fun impossible => (Bool.false_ne_true impossible).elim⟩

/-- For disjoint regions and every sequence of stores that start in one of them: after each of the
stores the table identifies the bytes stored to so far, exactly if all stores fit, and all bytes
that are stored to are distinguished.
-/
theorem outputs_identify_iff (made : List (Nat × List Char)) (iteration : Nat)
    (disjoint : Disjoint cfg.trackedRegions)
    (starts : ∀ s ∈ stores, InRegions cfg.trackedRegions s.1)
    : (∀ n,
        Identifies cfg iteration (stores.take n)
          (runStores cfg (fresh made iteration) (stores.take n)).stores)
      ↔ (∀ s ∈ stores, Fits cfg s) ∧ Distinguished cfg stores := by
  constructor
  · intro identifies
    constructor
    · intro s member
      obtain ⟨before, after, split⟩ := append_of_mem member
      have upTo : stores.take (before.length + 1) = before ++ [s] := by
        rw [split, take_append]
        simp
      have here := identifies (before.length + 1)
      rw [upTo] at here
      exact here.fits disjoint (starts s member)
    · have final := identifies stores.length
      rw [take_length] at final
      intro r tracked r' tracked' a a' holds holds' written written' label offset
      have left := final.output id r a tracked holds written
      have right := final.output id r' a' tracked' holds' written'
      rw [byteName_of_label label, offset, right] at left
      exact (Option.some.inj left).symm
  · intro fits n
    obtain ⟨fits, distinguished⟩ := fits
    have within : ∀ s ∈ stores.take n, s ∈ stores := fun s => mem_of_mem_take
    have earlier {a : Nat} (written : Written (stores.take n) a) : Written stores a := by
      obtain ⟨s, member, touched⟩ := written
      exact ⟨s, within s member, touched⟩
    apply identifies_of_fits made iteration disjoint
    · exact fun s member => starts s (within s member)
    · exact fun s member => fits s (within s member)
    · intro r tracked r' tracked' a a' holds holds' written written'
      exact distinguished r tracked r' tracked' a a' holds holds' (earlier written)
        (earlier written')

end

/-- One register and the physical memory. -/
def twoRegions : Config where
  symbolicBytes := []
  lazyRegions := []
  trackedRegions :=
    [⟨0x100, 0x103, "out_reg_EAX__4".toList⟩, ⟨0x1000, 0x1fff, "out_mem___1".toList⟩]

theorem disjoint_twoRegions : Disjoint twoRegions.trackedRegions := by
  intro r mem r' mem' a holds holds'
  simp only [twoRegions, mem_cons, not_mem_nil, or_false] at mem mem'
  obtain ⟨lower, upper⟩ := holds
  obtain ⟨lower', upper'⟩ := holds'
  rcases mem with rfl | rfl
  · rcases mem' with rfl | rfl
    · rfl
    · simp only at upper lower'
      omega
  · rcases mem' with rfl | rfl
    · simp only at upper' lower
      omega
    · rfl

theorem fits_twoRegions {s : Nat × Nat}
    (aligned : s = (0x100, 32) ∨ s = (0x100, 8) ∨ s = (0x1003, 32))
    : Fits twoRegions s := by
  intro r mem holds j small
  simp only [twoRegions, mem_cons, not_mem_nil, or_false] at mem
  obtain ⟨lower, upper⟩ := holds
  rcases mem with rfl | rfl
  · rcases aligned with rfl | rfl | rfl
    · exact ⟨⟨by simp, by simp at small ⊢; omega⟩, fun _ => rfl⟩
    · exact ⟨⟨by simp, by simp at small ⊢; omega⟩, fun _ => rfl⟩
    · simp at upper
  · rcases aligned with rfl | rfl | rfl
    · simp at lower
    · simp at lower
    · refine ⟨⟨by simp; omega, by simp at small ⊢; omega⟩, fun counted => ?_⟩
      simp [Region.counted, Region.hexed, Region.memory, startsWith] at counted

theorem distinguished_twoRegions (stores : List (Nat × Nat)) : Distinguished twoRegions stores := by
  intro r mem r' mem' a a' holds holds' _ _ label offset
  have lower := holds.1
  have lower' := holds'.1
  simp only [twoRegions, mem_cons, not_mem_nil, or_false] at mem mem'
  rcases mem with rfl | rfl
  · rcases mem' with rfl | rfl
    · omega
    · simp [Region.label, Region.memory, Region.fpu, Region.descriptors, startsWith] at label
  · rcases mem' with rfl | rfl
    · simp [Region.label, Region.memory, Region.fpu, Region.descriptors, startsWith] at label
    · omega

/-- The whole register, its lowest byte, and a word in the middle of the memory. -/
theorem outputs_identify_iff_aligned
    : let stores := [(0x100, 32), (0x100, 8), (0x1003, 32)]
      Identifies twoRegions 0 (stores.take 3)
        (runStores twoRegions (fresh [] 0) (stores.take 3)).stores := by
  refine (outputs_identify_iff [] 0 disjoint_twoRegions ?_).mpr ⟨?_, distinguished_twoRegions _⟩ 3
  · decide
  · intro s member
    apply fits_twoRegions
    simpa using member

/-- A store to AH is entered as the lowest byte of EAX. -/
theorem runStores_middle_of_register
    : (runStores twoRegions (fresh [] 0) [(0x101, 8)]).stores
        = [("out_reg_EAX__4_0_65535".toList, 0x101)]
      ∧ byteName ⟨0x100, 0x103, "out_reg_EAX__4".toList⟩ 0 1
        = "out_reg_EAX__4_1_65535".toList := by
  decide +kernel

end

end FastPokeEmu.LazyMemory
