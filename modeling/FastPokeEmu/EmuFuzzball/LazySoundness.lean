import FastPokeEmu.EmuFuzzball.LazyMemory

/-! Which bytes the load hook makes symbolic over whole runs, and under which names.
-/

namespace FastPokeEmu.LazyMemory

open Numerals List

/-- The name of the memory byte at a guest physical address. -/
def memName (gaddr : Nat) : List Char := "in_mem_".toList ++ hex8 gaddr ++ "__1_0".toList

theorem memName_injective : Function.Injective memName := by
  intro m n same
  have tails := append_cancel_right same
  exact pad_print_injective (by decide) (by decide) 8 (append_cancel_left tails)

/-- Every variable is named by its guest physical address, and no two bytes share one, be it
on different paths.
-/
structure NamedByAddress (base : Nat) (cfg : Config) : Prop where
  named
    : ∀ events a name, (a, name) ∈ (explore cfg events).made → name = memName (a - base)
  distinct
    : ∀ events events' a a' name,
        (a, name) ∈ (explore cfg events).made → (a', name) ∈ (explore cfg events').made → a = a'

section

variable {cfg : Config} {t : Tables} {P : Nat × List Char → Prop}

section

variable (each : ∀ r ∈ cfg.lazyRegions, ∀ addr i, r.Holds addr
  → P (addr + i, loadName r (addr + i) i))

include each

/-- A property of the variables that every byte of a matched region has. -/
theorem access_made {a : Access} (sofar : ∀ entry ∈ t.made, P entry)
    : ∀ entry ∈ (t.access cfg a).made, P entry := by
  unfold Tables.access
  by_cases stopped : t.failed = true
  · simpa only [if_pos stopped] using sofar
  have running : t.failed = false := by simpa using stopped
  simp only [if_neg stopped]
  cases a with
  | load addr ty =>
    simp only [loadHook]
    cases found : matched cfg.lazyRegions addr with
    | none => exact sofar
    | some r =>
      obtain ⟨mem, holds⟩ := matched_some found
      have loaded : Loaded cfg r addr (ty / 8) t _ := loaded_foldl running (ty / 8)
      obtain ⟨new, made, entries, _⟩ := loaded.made
      intro entry inMade
      rw [made] at inMade
      rcases mem_append.mp inMade with old | inNew
      · exact sofar entry old
      · obtain ⟨i, _, rfl⟩ := entries entry inNew
        exact each r mem addr i holds
  | store addr ty =>
    simp only [storeHook]
    cases matched cfg.trackedRegions addr with
    | none => exact sofar
    | some r =>
      have stored : Stored addr (ty / 8) t _ := stored_foldl (r := r) (ty / 8)
      rw [stored.made]
      exact sofar

theorem explore_made (events : List Event) : ∀ entry ∈ (explore cfg events).made, P entry := by
  have upTo (t : Tables) (sofar : ∀ entry ∈ t.made, P entry)
      : ∀ entry ∈ (events.foldl (Tables.event cfg) t).made, P entry := by
    induction events generalizing t with
    | nil => exact sofar
    | cons event rest ih =>
      refine ih _ ?_
      cases event with
      | access a => exact access_made each sofar
      | finishPath counted =>
        simp only [Tables.event]
        split
        · exact sofar
        · exact sofar
  exact upTo _ (by simp [fresh])

end

end

section

variable {base size : Nat} {s c : List Nat} {tracked : List Region}

theorem mem_missing {a : Nat}
    : a ∈ missing (base, size) s c ↔ (base ≤ a ∧ a < base + size) ∧ a ∉ s ∧ a ∉ c := by
  simp [missing, mem_range'_1]

theorem mem_lazyRegions {r : Region}
    : r ∈ (scriptConfig (base, size) s c tracked).lazyRegions
      ↔ (r.first, r.last) ∈ computeMissingLocs (base, size) s c
        ∧ r.name = "in_mem___1".toList := by
  obtain ⟨first, last, name⟩ := r
  simp only [scriptConfig, mem_reverse, mem_map, Prod.exists, Region.mk.injEq]
  constructor
  · rintro ⟨_, _, mem, rfl, rfl, rfl⟩
    exact ⟨mem, rfl⟩
  · rintro ⟨mem, rfl⟩
    exact ⟨first, last, mem, rfl, rfl, rfl⟩

theorem loadName_lazy {r : Region} (name : r.name = "in_mem___1".toList) (a i : Nat)
    : loadName r a i = memName (a - r.first) := by
  have kind : startsWith "in_mem___1".toList "in_mem_".toList = true := by decide +kernel
  unfold loadName memName
  rw [name, kind]
  simp only [if_true]

theorem first_missing {first last : Nat}
    (mem : (first, last) ∈ computeMissingLocs (base, size) s c)
    : first ∈ missing (base, size) s c :=
  (mem_locs first).mp ⟨_, _, mem, Nat.le_refl first, locs_ordered mem⟩

theorem first_eq_base {first last : Nat}
    (initial : ∀ a ∈ missing (base, size) s c, ∀ b, base ≤ b → b ≤ a → b ∈ missing (base, size) s c)
    (mem : (first, last) ∈ computeMissingLocs (base, size) s c)
    : first = base := by
  have inside := first_missing mem
  have low : base ≤ first := (mem_missing.mp inside).1.1
  by_contra later
  have previous := initial first inside (first - 1) (by omega) (by omega)
  have start : first - 1 + 1 ≠ first := locs_starts mem previous
  omega

/-- The first byte of a region, loaded at the start of a path. -/
theorem made_first {first last : Nat}
    (mem : (first, last) ∈ computeMissingLocs (base, size) s c)
    : (explore (scriptConfig (base, size) s c tracked) [.access (.load first 8)]).made
      = [(first, memName 0)] := by
  have ordered := locs_ordered mem
  have inside := first_missing mem
  have notEager : first ∉ s := (mem_missing.mp inside).2.1
  cases found : matched (scriptConfig (base, size) s c tracked).lazyRegions first with
  | none =>
    have outside := matched_none.mp found ⟨first, last, "in_mem___1".toList⟩
      (mem_lazyRegions.mpr ⟨mem, rfl⟩)
    exact absurd ⟨Nat.le_refl first, ordered⟩ outside
  | some r =>
    obtain ⟨inRegions, holds⟩ := matched_some found
    -- Regions are separated, so the matched one starts at this byte.
    have same : r.first = first := by
      have region := (mem_lazyRegions.mp inRegions).1
      by_contra differs
      have below : r.first < first := Nat.lt_of_le_of_ne holds.1 differs
      have previous : first - 1 ∈ missing (base, size) s c :=
        (mem_locs _).mp
          ⟨_, _, region, by omega, Nat.le_trans (Nat.sub_le _ _) holds.2⟩
      have start : first - 1 + 1 ≠ first := locs_starts mem previous
      omega
    have name := loadName_lazy (mem_lazyRegions.mp inRegions).2 first 0
    rw [same, Nat.sub_self] at name
    have eager : first ∉ (scriptConfig (base, size) s c tracked).symbolicBytes := notEager
    simp [explore, Tables.event, Tables.access, loadHook, found, loadByte, fresh, Tables.noted,
      range_succ, name, eager]

/-- Lazy bytes are named by guest physical address in every run exactly if the bytes left to
be made symbolic are the first bytes of the memory. Witness: names count from the start of
the region, and only then do all regions start at the base.
-/
theorem namedByAddress_iff
    : NamedByAddress base (scriptConfig (base, size) s c tracked)
      ↔ ∀ a ∈ missing (base, size) s c, ∀ b, base ≤ b → b ≤ a
          → b ∈ missing (base, size) s c := by
  constructor
  · intro all a inside b low high
    obtain ⟨first, last, member, within⟩ := (mem_locs a).mpr inside
    have ordered := locs_ordered member
    have entry : (first, memName 0)
        ∈ (explore (scriptConfig (base, size) s c tracked) [.access (.load first 8)]).made := by
      rw [made_first member]
      exact mem_singleton_self _
    have offset : 0 = first - base := memName_injective (all.named _ _ _ entry)
    exact (mem_locs b).mp ⟨_, _, member, by omega, Nat.le_trans high within.2⟩
  · intro initial
    have entries (events : List Event)
        : ∀ entry ∈ (explore (scriptConfig (base, size) s c tracked) events).made,
            base ≤ entry.1 ∧ entry.2 = memName (entry.1 - base) :=
      explore_made (P := fun entry => base ≤ entry.1 ∧ entry.2 = memName (entry.1 - base))
      (by
        intro r member addr i holds
        have start : r.first = base := first_eq_base initial (mem_lazyRegions.mp member).1
        have low : r.first ≤ addr := holds.1
        refine ⟨show base ≤ addr + i by omega, ?_⟩
        show loadName r (addr + i) i = memName (addr + i - base)
        rw [loadName_lazy (mem_lazyRegions.mp member).2, start])
      events
    refine ⟨fun events a name made => (entries events _ made).2, ?_⟩
    intro events events' a a' name made made'
    obtain ⟨low, named⟩ := entries events _ made
    obtain ⟨low', named'⟩ := entries events' _ made'
    have offsets : a - base = a' - base := memName_injective (named.symm.trans named')
    have low : base ≤ a := low
    have low' : base ≤ a' := low'
    omega

/-- Two regions: their first bytes get one name, which is the name of neither but the first. -/
theorem lazy_names_collide
    : (explore (scriptConfig (0x1000, 4) [0x1001] [] [])
        [.access (.load 0x1000 8), .access (.load 0x1002 8)]).made
      = [(0x1000, memName 0), (0x1002, memName 0)]
      ∧ ¬ NamedByAddress 0x1000 (scriptConfig (0x1000, 4) [0x1001] [] []) := by
  have made : (explore (scriptConfig (0x1000, 4) [0x1001] [] [])
      [.access (.load 0x1000 8), .access (.load 0x1002 8)]).made
      = [(0x1000, memName 0), (0x1002, memName 0)] := by
    decide +kernel
  refine ⟨made, fun all => ?_⟩
  have same := all.distinct _ _ 0x1000 0x1002 (memName 0)
    (made ▸ mem_cons_self) (made ▸ mem_cons_of_mem _ mem_cons_self)
  omega

end

def Access.addr : Access → Nat
  | .load addr _ => addr
  | .store addr _ => addr

def Access.ty : Access → Nat
  | .load _ ty => ty
  | .store _ ty => ty

def Access.isLoad : Access → Prop
  | .load _ _ => True
  | .store _ _ => False

/-- The byte is one of those accessed. -/
def Access.Covers (acc : Access) (a : Nat) : Prop := acc.addr ≤ a ∧ a < acc.addr + acc.ty / 8

instance (acc : Access) (a : Nat) : Decidable (acc.Covers a) := inferInstanceAs (Decidable (_ ∧ _))

/-- Regions that decide whether the access's hook does anything. -/
def Access.watched (cfg : Config) : Access → List Region
  | .load _ _ => cfg.lazyRegions
  | .store _ _ => cfg.trackedRegions

/-- Some access covered the byte. -/
def Covered (done : List Access) (a : Nat) : Prop := ∃ acc ∈ done, acc.Covers a

/-- Some access covered the byte that starts in a region watched by its hook. -/
def CoveredFromInside (cfg : Config) (done : List Access) (a : Nat) : Prop :=
  ∃ acc ∈ done, acc.Covers a ∧ InRegions (acc.watched cfg) acc.addr

/-- The run of a path: no assertion fails, and each access makes symbolic exactly, and once,
the bytes that it loads, that lie in a lazy region and that no earlier access covered.
-/
def Exact (cfg : Config) (start : Tables) (path : List Access) : Prop :=
  ∀ done acc rest,
    path = done ++ acc :: rest
    → ((done ++ [acc]).foldl (Tables.access cfg) start).failed = false
      ∧ ∃ new,
          ((done ++ [acc]).foldl (Tables.access cfg) start).made
            = (done.foldl (Tables.access cfg) start).made ++ new
          ∧ (new.map Prod.fst).Nodup
          ∧ ∀ a,
              a ∈ new.map Prod.fst
              ↔ acc.isLoad
                ∧ acc.Covers a
                ∧ InRegions cfg.lazyRegions a
                ∧ ¬ Covered done a

/-- A load starting in a lazy region has no eagerly symbolic byte, and all its bytes outside
lazy regions or covered before were covered by an access that the hooks saw; another load
reaches no lazy byte for the first time.
-/
def Aligned (cfg : Config) (done : List Access) : Access → Prop
  | .load addr ty =>
    (InRegions cfg.lazyRegions addr
      → ∀ a,
          (Access.load addr ty).Covers a
          → a ∉ cfg.symbolicBytes
            ∧ (¬ InRegions cfg.lazyRegions a ∨ Covered done a
                → CoveredFromInside cfg done a))
    ∧ (¬ InRegions cfg.lazyRegions addr
        → ∀ a,
            (Access.load addr ty).Covers a → InRegions cfg.lazyRegions a → Covered done a)
  | .store _ _ => True

section

variable {cfg : Config} {made : List (Nat × List Char)} {iteration : Nat}

/-- What one access does while no assertion has failed. -/
structure Accessed (cfg : Config) (acc : Access) (t t' : Tables) : Prop where
  failed
    : t'.failed = false
      ↔ (acc.isLoad
          → InRegions cfg.lazyRegions acc.addr
          → ∀ a, acc.Covers a → a ∉ cfg.symbolicBytes)
  noted
    : t'.failed = false
      → ∀ a,
          a ∈ t'.noted ↔ a ∈ t.noted ∨ (acc.Covers a ∧ InRegions (acc.watched cfg) acc.addr)
  made
    : t'.failed = false
      → ∃ new,
          t'.made = t.made ++ new
          ∧ (new.map Prod.fst).Nodup
          ∧ ∀ a,
              a ∈ new.map Prod.fst
              ↔ acc.isLoad
                ∧ acc.Covers a
                ∧ InRegions cfg.lazyRegions acc.addr
                ∧ a ∉ t.noted

theorem accessed {t : Tables} (running : t.failed = false) (acc : Access)
    : Accessed cfg acc t (t.access cfg acc) := by
  have going : ¬ t.failed = true := by simp [running]
  unfold Tables.access
  simp only [if_neg going]
  cases acc with
  | load addr ty =>
    simp only [loadHook]
    cases found : matched cfg.lazyRegions addr with
    | none =>
      have outside : ¬ InRegions cfg.lazyRegions addr := matched_none_iff.mp found
      refine ⟨?_, fun _ a => ?_, fun _ => ⟨[], by simp, by simp, fun a => ?_⟩⟩
      · simp [running, Access.addr, outside]
      · simp [Access.watched, Access.addr, outside]
      · simp [Access.addr, outside]
    | some r =>
      obtain ⟨mem, holds⟩ := matched_some found
      have inside : InRegions cfg.lazyRegions addr := ⟨r, mem, holds⟩
      have loaded : Loaded cfg r addr (ty / 8) t _ := loaded_foldl running (ty / 8)
      obtain ⟨new, made, _, exact_⟩ := loaded.made
      refine ⟨?_, fun ok a => ?_, fun ok => ⟨new, made, (exact_ ok).1, fun a => ?_⟩⟩
      · rw [loaded.failed]
        constructor
        · intro none _ _ a covers
          obtain ⟨i, rfl⟩ := Nat.exists_eq_add_of_le covers.1
          exact none i (Nat.lt_of_add_lt_add_left covers.2)
        · intro none i below
          exact none trivial inside (addr + i)
            ⟨Nat.le_add_right _ _, Nat.add_lt_add_left below addr⟩
      · rw [loaded.noted ok a]
        simp [Access.Covers, Access.addr, Access.ty, Access.watched, inside]
      · rw [(exact_ ok).2 a]
        simp [Access.isLoad, Access.Covers, Access.addr, Access.ty, inside]
  | store addr ty =>
    simp only [storeHook]
    cases found : matched cfg.trackedRegions addr with
    | none =>
      have outside : ¬ InRegions cfg.trackedRegions addr := matched_none_iff.mp found
      refine ⟨by simp [running, Access.isLoad], fun _ a => ?_,
        fun _ => ⟨[], by simp, by simp, by simp [Access.isLoad]⟩⟩
      simp [Access.watched, Access.addr, outside]
    | some r =>
      obtain ⟨mem, holds⟩ := matched_some found
      have inside : InRegions cfg.trackedRegions addr := ⟨r, mem, holds⟩
      have stored : Stored addr (ty / 8) t _ := stored_foldl (r := r) (ty / 8)
      refine ⟨by simp [stored.failed, running, Access.isLoad], fun _ a => ?_,
        fun _ => ⟨[], by simp [stored.made], by simp, by simp [Access.isLoad]⟩⟩
      rw [stored.noted a]
      simp [Access.Covers, Access.addr, Access.ty, Access.watched, inside]

theorem foldl_failed {t : Tables} (failed : t.failed = true) (path : List Access)
    : path.foldl (Tables.access cfg) t = t := by
  induction path with
  | nil => rfl
  | cons acc rest ih =>
    rw [foldl_cons]
    simpa [Tables.access, failed] using ih

/-- While no assertion fails, the table holds the bytes covered by accesses the hooks saw. -/
theorem noted_foldl (done : List Access)
    (running : (done.foldl (Tables.access cfg) (fresh made iteration)).failed = false) (a : Nat)
    : a ∈ (done.foldl (Tables.access cfg) (fresh made iteration)).noted
      ↔ CoveredFromInside cfg done a := by
  induction done using reverseRecOn with
  | nil => simp [fresh, Tables.noted, CoveredFromInside]
  | append_singleton done acc ih =>
    rw [foldl_append] at running ⊢
    simp only [foldl_cons, foldl_nil] at running ⊢
    have before : (done.foldl (Tables.access cfg) (fresh made iteration)).failed = false := by
      refine Bool.eq_false_iff.mpr (fun failed => ?_)
      simp [Tables.access, failed] at running
    rw [(accessed before acc).noted running a, ih before]
    simp only [CoveredFromInside, mem_append, mem_singleton, or_and_right, exists_or,
      exists_eq_left]

/-- One access is exact in its history if and only if it is aligned. -/
theorem exact_access_iff {t : Tables} {done : List Access} {acc : Access}
    (running : t.failed = false) (noted : ∀ a, a ∈ t.noted ↔ CoveredFromInside cfg done a)
    : ((t.access cfg acc).failed = false
        ∧ ∃ new,
            (t.access cfg acc).made = t.made ++ new
            ∧ (new.map Prod.fst).Nodup
            ∧ ∀ a,
                a ∈ new.map Prod.fst
                ↔ acc.isLoad ∧ acc.Covers a ∧ InRegions cfg.lazyRegions a ∧ ¬ Covered done a)
      ↔ Aligned cfg done acc := by
  have did : Accessed cfg acc t (t.access cfg acc) := accessed running acc
  have known (a : Nat) (seen : CoveredFromInside cfg done a) : Covered done a := by
    obtain ⟨earlier, mem, covers, _⟩ := seen
    exact ⟨earlier, mem, covers⟩
  cases acc with
  | store addr ty =>
    have ok : (t.access cfg (.store addr ty)).failed = false :=
      did.failed.mpr (fun load => load.elim)
    obtain ⟨new, made, nodup, entries⟩ := did.made ok
    refine ⟨fun _ => trivial, fun _ => ⟨ok, new, made, nodup, fun a => ?_⟩⟩
    rw [entries a]
    simp [Access.isLoad]
  | load addr ty =>
    constructor
    · rintro ⟨ok, new, made, _, entries⟩
      obtain ⟨new', made', _, entries'⟩ := did.made ok
      have same : new' = new := append_cancel_left (made'.symm.trans made)
      subst same
      refine ⟨fun inside a covers => ⟨did.failed.mp ok trivial inside a covers, ?_⟩, ?_⟩
      · intro reason
        by_contra unseen
        have isNew : a ∈ new'.map Prod.fst :=
          (entries' a).mpr ⟨trivial, covers, inside, fun old => unseen ((noted a).mp old)⟩
        obtain ⟨_, _, lazily, uncovered⟩ := (entries a).mp isNew
        rcases reason with outside | before
        · exact outside lazily
        · exact uncovered before
      · intro outside a covers lazily
        by_contra uncovered
        have isNew := (entries a).mpr ⟨trivial, covers, lazily, uncovered⟩
        exact outside ((entries' a).mp isNew).2.2.1
    · rintro ⟨fromInside, fromOutside⟩
      have ok : (t.access cfg (.load addr ty)).failed = false :=
        did.failed.mpr (fun _ inside a covers => (fromInside inside a covers).1)
      obtain ⟨new, made, nodup, entries⟩ := did.made ok
      refine ⟨ok, new, made, nodup, fun a => ?_⟩
      rw [entries a, noted a]
      constructor
      · rintro ⟨_, covers, inside, unseen⟩
        have expected := (fromInside inside a covers).2
        refine ⟨trivial, covers, ?_, fun before => unseen (expected (Or.inr before))⟩
        by_contra outside
        exact unseen (expected (Or.inl outside))
      · rintro ⟨_, covers, lazily, uncovered⟩
        refine ⟨trivial, covers, ?_, fun seen => uncovered (known a seen)⟩
        by_contra outside
        exact uncovered (fromOutside outside a covers lazily)

/-- A path makes exactly the right bytes symbolic if and only if each of its loads is
aligned. Witness: the table holds what accesses starting inside a watched region covered.
-/
theorem exact_iff_aligned {path : List Access}
    : Exact cfg (fresh made iteration) path
      ↔ ∀ done acc rest, path = done ++ acc :: rest → Aligned cfg done acc := by
  constructor
  · intro exact_ done acc rest split
    have here := exact_ done acc rest split
    have running : (done.foldl (Tables.access cfg) (fresh made iteration)).failed = false := by
      refine Bool.eq_false_iff.mpr (fun failed => ?_)
      rw [foldl_append, foldl_failed failed, failed] at here
      cases here.1
    refine (exact_access_iff running (noted_foldl done running)).mp ?_
    simpa only [foldl_append, foldl_cons, foldl_nil] using here
  · intro aligned
    -- No prefix fails, by induction on its length.
    have running (done rest : List Access) (split : path = done ++ rest)
        : (done.foldl (Tables.access cfg) (fresh made iteration)).failed = false := by
      induction done using reverseRecOn generalizing rest with
      | nil => rfl
      | append_singleton done acc ih =>
        have whole : path = done ++ acc :: rest := by simpa using split
        have before := ih (acc :: rest) whole
        have here := (exact_access_iff before (noted_foldl done before)).mpr
          (aligned done acc rest whole)
        simpa only [foldl_append, foldl_cons, foldl_nil] using here.1
    intro done acc rest split
    have before := running done (acc :: rest) split
    have here := (exact_access_iff before (noted_foldl done before)).mpr
      (aligned done acc rest split)
    simpa only [foldl_append, foldl_cons, foldl_nil] using here

/-- A 32-bit load that starts two bytes before a lazy region leaves its first two bytes as
they are.
-/
theorem straddling_load_missed
    : ¬ Exact
        { symbolicBytes := []
          lazyRegions := [⟨0x1000, 0x10ff, "in_mem___1".toList⟩]
          trackedRegions := [⟨0, 0xffff, "out_mem___1".toList⟩] }
        (fresh [] 0) [.load 0x0ffe 32] := by
  intro exact_
  obtain ⟨_, new, made, _, entries⟩ := exact_ [] (.load 0x0ffe 32) [] rfl
  have nothing : new = [] := append_cancel_left (made.symm.trans rfl)
  have missed := (entries 0x1000).mpr ⟨trivial, by decide, by decide, by simp [Covered]⟩
  rw [nothing] at missed
  cases missed

end

end FastPokeEmu.LazyMemory
