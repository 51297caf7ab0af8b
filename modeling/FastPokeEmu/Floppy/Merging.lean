import FastPokeEmu.Floppy.Gadget

/-! The declared effects of merged gadgets (`Gadget.__add__` and `merge_glist`): a merged
gadget writes what its last writer writes, however the list is bracketed.
-/

namespace FastPokeEmu.Floppy

open List Gadget LocSet

/-- Different locations of a kind do not overlap. -/
def Apart (locs : Loc → Prop) : Prop := ∀ x y, locs x → locs y → x.same y = true → x = y

/-- A Python set of locations of a kind that do not overlap. -/
structure LocSet.Proper (locs : Loc → Prop) (s : LocSet) : Prop where
  within : ∀ x ∈ s, locs x
  nodup : s.Nodup

namespace LocSet

section

variable {locs : Loc → Prop} {s t : LocSet} {x y : Loc}

theorem has_iff_mem (apart : Apart locs) (proper : s.Proper locs) (known : locs x)
    : s.has x = true ↔ x ∈ s := by
  constructor
  · intro present
    obtain ⟨y, mem, same⟩ := has_iff.mp present
    rw [apart x y known (proper.within y mem) same]
    exact mem
  · exact has_of_mem

theorem Proper.nil : Proper locs [] := ⟨fun _ => nofun, nodup_nil⟩

section

variable (apart : Apart locs)

include apart

theorem mem_add (proper : s.Proper locs) (known : locs y) : x ∈ s.add y ↔ x ∈ s ∨ x = y := by
  rw [add]
  split
  next present =>
    have mem := (has_iff_mem apart proper known).mp present
    exact ⟨.inl, fun either => either.elim id (fun equal => equal ▸ mem)⟩
  · simp

theorem Proper.add (proper : s.Proper locs) (known : locs y) : (s.add y).Proper locs := by
  refine ⟨fun x mem => ?_, ?_⟩
  · rcases (mem_add apart proper known).mp mem with old | rfl
    · exact proper.within x old
    · exact known
  · rw [LocSet.add]
    split
    · exact proper.nodup
    next absent =>
      have new : y ∉ s := fun mem => absent (has_of_mem mem)
      exact nodup_append.mpr ⟨proper.nodup, nodup_singleton y, by
        rintro a mem b inSingle rfl
        exact new (mem_singleton.mp inSingle ▸ mem)⟩

theorem union_spec (proper : s.Proper locs) (known : ∀ y ∈ t, locs y)
    : (s.union t).Proper locs ∧ ∀ x, x ∈ s.union t ↔ x ∈ s ∨ x ∈ t := by
  induction t generalizing s with
  | nil => exact ⟨proper, fun x => by simp [union]⟩
  | cons y rest ih =>
    have first := known y mem_cons_self
    obtain ⟨res, members⟩ := ih (proper.add apart first)
      (fun z mem => known z (mem_cons_of_mem _ mem))
    refine ⟨res, fun x => (members x).trans ?_⟩
    rw [mem_add apart proper first, mem_cons, or_assoc]

theorem eraseP_same (proper : s.Proper locs) (known : locs y) : s.eraseP y.same = s.erase y := by
  induction s with
  | nil => rfl
  | cons x rest ih =>
    have tail : Proper locs rest :=
      ⟨fun z mem => proper.within z (mem_cons_of_mem _ mem), (nodup_cons.mp proper.nodup).2⟩
    by_cases equal : x = y
    · subst equal
      rw [erase_cons_head, eraseP_cons_of_pos x.same_refl]
    · have ne : ¬ y.same x = true := fun same =>
        equal (apart y x known (proper.within x mem_cons_self) same).symm
      rw [erase_cons_tail (by simpa using equal), eraseP_cons_of_neg ne, ih tail]

theorem diff_spec (proper : s.Proper locs) (known : ∀ y ∈ t, locs y)
    : (s.diff t).Proper locs ∧ ∀ x, x ∈ s.diff t ↔ x ∈ s ∧ x ∉ t := by
  induction t generalizing s with
  | nil => exact ⟨proper, fun x => by simp [diff]⟩
  | cons y rest ih =>
    have discard := eraseP_same apart proper (known y mem_cons_self)
    have smaller : Proper locs (s.erase y) :=
      ⟨fun x mem => proper.within x (mem_of_mem_erase mem), proper.nodup.erase y⟩
    obtain ⟨res, members⟩ := ih smaller (fun z mem => known z (mem_cons_of_mem _ mem))
    rw [← discard] at res members
    refine ⟨res, fun x => (members x).trans ?_⟩
    rw [discard, proper.nodup.mem_erase_iff, mem_cons]
    tauto

theorem inter_spec (left : s.Proper locs) (right : t.Proper locs)
    : ∀ x, x ∈ s.inter t ↔ x ∈ s ∧ x ∈ t := by
  intro x
  rw [inter]
  split
  · rw [mem_filter]
    exact and_congr_right fun mem => has_iff_mem apart right (left.within x mem)
  · rw [mem_filter, and_comm]
    exact and_congr_left fun mem => has_iff_mem apart left (right.within x mem)

theorem Proper.ofList {xs : List Loc} (known : ∀ x ∈ xs, locs x) : (ofList xs).Proper locs :=
  (union_spec apart .nil known).1

end

end

end LocSet

/-- The sets of a gadget have locations of a kind. -/
structure Gadget.Within (locs : Loc → Prop) (g : Gadget) : Prop where
  define : g.define.Proper locs
  kill : g.kill.Proper locs
  use : g.use.Proper locs

namespace Gadget

section

variable {locs : Loc → Prop} {a b : Gadget} {x : Loc}

theorem Within.make (apart : Apart locs) {asm : List Asm} {mnemonic : String}
    {define kill use use__ : List Loc} (known : ∀ x ∈ define ++ kill ++ use, locs x)
    : (Gadget.make asm mnemonic define kill use use__).Within locs where
  define := .ofList apart fun x mem => known x (by simp [mem])
  kill := .ofList apart fun x mem => known x (by simp [mem])
  use := .ofList apart fun x mem => known x (by simp [mem])

/-- The sets of a sum, as the source computes them but for overlaps. -/
structure Sum (locs : Loc → Prop) (a b : Gadget) : Prop where
  within : (a.add b).Within locs
  define : ∀ x, x ∈ (a.add b).define ↔ (x ∈ a.define ∨ x ∈ b.define) ∧ x ∉ b.kill
  kill : ∀ x, x ∈ (a.add b).kill ↔ (x ∈ a.kill ∨ x ∈ b.kill) ∧ ¬ (x ∈ a.kill ∧ x ∈ b.define)
  use : ∀ x, x ∈ (a.add b).use
    ↔ (((x ∈ a.use ∨ x ∈ b.use) ∧ x ∉ b.kill) ∧ x ∉ a.kill) ∧ ¬ (x ∈ a.define ∧ x ∈ b.use)

theorem add_sum (apart : Apart locs) (left : a.Within locs) (right : b.Within locs)
    : Sum locs a b := by
  -- Each set is a union from which the cycles are removed.
  obtain ⟨defines, inDefines⟩ := union_spec apart left.define right.define.within
  obtain ⟨kills, inKills⟩ := union_spec apart left.kill right.kill.within
  obtain ⟨uses, inUses⟩ := union_spec apart left.use right.use.within
  have redefined := inter_spec apart left.kill right.define
  have provided := inter_spec apart left.define right.use
  obtain ⟨define, inDefine⟩ := diff_spec apart defines right.kill.within
  obtain ⟨kill, inKill⟩ := diff_spec apart kills
    (fun x mem => left.kill.within x ((redefined x).mp mem).1)
  obtain ⟨use1, inUse1⟩ := diff_spec apart uses right.kill.within
  obtain ⟨use2, inUse2⟩ := diff_spec apart use1 left.kill.within
  obtain ⟨use3, inUse3⟩ := diff_spec apart use2
    (fun x mem => left.define.within x ((provided x).mp mem).1)
  refine ⟨⟨define, kill, use3⟩, fun x => ?_, fun x => ?_, fun x => ?_⟩
  · exact (inDefine x).trans (and_congr_left' (inDefines x))
  · exact (inKill x).trans (and_congr (inKills x) (not_congr (redefined x)))
  · refine (inUse3 x).trans (and_congr ?_ (not_congr (provided x)))
    refine (inUse2 x).trans (and_congr_left' ?_)
    exact (inUse1 x).trans (and_congr_left' (inUses x))

end

/-- What a gadget does to a location. -/
inductive Write
  | define | kill
  deriving DecidableEq, Repr

def write (g : Gadget) (x : Loc) : Option Write :=
  if x ∈ g.define then some .define else if x ∈ g.kill then some .kill else none

/-- No location is both defined and killed. -/
def Decided (g : Gadget) : Prop := ∀ x, ¬ (x ∈ g.define ∧ x ∈ g.kill)

section

variable {locs : Loc → Prop} {a b g : Gadget} {x : Loc}

theorem write_eq_define : g.write x = some .define ↔ x ∈ g.define := by
  rw [write]
  split
  · exact iff_of_true rfl ‹_›
  · split <;> simp_all

theorem write_eq_kill (decided : g.Decided) : g.write x = some .kill ↔ x ∈ g.kill := by
  rw [write]
  split
  next defined =>
    exact iff_of_false nofun (fun killed => decided x ⟨defined, killed⟩)
  · split <;> simp_all

theorem write_eq_none : g.write x = none ↔ x ∉ g.define ∧ x ∉ g.kill := by
  rw [write]
  split
  · simp_all
  · split <;> simp_all

/-- A sum is decided and writes what its second gadget writes, else what its first does. -/
theorem write_add (sum : Sum locs a b) (left : a.Decided) (right : b.Decided)
    : (a.add b).Decided ∧ ∀ x, (a.add b).write x = (b.write x).or (a.write x) := by
  have decided : (a.add b).Decided := by
    rintro x ⟨defined, killed⟩
    rw [sum.define] at defined
    rw [sum.kill] at killed
    have := left x
    have := right x
    tauto
  refine ⟨decided, fun x => ?_⟩
  cases second : b.write x with
  | none =>
    obtain ⟨notDefined, notKilled⟩ := write_eq_none.mp second
    have defines := sum.define x
    have kills := sum.kill x
    simp only [notDefined, notKilled, or_false, not_false_eq_true, and_true, and_false]
      at defines kills
    simp only [write, defines, kills, Option.or]
  | some w =>
    cases w with
    | define =>
      have defined := write_eq_define.mp second
      exact write_eq_define.mpr ((sum.define x).mpr ⟨.inr defined, fun killed =>
        right x ⟨defined, killed⟩⟩)
    | kill =>
      have killed := (write_eq_kill right).mp second
      exact (write_eq_kill decided).mpr ((sum.kill x).mpr ⟨.inr killed, fun both =>
        right x ⟨both.2, killed⟩⟩)

end

end Gadget

/-- Ways to add up a non-empty list of gadgets. -/
inductive Bracketing
  | gadget (g : Gadget)
  | pair (left right : Bracketing)

namespace Bracketing

def leaves : Bracketing → List Gadget
  | gadget g => [g]
  | pair left right => left.leaves ++ right.leaves

def sum : Bracketing → Gadget
  | gadget g => g
  | pair left right => left.sum.add right.sum

theorem leftmost_fold (t : Bracketing) (rest : List Gadget)
    : (rest.foldl (fun t h => .pair t (.gadget h)) t).sum = rest.foldl Gadget.add t.sum
      ∧ (rest.foldl (fun t h => .pair t (.gadget h)) t).leaves = t.leaves ++ rest := by
  induction rest generalizing t with
  | nil => exact ⟨rfl, (append_nil _).symm⟩
  | cons h rest ih =>
    obtain ⟨sums, all⟩ := ih (.pair t (.gadget h))
    exact ⟨sums, all.trans (append_assoc _ _ _)⟩

/-- The sum writes what the last of its gadgets that writes at all does. -/
theorem write_sum {locs : Loc → Prop} (apart : Apart locs) (t : Bracketing)
    (within : ∀ g ∈ t.leaves, g.Within locs) (decided : ∀ g ∈ t.leaves, g.Decided)
    : t.sum.Within locs ∧ t.sum.Decided
      ∧ ∀ x, t.sum.write x = t.leaves.reverse.findSome? (fun g => g.write x) := by
  induction t with
  | gadget g =>
    refine ⟨within g (mem_singleton.mpr rfl), decided g (mem_singleton.mpr rfl), fun x => ?_⟩
    simp [sum, leaves]
  | pair left right first second =>
    simp only [leaves, mem_append] at within decided
    obtain ⟨within1, decided1, writes1⟩ := first (fun g mem => within g (.inl mem))
      (fun g mem => decided g (.inl mem))
    obtain ⟨within2, decided2, writes2⟩ := second (fun g mem => within g (.inr mem))
      (fun g mem => decided g (.inr mem))
    have sums := add_sum apart within1 within2
    obtain ⟨res, writes⟩ := write_add sums decided1 decided2
    refine ⟨sums.within, res, fun x => (writes x).trans ?_⟩
    rw [writes1, writes2, leaves, reverse_append, List.findSome?_append]

end Bracketing

/-- The last gadget of a list that defines or kills a location has it in a given set. -/
def LastIn (effect : Gadget → LocSet) (gs : List Gadget) (x : Loc) : Prop :=
  ∃ before g after, gs = before ++ g :: after ∧ x ∈ effect g
    ∧ ∀ h ∈ after, x ∉ h.define ∧ x ∉ h.kill

section

variable {locs : Loc → Prop} {gs : List Gadget} {x : Loc}

theorem lastIn_iff {effect : Gadget → LocSet} {w : Gadget.Write}
    (writes : ∀ g ∈ gs, g.write x = some w ↔ x ∈ effect g)
    : gs.reverse.findSome? (fun g => g.write x) = some w ↔ LastIn effect gs x := by
  rw [List.findSome?_eq_some_iff]
  constructor
  · rintro ⟨after, g, before, split, found, silent⟩
    have shape : gs = before.reverse ++ g :: after.reverse := by
      rw [← reverse_reverse gs, split]
      simp
    refine ⟨before.reverse, g, after.reverse, shape, (writes g (by simp [shape])).mp found,
      fun h mem => ?_⟩
    exact write_eq_none.mp (silent h (mem_reverse.mp mem))
  · rintro ⟨before, g, after, shape, found, silent⟩
    refine ⟨after.reverse, g, before.reverse, by simp [shape],
      (writes g (by simp [shape])).mpr found, fun h mem => ?_⟩
    exact write_eq_none.mpr (silent h (mem_reverse.mp mem))

theorem Bracketing.lastWriter (apart : Apart locs) (t : Bracketing)
    (within : ∀ g ∈ t.leaves, g.Within locs) (decided : ∀ g ∈ t.leaves, g.Decided)
    : t.sum.Decided
      ∧ (∀ x, x ∈ t.sum.define ↔ LastIn Gadget.define t.leaves x)
      ∧ ∀ x, x ∈ t.sum.kill ↔ LastIn Gadget.kill t.leaves x := by
  obtain ⟨_, res, writes⟩ := t.write_sum apart within decided
  refine ⟨res, fun x => ?_, fun x => ?_⟩
  · rw [← write_eq_define, writes]
    exact lastIn_iff fun g _ => write_eq_define
  · rw [← write_eq_kill res, writes]
    exact lastIn_iff fun g mem => write_eq_kill (decided g mem)

theorem merge_cons (mnemonic : String) (g : Gadget) (rest : List Gadget)
    : ∃ m, Gadget.merge mnemonic (g :: rest) = some m
        ∧ m.define = (rest.foldl Gadget.add g).define
        ∧ m.kill = (rest.foldl Gadget.add g).kill
        ∧ m.use = (rest.foldl Gadget.add g).use := by
  rw [Gadget.merge]
  split
  · exact ⟨_, rfl, rfl, rfl, rfl⟩
  · exact ⟨_, rfl, rfl, rfl, rfl⟩

/-- A merged gadget defines what its last writer defines and kills what its last writer
kills, and so does every other way to add up the list. Witness: a later write replaces an
earlier one, which is associative.
-/
theorem merge_lastWriter (apart : Apart locs) (mnemonic : String) (nonempty : gs ≠ [])
    (within : ∀ g ∈ gs, g.Within locs) (decided : ∀ g ∈ gs, g.Decided)
    : ∃ m, Gadget.merge mnemonic gs = some m
        ∧ (∀ x, x ∈ m.define ↔ LastIn Gadget.define gs x)
        ∧ (∀ x, x ∈ m.kill ↔ LastIn Gadget.kill gs x)
        ∧ (∀ x, ¬ (x ∈ m.define ∧ x ∈ m.kill))
        ∧ ∀ t : Bracketing, t.leaves = gs
            → (∀ x, x ∈ t.sum.define ↔ x ∈ m.define) ∧ ∀ x, x ∈ t.sum.kill ↔ x ∈ m.kill := by
  have others (t : Bracketing) (all : t.leaves = gs) := t.lastWriter apart
    (fun g member => within g (all ▸ member)) (fun g member => decided g (all ▸ member))
  cases gs with
  | nil => exact (nonempty rfl).elim
  | cons g rest =>
    obtain ⟨m, merged, define, kill, _⟩ := merge_cons mnemonic g rest
    obtain ⟨sums, all⟩ := Bracketing.leftmost_fold (.gadget g) rest
    obtain ⟨result, defines, kills⟩ := others _ all
    rw [sums, all] at defines kills
    rw [sums] at result
    refine ⟨m, merged, fun x => ?_, fun x => ?_, fun x => ?_, fun t leaves => ?_⟩
    · rw [define]
      exact defines x
    · rw [kill]
      exact kills x
    · rw [define, kill]
      exact result x
    · obtain ⟨_, defines', kills'⟩ := others t leaves
      rw [leaves] at defines' kills'
      rw [define, kill]
      exact ⟨fun x => (defines' x).trans (defines x).symm,
        fun x => (kills' x).trans (kills x).symm⟩

end

/-- Two registers, and gadgets that define, kill and define them again. -/
def twoRegs (x : Loc) : Prop := x ∈ [.reg Gpr.eax.name, .reg Gpr.ecx.name]

theorem apart_twoRegs : Apart twoRegs := by
  intro x y first second same
  simp only [twoRegs, mem_cons, not_mem_nil, or_false] at first second
  rcases first with rfl | rfl <;> rcases second with rfl | rfl
  · rfl
  · cases same
  · cases same
  · rfl

def defineKillDefine : List Gadget :=
  [.make [] "a" [.reg Gpr.eax.name] [.reg Gpr.ecx.name] [] [],
    .make [] "b" [] [.reg Gpr.eax.name] [] [],
    .make [] "c" [.reg Gpr.ecx.name] [] [] []]

theorem merge_lastWriter_defineKillDefine
    : ∃ m, Gadget.merge "m" defineKillDefine = some m
        ∧ (∀ x, x ∈ m.define ↔ LastIn Gadget.define defineKillDefine x)
        ∧ (∀ x, x ∈ m.kill ↔ LastIn Gadget.kill defineKillDefine x)
        ∧ (∀ x, ¬ (x ∈ m.define ∧ x ∈ m.kill))
        ∧ ∀ t : Bracketing, t.leaves = defineKillDefine
            → (∀ x, x ∈ t.sum.define ↔ x ∈ m.define)
              ∧ ∀ x, x ∈ t.sum.kill ↔ x ∈ m.kill := by
  refine merge_lastWriter apart_twoRegs "m" nofun (fun g member => ?_) (fun g member => ?_)
  · simp only [defineKillDefine, mem_cons, not_mem_nil, or_false] at member
    rcases member with rfl | rfl | rfl
    all_goals exact .make apart_twoRegs (by simp [twoRegs])
  · rintro x ⟨defined, killed⟩
    revert g
    have disjoint : ∀ g ∈ defineKillDefine, ∀ y ∈ g.define, y ∉ g.kill := by decide
    exact fun g member defined killed => disjoint g member x defined killed

end FastPokeEmu.Floppy
