import FastPokeEmu.Floppy.Merging

/-! The reads of merged gadgets. `Gadget.__add__` removes reads that would make gadgets depend
on themselves, and removes reads of values from before with them.
-/

namespace FastPokeEmu.Floppy

open List Gadget

/-- The code of the list reads the value that a location has before: no gadget before the
reader has written it.
-/
def Exposed (gs : List Gadget) (x : Loc) : Prop :=
  ∃ before g after, gs = before ++ g :: after ∧ x ∈ g.use ∧ ∀ h ∈ before, x ∉ h.define ∧ x ∉ h.kill

/-- No gadget kills a location, and none reads it after another has defined it. -/
structure ReadFirst (gs : List Gadget) (x : Loc) : Prop where
  noKill : ∀ g ∈ gs, x ∉ g.kill
  noReadBack : gs.Pairwise (fun g h => x ∈ g.define → x ∉ h.use)

section

variable {locs : Loc → Prop} {x : Loc}

/-- A read survives while no gadget kills the location or reads it back. The gadget merged
so far and the rest of the list satisfy this together.
-/
theorem use_foldl_of_readFirst (apart : Apart locs) {acc : Gadget} {rest : List Gadget}
    (within : ∀ g ∈ acc :: rest, g.Within locs) (readFirst : ReadFirst (acc :: rest) x)
    (read : ∃ g ∈ acc :: rest, x ∈ g.use)
    : x ∈ (rest.foldl Gadget.add acc).use := by
  induction rest generalizing acc with
  | nil =>
    obtain ⟨g, mem, used⟩ := read
    exact mem_singleton.mp mem ▸ used
  | cons b rest ih =>
    obtain ⟨noKill, noReadBack⟩ := readFirst
    simp only [mem_cons, forall_eq_or_imp] at within noKill
    obtain ⟨fromAcc, fromB, later⟩ : (∀ h ∈ b :: rest, x ∈ acc.define → x ∉ h.use)
        ∧ (∀ h ∈ rest, x ∈ b.define → x ∉ h.use)
        ∧ rest.Pairwise (fun g h => x ∈ g.define → x ∉ h.use) := by
      simpa only [pairwise_cons] using noReadBack
    have sum := add_sum apart within.1 within.2.1
    refine ih (forall_mem_cons.mpr ⟨sum.within, within.2.2⟩) ⟨?_, ?_⟩ ?_
    · simp only [mem_cons, forall_eq_or_imp, sum.kill]
      exact ⟨fun killed => killed.1.elim noKill.1 noKill.2.1, noKill.2.2⟩
    · refine pairwise_cons.mpr ⟨fun h mem defined => ?_, later⟩
      rcases ((sum.define x).mp defined).1 with before | now
      · exact fromAcc h (mem_cons_of_mem _ mem) before
      · exact fromB h mem now
    · obtain ⟨g, mem, used⟩ := read
      have kept (used : x ∈ acc.use ∨ x ∈ b.use) : x ∈ (acc.add b).use :=
        (sum.use x).mpr ⟨⟨⟨used, noKill.2.1⟩, noKill.1⟩, fun both =>
          fromAcc b mem_cons_self both.1 both.2⟩
      rcases mem_cons.mp mem with rfl | mem
      · exact ⟨_, mem_cons_self, kept (.inl used)⟩
      · rcases mem_cons.mp mem with rfl | mem
        · exact ⟨_, mem_cons_self, kept (.inr used)⟩
        · exact ⟨g, mem_cons_of_mem _ mem, used⟩

/-- A read that is lost after a write does not come back. -/
theorem not_use_foldl_of_lost (apart : Apart locs) {acc : Gadget} {rest : List Gadget}
    (within : ∀ g ∈ acc :: rest, g.Within locs) (decided : ∀ g ∈ acc :: rest, g.Decided)
    (lost : x ∉ acc.use) (written : acc.write x ≠ none)
    : x ∉ (rest.foldl Gadget.add acc).use := by
  induction rest generalizing acc with
  | nil => exact lost
  | cons b rest ih =>
    simp only [mem_cons, forall_eq_or_imp] at within decided
    have sum := add_sum apart within.1 within.2.1
    obtain ⟨res, writes⟩ := write_add sum decided.1 decided.2.1
    refine ih (forall_mem_cons.mpr ⟨sum.within, within.2.2⟩)
      (forall_mem_cons.mpr ⟨res, decided.2.2⟩) ?_ ?_
    · intro used
      obtain ⟨⟨⟨either, _⟩, notKilled⟩, notReadBack⟩ := (sum.use x).mp used
      have now := either.resolve_left lost
      exact written (write_eq_none.mpr ⟨fun defined => notReadBack ⟨defined, now⟩,
        notKilled⟩)
    · rw [writes]
      cases b.write x with
      | none => exact written
      | some w => nofun

/-- What an addition leaves of a read that survives it and everything after it: the location
is not killed, and not read back.
-/
theorem unkilled_of_use_foldl (apart : Apart locs) {acc b : Gadget} {rest : List Gadget}
    (within : ∀ g ∈ acc :: b :: rest, g.Within locs)
    (decided : ∀ g ∈ acc :: b :: rest, g.Decided)
    (survives : x ∈ ((b :: rest).foldl Gadget.add acc).use)
    : x ∉ acc.kill ∧ x ∉ b.kill ∧ (x ∈ acc.define → x ∉ b.use) := by
  simp only [mem_cons, forall_eq_or_imp] at within decided
  have sum := add_sum apart within.1 within.2.1
  obtain ⟨res, writes⟩ := write_add sum decided.1 decided.2.1
  -- After a write the read is still there, or it would be lost for good.
  have kept (written : (acc.add b).write x ≠ none) : x ∈ (acc.add b).use := by
    by_contra lost
    exact not_use_foldl_of_lost apart (forall_mem_cons.mpr ⟨sum.within, within.2.2⟩)
      (forall_mem_cons.mpr ⟨res, decided.2.2⟩) lost written survives
  have written {w : Gadget.Write} (either : b.write x = some w ∨ acc.write x = some w)
      : (acc.add b).write x ≠ none := by
    rw [writes]
    rcases either with second | first
    · rw [second]
      nofun
    · rw [first]
      cases b.write x <;> nofun
  refine ⟨fun killed => ?_, fun killed => ?_, fun defined used => ?_⟩
  · have used := kept (written (.inr ((write_eq_kill decided.1).mpr killed)))
    exact ((sum.use x).mp used).1.2 killed
  · have used := kept (written (.inl ((write_eq_kill decided.2.1).mpr killed)))
    exact ((sum.use x).mp used).1.1.2 killed
  · have used' := kept (written (.inr (write_eq_define.mpr defined)))
    exact ((sum.use x).mp used').2 ⟨defined, used⟩

/-- Reads that survive two or more gadgets are not killed and not read back. -/
theorem readFirst_of_use_foldl (apart : Apart locs) {acc b : Gadget} {rest : List Gadget}
    (within : ∀ g ∈ acc :: b :: rest, g.Within locs)
    (decided : ∀ g ∈ acc :: b :: rest, g.Decided)
    (survives : x ∈ ((b :: rest).foldl Gadget.add acc).use)
    : ReadFirst (acc :: b :: rest) x := by
  induction rest generalizing acc b with
  | nil =>
    obtain ⟨noKill, noKill', noReadBack⟩ := unkilled_of_use_foldl apart within decided survives
    exact ⟨by simp [noKill, noKill'], by simpa using noReadBack⟩
  | cons c rest ih =>
    obtain ⟨noKill, noKill', noReadBack⟩ := unkilled_of_use_foldl apart within decided survives
    simp only [mem_cons, forall_eq_or_imp] at within decided
    have sum := add_sum apart within.1 within.2.1
    obtain ⟨res, _⟩ := write_add sum decided.1 decided.2.1
    have later : ReadFirst (acc.add b :: c :: rest) x :=
      ih (forall_mem_cons.mpr ⟨sum.within, forall_mem_cons.mpr within.2.2⟩)
        (forall_mem_cons.mpr ⟨res, forall_mem_cons.mpr decided.2.2⟩) survives
    obtain ⟨fromSum, rest'⟩ := pairwise_cons.mp later.noReadBack
    have defines (defined : x ∈ acc.define ∨ x ∈ b.define) : x ∈ (acc.add b).define :=
      (sum.define x).mpr ⟨defined, noKill'⟩
    refine ⟨fun g mem => ?_, ?_⟩
    · rcases mem_cons.mp mem with rfl | mem
      · exact noKill
      · rcases mem_cons.mp mem with rfl | mem
        · exact noKill'
        · exact later.noKill g (mem_cons_of_mem _ mem)
    · refine pairwise_cons.mpr ⟨fun h mem defined => ?_, ?_⟩
      · rcases mem_cons.mp mem with rfl | mem
        · exact noReadBack defined
        · exact fromSum h mem (defines (.inl defined))
      · exact pairwise_cons.mpr ⟨fun h mem defined =>
          fromSum h mem (defines (.inr defined)), rest'⟩

variable {gs : List Gadget}

/-- Merging two or more gadgets keeps a read from before if no gadget of the list kills the
location and none reads it after another has defined it; gadgets that define or kill the
location then depend on the merged one. If no gadget both defines and kills a location,
reads are kept in no other case.
-/
theorem merge_keeps_reads_iff (apart : Apart locs) (mnemonic : String) (nonempty : gs ≠ [])
    (within : ∀ g ∈ gs, g.Within locs)
    : ∃ m, Gadget.merge mnemonic gs = some m
        ∧ (∀ x, Exposed gs x → gs.length = 1 ∨ ReadFirst gs x
            → x ∈ m.use ∧ ∀ h : Gadget, x ∈ h.define ∨ x ∈ h.kill → h.depend m = true)
        ∧ ((∀ g ∈ gs, g.Decided)
            → ∀ x, Exposed gs x → (x ∈ m.use ↔ gs.length = 1 ∨ ReadFirst gs x)) := by
  cases gs with
  | nil => exact (nonempty rfl).elim
  | cons acc rest =>
    obtain ⟨m, merged, _, _, use⟩ := merge_cons mnemonic acc rest
    have kept (x : Loc) (exposed : Exposed (acc :: rest) x)
        (good : (acc :: rest).length = 1 ∨ ReadFirst (acc :: rest) x)
        : x ∈ m.use := by
      obtain ⟨before, g, after, split, used, _⟩ := exposed
      have read : ∃ g ∈ acc :: rest, x ∈ g.use := ⟨g, by simp [split], used⟩
      rw [use]
      rcases good with single | readFirst
      · obtain rfl : rest = [] := length_eq_zero_iff.mp (Nat.succ.inj single)
        obtain ⟨g, member, used⟩ := read
        exact mem_singleton.mp member ▸ used
      · exact use_foldl_of_readFirst apart within readFirst read
    refine ⟨m, merged, fun x exposed good => ⟨kept x exposed good, fun h writes => ?_⟩,
      fun decided x exposed => ⟨fun survives => ?_, kept x exposed⟩⟩
    · rcases writes with defined | killed
      · exact depend_of_use_define (kept x exposed good) defined
      · exact depend_of_use_kill (kept x exposed good) killed
    · rw [use] at survives
      cases rest with
      | nil => exact .inl rfl
      | cons b rest => exact .inr (readFirst_of_use_foldl apart within decided survives)

end

/-- A reader of ECX that defines EAX, and a definer of ECX. -/
def readOneDefineOther : List Gadget :=
  [.make [] "a" [.reg Gpr.eax.name] [] [.reg Gpr.ecx.name] [],
    .make [] "b" [.reg Gpr.ecx.name] [] [] []]

theorem merge_keeps_reads_iff_readOneDefineOther
    : ∃ m, Gadget.merge "m" readOneDefineOther = some m ∧ .reg Gpr.ecx.name ∈ m.use := by
  have within : ∀ g ∈ readOneDefineOther, g.Within twoRegs := by
    intro g member
    simp only [readOneDefineOther, mem_cons, not_mem_nil, or_false] at member
    rcases member with rfl | rfl
    all_goals exact .make apart_twoRegs (by simp [twoRegs])
  obtain ⟨m, merged, kept, _⟩ := merge_keeps_reads_iff apart_twoRegs "m" (cons_ne_nil _ _) within
  have exposed : Exposed readOneDefineOther (.reg Gpr.ecx.name) :=
    ⟨[], _, _, rfl, by decide, forall_mem_nil _⟩
  exact ⟨m, merged, (kept _ exposed (.inr ⟨by decide, by decide⟩)).1⟩

/-- A reader of ECX and a gadget that uses it as a temporary: other gadgets may use it as a
temporary before the reader.
-/
theorem merge_forgets_read
    : ∃ read kill m : Gadget, Gadget.merge "m" [read, kill] = some m
        ∧ Exposed [read, kill] (.reg Gpr.ecx.name) ∧ .reg Gpr.ecx.name ∉ m.use
        ∧ ∃ h : Gadget, .reg Gpr.ecx.name ∈ h.kill ∧ h.depend m = false := by
  refine ⟨.make [] "a" [] [] [.reg Gpr.ecx.name] [], .make [] "b" [] [.reg Gpr.ecx.name] [] [],
    _, rfl, ⟨[], _, _, rfl, by decide, nofun⟩, by decide, ?_⟩
  exact ⟨.make [] "c" [] [.reg Gpr.ecx.name] [] [], by decide, by decide⟩

end FastPokeEmu.Floppy
