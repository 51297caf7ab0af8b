import FastPokeEmu.Floppy.PagingModes

/-! Which test cases that turn paging off have the addresses of the right range. The gadgets of
parameters have none, and the globals are flipped back after every test case.
-/

namespace FastPokeEmu.Floppy

open ByteMemory List Folds
open Option (bind_eq_bind bind_eq_some_iff map_eq_some_iff)

/-- A gadget of a parameter: no address of the generator occurs in it, it writes the given
values to CR0 only, and kills no control register.
-/
structure ParamGadget (values : Word → Prop) (g : Gadget) : Prop where
  absolutes : g.absolutes = []
  cr0 : ∀ value, g.setsCr0 = some value → values value
  kill : ∀ n, Loc.reg (.cr n) ∉ g.kill

section

variable {snapshot : Snapshot} {r : Nat} {gs : List Gadget} {g : Gadget} {values : Word → Prop}

theorem mem_of_ofList {xs : List Loc} {x : Loc} (mem : x ∈ LocSet.ofList xs) : x ∈ xs := by
  rcases LocSet.mem_of_union mem with none | inside
  · cases none
  · exact inside

theorem ParamGadget.of_other (absolutes : g.absolutes = []) (other : g.setsCr0 = none)
    (kill : ∀ n, Loc.reg (.cr n) ∉ g.kill)
    : ParamGadget values g :=
  ⟨absolutes, fun value sets => by simp [other] at sets, kill⟩

theorem setByte_paramGadget {addr i : Nat} {symbol : List Char} {seg : Option Seg} {data : Byte}
    (made : setByte snapshot addr symbol seg data i = some g)
    : ParamGadget values g := by
  obtain ⟨kill, kills, final⟩ := bind_eq_some_iff.mp made
  have named (n : Nat) : Loc.reg (.cr n) ∉ kill := by
    intro mem
    simp only [byteKills] at kills
    split at kills
    · obtain ⟨_, _, rfl⟩ := map_eq_some_iff.mp kills
      simp [Gpr.name] at mem
    · split at kills
      · obtain ⟨_, _, rfl⟩ := map_eq_some_iff.mp kills
        simp at mem
      · cases kills
        cases mem
  cases final
  refine .of_other ?_ rfl (fun n mem => named n (mem_of_ofList mem))
  simp only [Gadget.absolutes, Gadget.make]
  split <;> rfl

theorem genSetMem_paramGadget {addr : Nat} {symbol : List Char} {seg : Option Seg}
    {data : List Byte} (made : genSetMem snapshot addr symbol data seg = some gs)
    (mem : g ∈ gs)
    : ParamGadget values g := by
  obtain ⟨_, _, set⟩ := (mem_of_mapM made).mp mem
  exact setByte_paramGadget set

theorem genSetSreg_paramGadget {sg : Seg} {value : BitVec 16} (mem : g ∈ genSetSreg r sg value)
    : ParamGadget values g := by
  cases sg with
  | cs =>
    simp only [genSetSreg, mem_cons, not_mem_nil, or_false] at mem
    rcases mem with rfl | rfl
    · exact .of_other rfl rfl (fun n mem => by simpa [Gpr.name] using mem_of_ofList mem)
    · exact .of_other rfl rfl (fun n mem => by simpa using mem_of_ofList mem)
  | _ =>
    cases mem_singleton.mp mem
    exact .of_other rfl rfl (fun n mem => by simpa [Gpr.name] using mem_of_ofList mem)

/-- Setting a register or some bytes. -/
theorem genGadget_paramGadget {p : Param} (made : p.genGadget snapshot r = some gs)
    (member : g ∈ gs)
    : ParamGadget (fun value => p = .creg 0 value) g := by
  cases p with
  | reg name value =>
    cases made
    cases name with
    | eflags | eip =>
      cases mem_singleton.mp member
      exact .of_other rfl rfl (fun n member => by simpa using mem_of_ofList member)
    | gpr name =>
      cases mem_singleton.mp member
      refine .of_other rfl ?_ (fun n member => by simpa using mem_of_ofList member)
      cases name <;> rfl
  | sreg sg value =>
    cases made
    exact genSetSreg_paramGadget member
  | creg n value =>
    cases made
    cases mem_singleton.mp member
    refine ⟨rfl, ?_, fun n member => by simpa [Gpr.name] using mem_of_ofList member⟩
    intro other sets
    cases n with
    | zero =>
      cases sets
      rfl
    | succ n => cases sets
  | mem addr symbol value => exact genSetMem_paramGadget made member

theorem Param.inSnapshot_cr0 {p : Param} {value : Word}
    (valued : p.inSnapshot snapshot = some (.creg 0 value))
    : value = snapshot.cr 0 := by
  cases p with
  | creg n old =>
    simp only [inSnapshot, Option.ite_none_right_eq_some, Option.some.injEq, creg.injEq]
      at valued
    obtain ⟨_, rfl, same⟩ := valued
    exact same.symm
  | _ => simp [inSnapshot] at valued

theorem genRevertGadget_paramGadget {p : Param} {retseg : Seg}
    (made : p.genRevertGadget snapshot retseg r = some gs) (member : g ∈ gs)
    : ParamGadget (fun value => value = snapshot.cr 0) g := by
  obtain ⟨q, valued, later⟩ := bind_eq_some_iff.mp made
  have plain (made : q.genGadget snapshot r = some gs)
      : ParamGadget (fun value => value = snapshot.cr 0) g := by
    have here := genGadget_paramGadget made member
    refine ⟨here.absolutes, fun value sets => ?_, here.kill⟩
    rw [here.cr0 value sets] at valued
    exact Param.inSnapshot_cr0 valued
  cases q with
  | mem addr symbol value => exact genSetMem_paramGadget later member
  | reg name value | sreg sg value | creg n value => exact plain later

theorem Loc.object_creg {symbol : Nat → Option (List Char)} {x : Loc} {n : Nat} {value : Word}
    (object : x.object symbol = some (.creg n value))
    : x = .reg (.cr n) := by
  cases x with
  | reg name =>
    cases name with
    | gpr r =>
      obtain ⟨reg, part⟩ := r
      cases part <;> cases object
    | cr m =>
      cases object
      rfl
    | _ => cases object
  | byte addr =>
    obtain ⟨_, _, same⟩ := map_eq_some_iff.mp object
    cases same
  | _ => cases object

theorem forceGadget_paramGadget {symbol : Nat → Option (List Char)} {x : Loc}
    (made : forceGadget snapshot symbol r x = some gs) (mem : g ∈ gs)
    (other : ∀ n, x ≠ .reg (.cr n))
    : ParamGadget values g := by
  obtain ⟨p, object, later⟩ := bind_eq_some_iff.mp made
  obtain ⟨q, valued, gadgets⟩ := bind_eq_some_iff.mp later
  have here := genGadget_paramGadget gadgets mem
  refine ⟨here.absolutes, fun value sets => ?_, here.kill⟩
  rw [here.cr0 value sets] at valued
  cases p with
  | creg n old => exact (other n (Loc.object_creg object)).elim
  | _ => simp [Param.inSnapshot] at valued

/-- Forced gadgets do not write CR0, which no gadget kills. -/
theorem makeStable_paramGadget {symbol : Nat → Option (List Char)} {order : SetOrder}
    {labels : Nat → Nat} {l out : List Gadget} {done : LocSet}
    (made : makeStable snapshot symbol order labels l done = some out)
    (each : ∀ g ∈ l, ParamGadget values g) (mem : g ∈ out)
    : ParamGadget values g := by
  unfold makeStable at made
  simp only [Option.ite_none_left_eq_some] at made
  obtain ⟨forced, results, final⟩ := bind_eq_some_iff.mp made.2
  cases final
  rcases mem_append.mp mem with given | added
  · exact each g given
  · obtain ⟨gs, place, inside⟩ := mem_flatten.mp added
    obtain ⟨q, position, res⟩ := (mem_of_mapM results).mp place
    have missing := mem_of_getElem? (mem_zipIdx_iff_getElem?.mp position)
    have undefined := (order.perm _).mem_iff.mp missing
    obtain ⟨g', given, kills⟩ := mem_gathered (mem_undefinedKills.mp undefined).1
    refine forceGadget_paramGadget res inside (fun n same => ?_)
    rw [same] at kills
    exact (each g' given).kill n kills

end

section

variable {c : Config} {t : TestCase} {k : Nat} {make : Nat → Param → Option (List Gadget)}
  {changed : List (Param × Param)} {l : List Gadget}

theorem Config.gather_paramGadget {values : Word → Prop}
    (made : c.gather t k make changed = some l)
    (each : ∀ q ∈ changed, ∀ r gs, make r q.1 = some gs → ∀ g ∈ gs, ParamGadget values g)
    : ∀ g ∈ l, ParamGadget values g := by
  obtain ⟨lists, results, stable⟩ := bind_eq_some_iff.mp made
  intro g mem
  refine makeStable_paramGadget stable (fun g mem => ?_) mem
  obtain ⟨gs, place, inside⟩ := mem_flatten.mp mem
  obtain ⟨q, position, res⟩ := (mem_of_mapM results).mp place
  have here := mem_of_getElem? (mem_zipIdx_iff_getElem?.mp position)
  exact each q.1 here _ gs res g inside

theorem Config.mem_gather (made : c.gather t k make changed = some l) {q : Param × Param}
    (mem : q ∈ changed)
    : ∃ r gs, make r q.1 = some gs ∧ ∀ g ∈ gs, g ∈ l := by
  obtain ⟨lists, results, stable⟩ := bind_eq_some_iff.mp made
  obtain ⟨i, here⟩ := mem_iff_getElem?.mp mem
  have place : (q, i) ∈ changed.zipIdx := mem_zipIdx_iff_getElem?.mpr here
  obtain ⟨gs, res⟩ := exists_mapM.mp ⟨lists, results⟩ _ place
  refine ⟨_, gs, res, fun g inside => ?_⟩
  apply (makeStable_spec stable).1.subset
  exact mem_flatten.mpr ⟨gs, (mem_of_mapM results).mpr ⟨_, place, res⟩, inside⟩

theorem Config.mem_changed {params : List Param} (made : c.changed params = some changed)
    {q : Param × Param}
    : q ∈ changed ↔ q.1 ∈ params ∧ q.1.inSnapshot c.snapshot = some q.2 ∧ q.1 ≠ q.2 := by
  obtain ⟨pairs, results, rfl⟩ := map_eq_some_iff.mp made
  rw [mem_filter, mem_of_mapM results]
  obtain ⟨p, original⟩ := q
  simp only [map_eq_some_iff, Prod.mk.injEq, ne_eq, decide_eq_true_eq]
  constructor
  · rintro ⟨⟨p', mem, _, valued, rfl, rfl⟩, ne⟩
    exact ⟨mem, valued, ne⟩
  · rintro ⟨mem, valued, ne⟩
    exact ⟨⟨p, mem, original, valued, rfl, rfl⟩, ne⟩

end

/-- The globals between test cases: those with a fixed address have it, and the lists are in
the data area.
-/
structure Globals.PagingOn (g : Globals) : Prop where
  pg : g.pg = true
  retp : g.retp = retpAddr
  edata : g.edata = edataAddr
  countAddr : g.countAddr = Floppy.startAddr
  startAddr : g.startAddr = Floppy.startAddr
  endAddr : g.endAddr = Floppy.endAddr
  gen : g.gen.InRange

theorem Globals.PagingOn.extended {g : Globals} (on : g.PagingOn)
    : ∀ a ∈ g.addresses, Extended a := by
  have fixed : ∀ a ∈ [retpAddr, edataAddr, Floppy.startAddr, Floppy.endAddr], Extended a := by
    decide
  intro a mem
  simp only [addresses, mem_append, mem_cons, not_mem_nil, or_false] at mem
  rcases mem with (rfl | rfl | rfl | rfl | rfl | rfl) | inside
  · rw [on.retp]
    exact fixed _ (by simp)
  · rw [on.edata]
    exact fixed _ (by simp)
  · rw [on.countAddr]
    exact fixed _ (by simp)
  · rw [on.startAddr]
    exact fixed _ (by simp)
  · rw [on.endAddr]
    exact fixed _ (by simp)
  · exact extended_of_inArea on.gen.next
  · exact extended_of_inArea (on.gen.words a inside)

section

variable {c : Config} {t : TestCase} {isFirst : Bool} {g g' : Globals} {out : Emission}

theorem Config.genRoot_inRange {inst : Inst} {st st' : GenState} {root : Root}
    (range : st.InRange) (made : c.genRoot inst isFirst st = some (root, st'))
    : st'.InRange := by
  simp only [Config.genRoot] at made
  split at made
  · exact Floppy.genRoot_inRange range made
  · split at made
    · obtain ⟨⟨output, after⟩, simple, final⟩ := map_eq_some_iff.mp made
      cases final
      exact genSimpleRoot_inRange range simple
    · cases made
      exact range

/-- What a successful turn of the loop consists of. -/
structure Turn (c : Config) (isFirst : Bool) (g : Globals) (t : TestCase) (out : Emission)
    (root : Root) (changed : List (Param × Param)) (collected : Collected) (ps : Phases)
    : Prop where
  rooted
    : ∃ gen, c.genRoot t.inst isFirst g.gen = some (root, gen) ∧ out.early = { g with gen := gen }
  changes : c.changed t.params = some changed
  late : out.late = (changed.flatMap (fun q => [q.1, q.2])).foldl Globals.generated out.early
  param : c.gather t 0 (Param.genGadget c.snapshot) changed = some collected.param
  revert
    : ∃ l, c.gather t 2 (Param.genRevertGadget c.snapshot .fs) changed = some l
        ∧ collected.revert = c.undone l
  empty
    : c.mode = 0 → collected.param0 = [] ∧ collected.revert0 = [] ∧ collected.revert_ = []
  fields
    : collected.root = root ∧ collected.code = t.code
      ∧ collected.retpOp = ⟨some .fs, some out.late.retp, none, none, 0⟩
  collects : collected.phases t.orders = some ps
  phases : out.phases = c.inMode ps

theorem Config.genTest_turn (made : c.genTest isFirst g t = some (out, g'))
    : g' = out.late.finish
      ∧ ∃ root changed collected ps, Turn c isFirst g t out root changed collected ps := by
  simp only [genTest, bind_eq_bind, bind_eq_some_iff, Prod.exists] at made
  obtain ⟨root, gen, rooted, changed, changes, param, made0, param0, made1, revert, made2,
    revert0, made3, revert_, made4, ps, phases, final⟩ := made
  cases final
  refine ⟨rfl, root, changed, _, ps, ⟨⟨gen, rooted, rfl⟩, changes, rfl, made0,
    ⟨revert, made2, rfl⟩, ?_, ⟨rfl, rfl, rfl⟩, phases, rfl⟩⟩
  intro zero
  simp [undone, zero]

theorem Config.genTest_early (on : g.PagingOn) (made : c.genTest isFirst g t = some (out, g'))
    : g' = out.early ∧ out.early.PagingOn := by
  obtain ⟨rfl, root, changed, collected, ps, turn⟩ := Config.genTest_turn made
  obtain ⟨gen, rooted, early⟩ := turn.rooted
  have still : out.early.PagingOn := by
    rw [early]
    exact ⟨on.pg, on.retp, on.edata, on.countAddr, on.startAddr, on.endAddr,
      Config.genRoot_inRange on.gen rooted⟩
  refine ⟨?_, still⟩
  rw [turn.late]
  exact out.early.finish_foldl_generated still.pg _

theorem Config.genTests_pagingOn {tests : List TestCase} (on : g.PagingOn)
    (made : c.genTests isFirst g tests = some g')
    : g'.PagingOn := by
  induction tests generalizing isFirst g with
  | nil =>
    cases made
    exact on
  | cons t rest ih =>
    simp only [genTests, bind_eq_bind, bind_eq_some_iff, Prod.exists] at made
    obtain ⟨out, next, first, later⟩ := made
    obtain ⟨rfl, still⟩ := Config.genTest_early on first
    exact ih still later

theorem Globals.pagingOn_start : Globals.start.PagingOn :=
  ⟨rfl, rfl, rfl, rfl, rfl, rfl, GenState.inRange_start⟩

variable {root : Root} {changed : List (Param × Param)} {collected : Collected} {ps : Phases}
  {value : Word}

theorem Turn.flipped (turn : Turn c isFirst g t out root changed collected ps)
    (on : out.early.PagingOn) (off : value.getLsbD 31 = false) {original : Param}
    (loads : (Param.creg 0 value, original) ∈ changed)
    : ¬ Extended out.late.retp := by
  have clears : (changed.flatMap (fun q => [q.1, q.2])).any Param.pagingOff = true := by
    refine any_eq_true.mpr ⟨.creg 0 value, ?_, by rw [Param.pagingOff, off]; rfl⟩
    exact mem_flatMap.mpr ⟨_, loads, by simp⟩
  have flips := out.early.foldl_generated on.pg (changed.flatMap (fun q => [q.1, q.2]))
  rw [if_pos clears, ← turn.late] at flips
  have extended : Extended out.early.retp := on.extended _ (by simp [Globals.addresses])
  rw [flips]
  exact fun flipped => (extended_flipAddr _).mp flipped extended

theorem Turn.loads (turn : Turn c isFirst g t out root changed collected ps)
    (given : .creg 0 value ∈ t.params) (differs : value ≠ c.snapshot.cr 0)
    : (Param.creg 0 value, Param.creg 0 (c.snapshot.cr 0)) ∈ changed :=
  (Config.mem_changed turn.changes).mpr ⟨given, rfl, by simpa using differs⟩

theorem Phases.program_eq (ps : Phases)
    : ps.program
      = (ps.tagged .startup ++ ps.tagged .pre)
        ++ (ps.tagged .code ++ ps.tagged .revert_ ++ ps.tagged .post)
        ++ ps.tagged .revert ++ ps.tagged .loop := by
  simp [Phases.program]

section

variable (turn : Turn c isFirst g t out root changed collected ps)

include turn

/-- The lists that are undone are those of the parameters' values in the snapshot. -/
theorem Turn.revert_cr0 (aggregates : c.mode ≠ 0)
    (loads : (Param.creg 0 value, Param.creg 0 (c.snapshot.cr 0)) ∈ changed)
    : (∃ h ∈ collected.revert, h.setsCr0 ≠ none)
      ∧ ∀ h ∈ collected.revert, ∀ other, h.setsCr0 = some other → other = c.snapshot.cr 0 := by
  obtain ⟨l, gathered, reverts⟩ := turn.revert
  rw [Config.undone, if_neg aggregates] at reverts
  rw [reverts]
  constructor
  · obtain ⟨r, gs, made, inside⟩ := Config.mem_gather gathered loads
    have zero : (0 : Nat) ∈ Snapshot.controls := by decide
    simp only [Param.genRevertGadget, Param.inSnapshot, if_pos zero, bind_eq_bind,
      Option.bind_some, Param.genGadget, Option.some.injEq] at made
    subst made
    exact ⟨_, inside _ mem_cons_self, by simp [Gadget.setsCr0, Gadget.make]⟩
  · intro h mem other sets
    exact (Config.gather_paramGadget gathered
      (fun q _ r gs made h mem => genRevertGadget_paramGadget made mem) h mem).cr0
        other sets

/-- In the aggregating modes CR0 is restored before the last phase, whose return point is
flipped all the same.
-/
theorem Turn.not_respects (aggregates : c.mode ≠ 0) (on : out.early.PagingOn)
    (off : value.getLsbD 31 = false) (given : .creg 0 value ∈ t.params)
    (differs : value ≠ c.snapshot.cr 0)
    : ¬ Respects value out.occurrences false out.phases.program := by
  have loads := turn.loads given differs
  have flipped := turn.flipped on off loads
  obtain ⟨⟨restorer, place, writes⟩, restores⟩ := turn.revert_cr0 aggregates loads
  obtain ⟨sorted, rest, sorts, reverts, loops⟩ :
      ∃ (sorted : List Gadget) (rest : List (Phase × Line)), sorted.Perm collected.revert
        ∧ out.phases.tagged .revert
          = ([Line.label .l3, .setRetp .l4] ++ sorted.map Line.gadget).map (Prod.mk .revert)
        ∧ out.phases.tagged .loop
          = (.loop, .label .l4) :: (.loop, .setRetp .l5) :: rest := by
    have collects := turn.collects
    simp only [Collected.phases, bind_eq_bind, bind_eq_some_iff] at collects
    obtain ⟨_, _, _, _, _, _, sorted, sorts, _, _, final⟩ := collects
    cases final
    rw [turn.phases, Config.inMode]
    split
    · exact ⟨sorted, _, (sortGadget_spec sorts).1, rfl, rfl⟩
    · exact ⟨sorted, _, (sortGadget_spec sorts).1, rfl, rfl⟩
  have cleared (loaded : Bool)
      : (out.phases.tagged .revert).foldl (loadedAfter value) loaded = false := by
    rw [reverts]
    refine foldl_loadedAfter ?_ ?_
    · refine ⟨(.revert, .gadget restorer), ?_, writes⟩
      simp [sorts.mem_iff.mpr place]
    · intro x mem other sets
      simp only [map_append, map_map, mem_append, mem_map] at mem
      rcases mem with ⟨y, marker, rfl⟩ | ⟨h, inside, rfl⟩
      · simp only [mem_cons, not_mem_nil, or_false] at marker
        rcases marker with rfl | rfl <;> cases sets
      · rw [restores h (sorts.mem_iff.mp inside) other sets]
        exact decide_eq_false (Ne.symm differs)
  rw [Phases.program_eq, respects_append, loops]
  rintro ⟨_, _, lastPoint, _⟩
  rw [foldl_append, cleared] at lastPoint
  exact flipped ((lastPoint out.late.retp (by simp [Emission.occurrences])).mpr rfl)

/-- Without aggregation the only gadgets are the tested code and those of the parameters. -/
theorem Turn.single (single : c.mode = 0)
    : ∃ sorted : List Gadget, sorted.Perm collected.param
        ∧ out.phases
          = { startup := [.setRetp .l3]
              pre := .label .ls :: sorted.map collected.line
              code := .setRetp .l1 :: (t.code.map .gadget ++ [.jmp .l2])
              revert_ := [.label .l1, .setRetp .l2]
              post := [.label .l2, .setRetp .l3]
              revert := [.label .l3, .setRetp .l4]
              loop := [.label .l4, .setRetp .l5, .label .l5] } := by
  obtain ⟨gen, rooted, _⟩ := turn.rooted
  have noRoot : root = ⟨[], [], [], [], [], [], []⟩ := by
    simp only [Config.genRoot, single] at rooted
    cases rooted
    rfl
  obtain ⟨rootEq, codeEq, _⟩ := turn.fields
  obtain ⟨param0, revert0, revert_⟩ := turn.empty single
  obtain ⟨l, _, reverts⟩ := turn.revert
  rw [Config.undone, if_pos single] at reverts
  have collects := turn.collects
  simp only [Collected.phases, bind_eq_bind, bind_eq_some_iff, rootEq, noRoot,
    reverts, revert_] at collects
  obtain ⟨startup, starts, pre, pres, post, posts, undo, undoes, again, agains, final⟩ := collects
  have empty {order : HashOrder} {sorted : List Gadget} (sorts : sortGadget order [] = some sorted)
      : sorted = [] :=
    (sortGadget_spec sorts).1.eq_nil
  have tail : startup.tail = [] := by
    simp only [Collected.startup, param0, revert0, rootEq, noRoot] at starts
    split at starts
    · simp only [bind_eq_bind, bind_eq_some_iff] at starts
      obtain ⟨_, first, _, second, final⟩ := starts
      cases final
      rw [empty first, empty second]
      rfl
    · cases starts
      rfl
  simp only [Collected.pre, Collected.setinput, rootEq, noRoot, bind_eq_bind,
    if_true, Option.bind_some, bind_eq_some_iff] at pres
  obtain ⟨sorted, sorts, preEq⟩ := pres
  refine ⟨sorted, ?_, ?_⟩
  · have noCopies : mergeCopyR [] = none := rfl
    simpa [noCopies] using (sortGadget_spec sorts).1
  · cases final
    cases preEq
    rw [turn.phases, Config.inMode, if_neg (by omega)]
    simp only [tail, codeEq, empty posts, empty undoes, empty agains]
    rfl

/-- Without aggregation CR0 is loaded in the second phase and never restored. -/
theorem Turn.respects (single : c.mode = 0) (on : out.early.PagingOn)
    (off : value.getLsbD 31 = false) (given : .creg 0 value ∈ t.params)
    (differs : value ≠ c.snapshot.cr 0)
    : Respects value out.occurrences false out.phases.program := by
  have loads := turn.loads given differs
  have flipped := turn.flipped on off loads
  obtain ⟨sorted, perm, phases⟩ := turn.single single
  have known : ∀ h ∈ sorted, ParamGadget (fun other => .creg 0 other ∈ t.params) h := by
    intro h mem
    refine Config.gather_paramGadget turn.param (fun q here r gs made h inside => ?_) h
      (perm.mem_iff.mp mem)
    have one := genGadget_paramGadget made inside
    refine ⟨one.absolutes, fun other sets => ?_, one.kill⟩
    rw [← one.cr0 other sets]
    exact ((Config.mem_changed turn.changes).mp here).1
  have lines : sorted.map collected.line = sorted.map .gadget := by
    refine map_congr_left (fun h mem => if_neg (fun same => ?_))
    have absolutes := (known h mem).absolutes
    rw [same] at absolutes
    simp [Gadget.absolutes, Collected.returnToPost, Gadget.make, Cpu.instructions, Ins.operands,
      turn.fields.2.2, MemOp.absolute] at absolutes
  have program : out.phases.program
      = [(.startup, .setRetp .l3)]
        ++ ((.pre, .label .ls) :: sorted.map (fun h => (.pre, .gadget h)))
        ++ (out.phases.tagged .code ++ out.phases.tagged .revert_ ++ out.phases.tagged .post
          ++ out.phases.tagged .revert ++ out.phases.tagged .loop) := by
    rw [Phases.program_eq, phases]
    simp [Phases.tagged, Phases.lines, lines]
  have loaded : ((Phase.pre, Line.label .ls)
      :: sorted.map (fun h => (Phase.pre, Line.gadget h))).foldl (loadedAfter value) false
      = true := by
    refine foldl_loadedAfter ?_ ?_
    · obtain ⟨r, gs, made, inside⟩ := Config.mem_gather turn.param loads
      cases made
      have load := perm.mem_iff.mpr (inside _ mem_cons_self)
      exact ⟨_, mem_cons_of_mem _ (mem_map_of_mem load),
        by simp [Line.setsCr0, Gadget.setsCr0, Gadget.make]⟩
    · intro x mem other sets
      rcases mem_cons.mp mem with rfl | inside
      · cases sets
      · obtain ⟨h, here, rfl⟩ := mem_map.mp inside
        have same := inj_on_of_nodup_map t.distinct ((known h here).cr0 other sets) given rfl
        cases same
        exact decide_eq_true rfl
  rw [program, respects_append, respects_append, foldl_append]
  refine ⟨⟨⟨?_, trivial⟩, ?_⟩, ?_⟩
  · have extended : Extended out.early.retp := on.extended _ (by simp [Globals.addresses])
    simpa [Emission.occurrences] using extended
  · refine respects_of_quiet (fun x mem => ?_)
    rcases mem_cons.mp mem with rfl | inside
    · rfl
    · obtain ⟨h, here, rfl⟩ := mem_map.mp inside
      simp [Emission.occurrences, (known h here).absolutes]
  · have start : ([(Phase.startup, Line.setRetp .l3)]).foldl (loadedAfter value) false = false :=
      rfl
    rw [start, loaded]
    -- what follows is the tested code, with labels, jumps and updates of the return point
    have later : ∀ x ∈ out.phases.tagged .code ++ out.phases.tagged .revert_
        ++ out.phases.tagged .post ++ out.phases.tagged .revert ++ out.phases.tagged .loop,
          (∃ h ∈ t.code, x = (.code, .gadget h))
          ∨ x.2.setsCr0 = none ∧ ∀ a ∈ out.occurrences x, a = out.late.retp := by
      intro x mem
      simp only [phases, Phases.tagged, Phases.lines, map_cons, map_append, map_map, map_nil,
        mem_append, mem_cons, mem_map, Function.comp_apply, not_mem_nil, or_false] at mem
      rcases mem with
        (((((rfl | ⟨h, inside, rfl⟩ | rfl) | rfl | rfl) | rfl | rfl) | rfl | rfl) | rfl | rfl | rfl)
      case inl.inl.inl.inl.inr.inl => exact .inl ⟨h, inside, rfl⟩
      all_goals exact .inr ⟨rfl, by simp [Emission.occurrences]⟩
    refine respects_of_flipped (fun x mem => ?_) (fun x mem a occurs => ?_)
    · rcases later x mem with ⟨h, inside, rfl⟩ | ⟨none, _⟩
      · exact (t.plain h inside).2
      · exact none
    · rcases later x mem with ⟨h, inside, rfl⟩ | ⟨_, only⟩
      · simp [Emission.occurrences, (t.plain h inside).1] at occurs
      · rw [only a occurs]
        exact flipped

end

/-- A test case whose value of CR0 clears PG uses the addresses of the right paging mode, and
leaves the globals in the paging-on range, exactly if nothing is aggregated. Witness: in the
other modes the last phase has a flipped return point, after CR0 has been restored.
-/
theorem paging_respected_iff {earlier : List TestCase}
    (before : c.genTests true .start earlier = some g)
    (made : c.genTest earlier.isEmpty g t = some (out, g'))
    (given : .creg 0 value ∈ t.params) (off : value.getLsbD 31 = false)
    (differs : value ≠ c.snapshot.cr 0)
    : Respects value out.occurrences false out.phases.program
        ∧ (∀ a ∈ g'.addresses, Extended a)
      ↔ c.mode = 0 := by
  have on := Config.genTests_pagingOn Globals.pagingOn_start before
  obtain ⟨same, still⟩ := Config.genTest_early on made
  obtain ⟨_, root, changed, collected, ps, turn⟩ := Config.genTest_turn made
  constructor
  · intro respected
    by_contra aggregates
    exact turn.not_respects aggregates still off given differs respected.1
  · intro single
    refine ⟨turn.respects single still off given differs, ?_⟩
    rw [same]
    exact still.extended

end

def pagedSnapshot : Snapshot where
  gpr := fun _ => 0
  eflags := 0
  eip := 0
  seg := fun _ => 0
  cr := fun n => if n = 0 then 0xe0000011 else 0
  mem := []

def pagedConfig (mode : Nat) : Config where
  mode := mode
  loop := 1
  snapshot := pagedSnapshot
  symbol := fun _ => none
  choices := ⟨fun _ => 0x1300000, fun _ => 0⟩

def plainShellcode : Gadget := .make [] "shellcode" [] [] [] []

theorem plain_plainShellcode : ∀ g ∈ [plainShellcode], g.absolutes = [] ∧ g.setsCr0 = none := by
  intro g mem
  cases mem_singleton.mp mem
  exact ⟨rfl, rfl⟩

theorem nodup_cr0 : ([Param.creg 0 0x11].map Param.loc).Nodup := nodup_singleton _

def unpagedTest : TestCase where
  inst := ⟨[], fun _ => ⟨none, 0, 0, none, none, 0, false, false⟩, false, false, false⟩
  code := [plainShellcode]
  params := [.creg 0 0x11]
  labels := fun _ _ => 0
  sets := fun _ => .insertion
  orders := fun _ => .insertion
  l2 := 2
  distinct := nodup_cr0
  plain := plain_plainShellcode

theorem paging_respected_iff_single
    : ∃ out g',
        (pagedConfig 0).genTest true .start unpagedTest = some (out, g')
        ∧ Respects 0x11 out.occurrences false out.phases.program
        ∧ ∀ a ∈ g'.addresses, Extended a := by
  have emits : ((pagedConfig 0).genTest true .start unpagedTest).isSome = true := by
    decide +kernel
  obtain ⟨⟨out, g'⟩, made⟩ := Option.isSome_iff_exists.mp emits
  have before : (pagedConfig 0).genTests true .start [] = some .start := rfl
  have given : Param.creg 0 0x11 ∈ unpagedTest.params := mem_singleton.mpr rfl
  exact ⟨out, g', made, (paging_respected_iff before made given (by decide) (by decide)).mpr rfl⟩

/-- In mode 1 the last return point is stored at the flipped address with paging on. -/
theorem paging_not_respected
    : ∃ out g',
        (pagedConfig 1).genTest true .start unpagedTest = some (out, g')
        ∧ ¬ Respects 0x11 out.occurrences false out.phases.program := by
  have emits : ((pagedConfig 1).genTest true .start unpagedTest).isSome = true := by
    decide +kernel
  obtain ⟨⟨out, g'⟩, made⟩ := Option.isSome_iff_exists.mp emits
  obtain ⟨_, still⟩ := Config.genTest_early Globals.pagingOn_start made
  obtain ⟨_, root, changed, collected, ps, turn⟩ := Config.genTest_turn made
  have given : Param.creg 0 0x11 ∈ unpagedTest.params := mem_singleton.mpr rfl
  exact ⟨out, g', made, turn.not_respects (by decide) still (by decide) given (by decide)⟩

end FastPokeEmu.Floppy
