import FastPokeEmu.Floppy.GadgetForms
import FastPokeEmu.Floppy.Params
import FastPokeEmu.Library.Folds

/-! Forced gadgets (`make_stable` of `gen_floppy_image.py`): what a list of gadgets kills and
does not define gets its value from the snapshot. There is one pass, although the gadgets that
are added kill registers themselves.
-/

namespace FastPokeEmu.Floppy

open ByteMemory List LocSet

/-- The order in which Python lists a set. -/
structure SetOrder where
  iter : LocSet → LocSet
  perm : ∀ s, (iter s).Perm s

/-- Elements in the order in which they were inserted. -/
def SetOrder.insertion : SetOrder := ⟨fun s => s, fun _ => .rfl⟩

/-- The union of one of the sets of all gadgets. -/
def gathered (f : Gadget → LocSet) (l : List Gadget) : LocSet :=
  l.foldl (fun s g => s.union (f g)) []

/-- `killed - defined` -/
def undefinedKills (l : List Gadget) : LocSet :=
  (gathered Gadget.kill l).filter (fun x => !(gathered Gadget.define l).has x)

section

variable (snapshot : Snapshot) (symbol : Nat → Option (List Char))

/-- The object that stands in a kill set, with any value; a byte is an object with a symbol,
and markers and operands are texts.
-/
def Loc.object : Loc → Option Param
  | .reg (.gpr ⟨r, .full⟩) => some (.reg (.gpr r) 0)
  | .reg .eflags => some (.reg .eflags 0)
  | .reg .eip => some (.reg .eip 0)
  | .reg (.seg sg) => some (.sreg sg 0)
  | .reg (.cr n) => some (.creg n 0)
  | .byte addr => (symbol addr).map (fun name => .mem addr name [])
  | _ => none

/-- Gadgets that give a location its value in the snapshot. -/
def forceGadget (r : Nat) (rm : Loc) : Option (List Gadget) := do
  let rm ← rm.object symbol
  let rm ← rm.inSnapshot snapshot
  rm.genGadget snapshot r

/-- `make_stable`, with random numbers for labels -/
def makeStable (order : SetOrder) (labels : Nat → Nat) (l : List Gadget) (done : LocSet)
    : Option (List Gadget) :=
  let missing := order.iter (undefinedKills l)
  if missing.any done.has then none
  else do
    let forced ← missing.zipIdx.mapM (fun p => forceGadget snapshot symbol (labels p.2) p.1)
    some (l ++ forced.flatten)

end

/-- Registers and memory bytes, as opposed to texts. -/
def Loc.isObject : Loc → Bool
  | .reg _ | .byte _ => true
  | _ => false

/-- What giving a location its value kills. -/
def Loc.clobbered (snapshot : Snapshot) (symbol : Nat → Option (List Char)) : Loc → List Loc
  | .reg (.seg .cs) => [.reg Gpr.eax.name, .reg Gpr.ebx.name, .reg .eflags]
  | .reg (.seg _) => [.reg Gpr.eax.name]
  | .reg (.cr _) => [.reg Gpr.eax.name]
  | .byte addr => ((symbol addr).bind (byteKills snapshot)).getD []
  | _ => []

/-- The snapshot has a value for the location. -/
def Snapshot.Holds (snapshot : Snapshot) : Loc → Prop
  | .byte addr => addr < snapshot.mem.length
  | _ => True

namespace LocSet

theorem ofList_of_pairwise {xs : List Loc} (apart : xs.Pairwise (fun x y => y.same x = false))
    : ofList xs = xs := by
  have step (s : LocSet) (apart : (s ++ xs).Pairwise (fun x y => y.same x = false))
      : xs.foldl add s = s ++ xs := by
    induction xs generalizing s with
    | nil => exact (append_nil s).symm
    | cons x rest ih =>
      have new : s.has x = false := by
        rw [pairwise_append] at apart
        rw [has, any_eq_false]
        intro y mem
        rw [apart.2.2 y mem x mem_cons_self]
        exact Bool.false_ne_true
      have added : s.add x = s ++ [x] := by simp only [add, new, Bool.false_eq_true, if_false]
      rw [foldl_cons, added, ih]
      · rw [append_assoc]
        rfl
      · exact (pairwise_append.mp apart).2.1.of_cons
      · rw [append_assoc]
        exact apart
  exact (step [] apart).trans (nil_append xs)

end LocSet

section

variable {snapshot : Snapshot} {symbol : Nat → Option (List Char)} {x : Loc}

/-- What the gadgets for a location declare. -/
structure Forced (snapshot : Snapshot) (symbol : Nat → Option (List Char)) (x : Loc)
    (gs : List Gadget)
    : Prop where
  kills : ∀ g ∈ gs, ∀ y ∈ g.kill, y ∈ x.clobbered snapshot symbol
  killed : snapshot.Holds x → ∀ y ∈ x.clobbered snapshot symbol, ∃ g ∈ gs, y ∈ g.kill
  defines : ∀ g ∈ gs, ∀ y, y.isObject = true → g.define.has y = true → y.same x = true
  defined : (∃ g ∈ gs, x ∈ g.define) ↔ snapshot.Holds x

theorem same_of_has_markers {y : Loc} {markers : List Loc} (object : y.isObject = true)
    (texts : ∀ m ∈ markers, m.isObject = false) (has : LocSet.has (x :: markers) y = true)
    : y.same x = true := by
  obtain ⟨z, mem, same⟩ := has_iff.mp has
  rcases mem_cons.mp mem with rfl | marker
  · exact same
  · have text := texts z marker
    cases y with
    | reg a =>
      cases z with
      | reg b => cases text
      | _ => simp [Loc.same] at same
    | byte a =>
      have equal : Loc.byte a = z := by simpa [Loc.same] using same
      rw [← equal] at text
      cases text
    | _ => cases object

/-- A gadget that defines the location and some texts. -/
theorem forced_make {asm : List Asm} {mnemonic : String} {markers kill use use__ : List Loc}
    (apart : (x :: markers).Pairwise (fun x y => y.same x = false))
    (texts : ∀ m ∈ markers, m.isObject = false)
    (killApart : kill.Pairwise (fun x y => y.same x = false))
    (clobbers : kill = x.clobbered snapshot symbol) (holds : snapshot.Holds x)
    : Forced snapshot symbol x [.make asm mnemonic (x :: markers) kill use use__] := by
  have define : (Gadget.make asm mnemonic (x :: markers) kill use use__).define = x :: markers :=
    ofList_of_pairwise apart
  have kill_eq : (Gadget.make asm mnemonic (x :: markers) kill use use__).kill = kill :=
    ofList_of_pairwise killApart
  refine ⟨?_, ?_, ?_, iff_of_true ⟨_, mem_singleton_self _, ?_⟩ holds⟩
  · intro g mem y inside
    cases mem_singleton.mp mem
    rwa [kill_eq, clobbers] at inside
  · intro _ y inside
    exact ⟨_, mem_singleton_self _, by rwa [kill_eq, clobbers]⟩
  · intro g mem y object has
    cases mem_singleton.mp mem
    rw [define] at has
    exact same_of_has_markers object texts has
  · rw [define]
    exact mem_cons_self

theorem forced_genSetReg (reg : PlainReg) (value : Word)
    : Forced snapshot symbol (.reg reg.name) (genSetReg reg value) := by
  have clobbers : [] = Loc.clobbered snapshot symbol (.reg reg.name) := by cases reg <;> rfl
  have none_ : ∀ m ∈ ([] : List Loc), m.isObject = false := by simp
  cases reg with
  | gpr | eflags | eip => exact forced_make (pairwise_singleton _ _) none_ .nil clobbers trivial

theorem forced_genSetCreg (n : Nat) (value : Word)
    : Forced snapshot symbol (.reg (.cr n)) (genSetCreg n value) :=
  forced_make (pairwise_singleton _ _) (by simp) (pairwise_singleton _ _) rfl trivial

theorem forced_genSetSreg (r : Nat) (sg : Seg) (value : BitVec 16)
    : Forced snapshot symbol (.reg (.seg sg)) (genSetSreg r sg value) := by
  have texts : ∀ m ∈ sg.marker, m.isObject = false := by
    cases sg <;> simp [Seg.marker, Loc.isObject]
  have apart : (.reg (.seg sg) :: sg.marker).Pairwise (fun x y => y.same x = false) := by
    cases sg <;> simp [Seg.marker, Loc.same]
  cases sg with
  | es | ss | ds | fs | gs => exact forced_make apart texts (pairwise_singleton _ _) rfl trivial
  | cs =>
    -- One gadget patches the jump and kills, the jump itself defines.
    have target : ∀ m ∈ [Loc.patchLjmpTarget], m.isObject = false := by simp [Loc.isObject]
    refine ⟨?_, ?_, ?_, ?_⟩
    · intro g mem y inside
      rcases mem_pair.mp mem with rfl | rfl
      · exact inside
      · cases inside
    · intro _ y inside
      exact ⟨patchLjmp r, mem_cons_self, inside⟩
    · intro g mem y object has
      rcases mem_pair.mp mem with rfl | rfl
      · cases has
      · exact same_of_has_markers object target has
    · exact iff_of_true ⟨_, mem_cons_of_mem _ mem_cons_self, mem_cons_self⟩ trivial

theorem byteKills_pairwise {name : List Char} {kill : List Loc}
    (kills : byteKills snapshot name = some kill)
    : kill.Pairwise (fun x y => y.same x = false) := by
  unfold byteKills at kills
  split at kills
  · obtain ⟨_, _, rfl⟩ := Option.map_eq_some_iff.mp kills
    exact pairwise_singleton _ _
  · split at kills
    · obtain ⟨idx, _, rfl⟩ := Option.map_eq_some_iff.mp kills
      have all : ([.ds, .cs, .ss, .es, .fs, .gs] : List Seg).Pairwise
          (fun x y => Loc.same (.reg (.seg y)) (.reg (.seg x)) = false) := by decide
      exact pairwise_map.mpr (all.filter _)
    · cases kills
      exact .nil

theorem byteMarkers_texts (name : List Char) : ∀ m ∈ (byteMarkers name).1, m.isObject = false := by
  unfold byteMarkers
  repeat' split
  all_goals simp [Loc.isObject]

theorem byteMarkers_apart (addr : Nat) (name : List Char)
    : (.byte addr :: (byteMarkers name).1).Pairwise (fun x y => y.same x = false) := by
  unfold byteMarkers
  repeat' split
  all_goals simp [Loc.same]

theorem setByte_spec {addr i : Nat} {name : List Char} {seg : Option Seg} {data : Byte}
    {g : Gadget} (made : setByte snapshot addr name seg data i = some g)
    : ∃ asm mnemonic kill,
        byteKills snapshot name = some kill
        ∧ g
          = .make asm mnemonic (.byte addr :: (byteMarkers name).1) kill
              (byteMarkers name).2 [] := by
  obtain ⟨kill, kills, final⟩ := Option.bind_eq_some_iff.mp made
  exact ⟨_, _, kill, kills, (Option.some.inj final).symm⟩

theorem forced_genSetMem {addr : Nat} {name : List Char} {gs : List Gadget}
    (named : symbol addr = some name)
    (made : genSetMem snapshot addr name ((snapshot.mem.drop addr).take 1) none = some gs)
    : Forced snapshot symbol (.byte addr) gs := by
  by_cases inside : addr < snapshot.mem.length
  · have one : (snapshot.mem.drop addr).take 1 = [snapshot.mem[addr]] := by
      rw [drop_eq_getElem_cons inside]
      rfl
    rw [one] at made
    obtain ⟨g, byte, single⟩ := Option.bind_eq_some_iff.mp
      (show (setByte snapshot addr name none snapshot.mem[addr] 0).bind (fun g => some [g])
          = some gs by simpa [genSetMem] using made)
    cases single
    obtain ⟨asm, mnemonic, kill, kills, rfl⟩ := setByte_spec byte
    refine forced_make (byteMarkers_apart addr name) (byteMarkers_texts name)
      (byteKills_pairwise kills) ?_ inside
    simp only [Loc.clobbered, named, Option.bind_some, kills, Option.getD_some]
  · have none_ : gs = [] := by
      rw [drop_of_length_le (Nat.le_of_not_lt inside)] at made
      cases made
      rfl
    subst none_
    refine ⟨by simp, fun holds => absurd holds inside, by simp, ?_⟩
    exact iff_of_false (by simp) inside

/-- The gadgets for a location, whichever kind of object it is. -/
theorem forceGadget_spec {r : Nat} {gs : List Gadget}
    (made : forceGadget snapshot symbol r x = some gs)
    : Forced snapshot symbol x gs := by
  obtain ⟨p, object, later⟩ := Option.bind_eq_some_iff.mp made
  obtain ⟨q, valued, gadgets⟩ := Option.bind_eq_some_iff.mp later
  cases x with
  | reg name =>
    cases name with
    | gpr r =>
      obtain ⟨reg, part⟩ := r
      cases part with
      | full =>
        cases object
        cases valued
        cases gadgets
        exact forced_genSetReg (.gpr reg) _
      | _ => cases object
    | eflags =>
      cases object
      cases valued
      cases gadgets
      exact forced_genSetReg .eflags _
    | eip =>
      cases object
      cases valued
      cases gadgets
      exact forced_genSetReg .eip _
    | seg sg =>
      cases object
      cases valued
      cases gadgets
      exact forced_genSetSreg _ sg _
    | cr n =>
      cases object
      obtain ⟨_, original⟩ := Option.ite_none_right_eq_some.mp valued
      cases original
      cases gadgets
      exact forced_genSetCreg n _
    | _ => cases object
  | byte addr =>
    obtain ⟨name, named, rfl⟩ := Option.map_eq_some_iff.mp object
    cases valued
    exact forced_genSetMem named gadgets
  | _ => cases object

end

section

variable {f : Gadget → LocSet} {l : List Gadget} {x : Loc}

theorem mem_gathered (mem : x ∈ gathered f l) : ∃ g ∈ l, x ∈ f g := by
  have step (gs : List Gadget) (s : LocSet) (mem : x ∈ gs.foldl (fun s g => s.union (f g)) s)
      : x ∈ s ∨ ∃ g ∈ gs, x ∈ f g := by
    induction gs generalizing s with
    | nil => exact .inl mem
    | cons g rest ih =>
      rcases ih (s.union (f g)) mem with now | later
      · rcases mem_of_union now with old | new
        · exact .inl old
        · exact .inr ⟨g, mem_cons_self, new⟩
      · obtain ⟨g', inside, found⟩ := later
        exact .inr ⟨g', mem_cons_of_mem g inside, found⟩
  rcases step l [] mem with none_ | found
  · cases none_
  · exact found

theorem has_gathered (whole : LocSet.Whole x) {g : Gadget} (mem : g ∈ l)
    (has : (f g).has x = true)
    : (gathered f l).has x = true := by
  have keep (rest : List Gadget) (s : LocSet) (present : s.has x = true)
      : LocSet.has (rest.foldl (fun s g => s.union (f g)) s) x = true := by
    induction rest generalizing s with
    | nil => exact present
    | cons g' rest ih => exact ih _ (has_union_left present)
  obtain ⟨y, inside, same⟩ := has_iff.mp has
  obtain ⟨before, after, rfl⟩ := append_of_mem mem
  rw [gathered, foldl_append]
  exact keep after _ (has_union_right whole inside same)

theorem mem_undefinedKills
    : x ∈ undefinedKills l
      ↔ x ∈ gathered Gadget.kill l ∧ (gathered Gadget.define l).has x = false := by
  simp [undefinedKills]

theorem LocSet.whole_of_eq (rigid : ∀ y, x.same y = true → x = y) : LocSet.Whole x := by
  intro y z first second
  rw [rigid y first]
  exact second

end

/-- Every register and memory byte that some gadget kills, some gadget defines. -/
def Closed (gs : List Gadget) : Prop :=
  ∀ g ∈ gs, ∀ x ∈ g.kill, x.isObject = true → ∃ g' ∈ gs, g'.define.has x = true

/-- The list defines the location, or it kills it and does not define it. -/
def Covered (l : List Gadget) (x : Loc) : Prop :=
  (∃ g ∈ l, g.define.has x = true) ∨ (undefinedKills l).has x = true

/-- A part of a register that has other parts, such as `AL`. -/
def Loc.isPartial : Loc → Bool
  | .reg (.gpr r) => r.reg.hasHalves && r.part != .full
  | _ => false

/-- One pass is enough: what the gadgets for undefined locations kill is defined in the list,
or undefined too, and so are parts of registers that it kills; undefined bytes are in the
snapshot.
-/
structure Settled (snapshot : Snapshot) (symbol : Nat → Option (List Char)) (l : List Gadget)
    : Prop where
  parts : ∀ g ∈ l, ∀ x ∈ g.kill, x.isPartial = true → Covered l x
  held : ∀ x ∈ undefinedKills l, snapshot.Holds x
  clobbered : ∀ x ∈ undefinedKills l, ∀ y ∈ x.clobbered snapshot symbol, Covered l y

section

variable {snapshot : Snapshot} {symbol : Nat → Option (List Char)} {order : SetOrder}
variable {labels : Nat → Nat} {l out : List Gadget} {done : LocSet}

/-- The gadgets of a stable list: those given, and those for each undefined location. -/
theorem makeStable_spec (made : makeStable snapshot symbol order labels l done = some out)
    : l <+: out
      ∧ ∃ forced : List (List Gadget),
          (∀ g, g ∈ out ↔ g ∈ l ∨ ∃ gs ∈ forced, g ∈ gs)
          ∧ (∀ gs ∈ forced, ∃ x ∈ undefinedKills l, Forced snapshot symbol x gs)
          ∧ ∀ x ∈ undefinedKills l, ∃ gs ∈ forced, Forced snapshot symbol x gs := by
  unfold makeStable at made
  simp only [Option.ite_none_left_eq_some] at made
  obtain ⟨_, later⟩ := made
  obtain ⟨forced, results, final⟩ := Option.bind_eq_some_iff.mp later
  cases final
  refine ⟨prefix_append l _, forced, ?_, ?_, ?_⟩
  · intro g
    rw [mem_append, mem_flatten]
  · intro gs mem
    obtain ⟨p, place, res⟩ := (Folds.mem_of_mapM results).mp mem
    have inside := mem_of_getElem? (mem_zipIdx_iff_getElem?.mp place)
    exact ⟨p.1, (order.perm _).mem_iff.mp inside, forceGadget_spec res⟩
  · intro x mem
    have inside : x ∈ order.iter (undefinedKills l) := (order.perm _).mem_iff.mpr mem
    obtain ⟨i, here⟩ := mem_iff_getElem?.mp inside
    have place : (x, i) ∈ (order.iter (undefinedKills l)).zipIdx := mem_zipIdx_iff_getElem?.mpr here
    obtain ⟨gs, res⟩ := Folds.exists_mapM.mp ⟨forced, results⟩ _ place
    exact ⟨gs, (Folds.mem_of_mapM results).mpr ⟨_, place, res⟩, forceGadget_spec res⟩

theorem whole_of_not_part {x : Loc} (notPart : x.isPartial = false) : LocSet.Whole x := by
  cases x with
  | reg name =>
    cases name with
    | gpr r =>
      obtain ⟨reg, part⟩ := r
      by_cases full : part = .full
      · rw [full]
        exact whole_reg reg
      · have noHalves : reg.hasHalves = false := by simpa [Loc.isPartial, full] using notPart
        refine whole_of_eq (fun y same => ?_)
        cases y with
        | reg a =>
          cases a with
          | gpr b => simpa [Loc.same, RegName.same, noHalves] using same
          | _ => simp [Loc.same, RegName.same] at same
        | _ => simp [Loc.same] at same
    | _ =>
      refine whole_of_eq (fun y same => ?_)
      cases y with
      | reg a => simpa [Loc.same, RegName.same] using same
      | _ => simp [Loc.same] at same
  | _ => exact whole_of_eq (fun y same => by simpa [Loc.same] using same)

theorem covered_of_whole {g : Gadget} {x : Loc} (whole : LocSet.Whole x) (mem : g ∈ l)
    (kills : x ∈ g.kill)
    : Covered l x := by
  have killed := has_gathered (f := Gadget.kill) whole mem (has_of_mem kills)
  obtain ⟨y, inside, same⟩ := has_iff.mp killed
  cases defined : (gathered Gadget.define l).has y with
  | true =>
    obtain ⟨z, inDefine, equal⟩ := has_iff.mp defined
    obtain ⟨g', mem', place⟩ := mem_gathered inDefine
    exact .inl ⟨g', mem', has_iff.mpr ⟨z, place, whole y z same equal⟩⟩
  | false => exact .inr (has_iff.mpr ⟨y, mem_undefinedKills.mpr ⟨inside, defined⟩, same⟩)

theorem defined_of_covered {forced : List (List Gadget)}
    (held : ∀ x ∈ undefinedKills l, snapshot.Holds x)
    (members : ∀ g, g ∈ out ↔ g ∈ l ∨ ∃ gs ∈ forced, g ∈ gs)
    (all : ∀ x ∈ undefinedKills l, ∃ gs ∈ forced, Forced snapshot symbol x gs) {y : Loc}
    (covered : Covered l y)
    : ∃ g ∈ out, g.define.has y = true := by
  rcases covered with given | forcedOne
  · obtain ⟨g, mem, has⟩ := given
    exact ⟨g, (members g).mpr (.inl mem), has⟩
  · obtain ⟨z, undefined, same⟩ := has_iff.mp forcedOne
    obtain ⟨gs, inside, spec⟩ := all z undefined
    obtain ⟨g, mem, defines⟩ := spec.defined.mpr (held z undefined)
    exact ⟨g, (members g).mpr (.inr ⟨gs, inside, mem⟩), has_iff.mpr ⟨z, defines, same⟩⟩

theorem covered_of_defined {forced : List (List Gadget)}
    (members : ∀ g, g ∈ out ↔ g ∈ l ∨ ∃ gs ∈ forced, g ∈ gs)
    (each : ∀ gs ∈ forced, ∃ x ∈ undefinedKills l, Forced snapshot symbol x gs) {y : Loc}
    (object : y.isObject = true) (defined : ∃ g ∈ out, g.define.has y = true)
    : Covered l y := by
  obtain ⟨g, mem, has⟩ := defined
  rcases (members g).mp mem with given | ⟨gs, inside, place⟩
  · exact .inl ⟨g, given, has⟩
  · obtain ⟨x, undefined, spec⟩ := each gs inside
    exact .inr (has_iff.mpr ⟨x, undefined, spec.defines g place y object has⟩)

theorem byteKills_isObject {name : List Char} {kill : List Loc}
    (kills : byteKills snapshot name = some kill)
    : ∀ y ∈ kill, y.isObject = true := by
  unfold byteKills at kills
  split at kills
  · obtain ⟨_, _, rfl⟩ := Option.map_eq_some_iff.mp kills
    simp [Loc.isObject]
  · split at kills
    · obtain ⟨idx, _, rfl⟩ := Option.map_eq_some_iff.mp kills
      simp [Loc.isObject]
    · cases kills
      simp

theorem clobbered_isObject {x y : Loc} (mem : y ∈ x.clobbered snapshot symbol)
    : y.isObject = true := by
  unfold Loc.clobbered at mem
  split at mem
  · simp only [mem_cons, not_mem_nil, or_false] at mem
    rcases mem with rfl | rfl | rfl <;> rfl
  · cases mem_singleton.mp mem
    rfl
  · cases mem_singleton.mp mem
    rfl
  next addr =>
    cases kills : (symbol addr).bind (byteKills snapshot) with
    | none =>
      rw [kills] at mem
      cases mem
    | some kill =>
      rw [kills] at mem
      obtain ⟨name, _, found⟩ := Option.bind_eq_some_iff.mp kills
      exact byteKills_isObject found y mem
  · cases mem

/-- The list that `make_stable` returns starts with the given one, and it is closed exactly if
the given list needs one pass only. Witness: the gadgets that are added define their own
location and nothing else, and kill what is listed for it.
-/
theorem makeStable_closed_iff (made : makeStable snapshot symbol order labels l done = some out)
    : l <+: out ∧ Closed out ↔ Settled snapshot symbol l := by
  obtain ⟨start, forced, members, each, all⟩ := makeStable_spec made
  constructor
  · intro stable
    have closed := stable.2
    have held : ∀ x ∈ undefinedKills l, snapshot.Holds x := by
      intro x undefined
      cases x with
      | byte addr =>
        obtain ⟨gathers, notDefined⟩ := mem_undefinedKills.mp undefined
        obtain ⟨g, given, kills⟩ := mem_gathered gathers
        obtain ⟨g', member, has⟩ := closed g ((members g).mpr (.inl given)) _ kills rfl
        rcases (members g').mp member with old | ⟨gs, inside, place⟩
        · rw [has_gathered (whole_of_not_part rfl) old has] at notDefined
          cases notDefined
        · obtain ⟨z, _, spec⟩ := each gs inside
          have same : Loc.byte addr = z := by
            simpa [Loc.same] using spec.defines g' place (.byte addr) rfl has
          subst same
          obtain ⟨y, inDefine, equal⟩ := has_iff.mp has
          have own : Loc.byte addr = y := by simpa [Loc.same] using equal
          exact spec.defined.mp ⟨g', place, own ▸ inDefine⟩
      | _ => trivial
    refine ⟨?_, held, ?_⟩
    · intro g given x kills isPart
      have object : x.isObject = true := by cases x <;> first | rfl | cases isPart
      exact covered_of_defined members each object
        (closed g ((members g).mpr (.inl given)) x kills object)
    · intro x undefined y clobbers
      obtain ⟨gs, inside, spec⟩ := all x undefined
      obtain ⟨g, place, kills⟩ := spec.killed (held x undefined) y clobbers
      have object := clobbered_isObject clobbers
      exact covered_of_defined members each object
        (closed g ((members g).mpr (.inr ⟨gs, inside, place⟩)) y kills object)
  · intro settled
    refine ⟨start, ?_⟩
    intro g member x kills object
    apply defined_of_covered settled.held members all
    rcases (members g).mp member with given | ⟨gs, inside, place⟩
    · cases isPart : x.isPartial with
      | true => exact settled.parts g given x kills isPart
      | false => exact covered_of_whole (whole_of_not_part isPart) given kills
    · obtain ⟨z, undefined, spec⟩ := each gs inside
      exact settled.clobbered z undefined x (spec.kills g place x kills)

end

/-- A snapshot in which only DS has the second descriptor. -/
def dsSnapshot : Snapshot where
  gpr := fun _ => 0
  eflags := 0
  eip := 0
  seg := fun sg => if sg = .ds then 0x10 else 0x18
  cr := fun _ => 0
  mem := []

/-- The gadget for a byte of that descriptor, which is at some address. -/
def dsByte : List Gadget := (genSetMem dsSnapshot 0x1000 "GDT_2".toList [0xff] none).getD []

/-- Setting a byte of the descriptor kills DS, and setting DS kills EAX, which is not set. -/
theorem makeStable_leaves_eax
    : makeStable dsSnapshot (fun _ => none) .insertion id dsByte [.byte 0x1000]
        = some (dsByte ++ genSetSreg 0 .ds 0x10)
      ∧ ¬ Closed (dsByte ++ genSetSreg 0 .ds 0x10) := by
  refine ⟨by decide +kernel, ?_⟩
  intro closed
  have killer : ∃ g ∈ dsByte ++ genSetSreg 0 .ds 0x10, Loc.reg Gpr.eax.name ∈ g.kill := by
    decide +kernel
  obtain ⟨g, member, kills⟩ := killer
  have defined := closed g member (.reg Gpr.eax.name) kills rfl
  exact absurd defined (by decide +kernel)

/-- If the test case sets EAX as well, one pass is enough. -/
theorem makeStable_closed_iff_eax
    : ∃ out,
        makeStable dsSnapshot (fun _ => none) .insertion id (dsByte ++ genSetReg (.gpr .eax) 1)
          [.byte 0x1000, .reg Gpr.eax.name] = some out
        ∧ Closed out := by
  have made : makeStable dsSnapshot (fun _ => none) .insertion id
      (dsByte ++ genSetReg (.gpr .eax) 1) [.byte 0x1000, .reg Gpr.eax.name]
        = some (dsByte ++ genSetReg (.gpr .eax) 1 ++ genSetSreg 0 .ds 0x10) := by
    decide +kernel
  have undefined : undefinedKills (dsByte ++ genSetReg (.gpr .eax) 1) = [.reg (.seg .ds)] := by
    decide +kernel
  refine ⟨_, made, ((makeStable_closed_iff made).mpr ⟨?_, ?_, ?_⟩).2⟩
  · unfold Covered
    decide +kernel
  · intro x member
    rw [undefined] at member
    cases mem_singleton.mp member
    trivial
  · intro x member y clobbers
    rw [undefined] at member
    cases mem_singleton.mp member
    cases mem_singleton.mp clobbers
    exact .inl (by decide +kernel)

end FastPokeEmu.Floppy
