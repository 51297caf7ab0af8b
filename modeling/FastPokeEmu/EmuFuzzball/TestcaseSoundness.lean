import Mathlib.Data.Option.Basic
import FastPokeEmu.EmuFuzzball.Relevance

/-! When the assembled test case drives execution down its path.
Every variable is refined against the original counterexample, so the refined values are
known to satisfy the path condition one at a time. Whether they satisfy it together is a
property of the path condition, characterised here exactly.
-/

namespace FastPokeEmu.EmuFuzzball

open FastPokeEmu.Vine List Option
open FastPokeEmu.Interpreter

/-- Input variables of the path condition, by name. -/
def declNames (formMan : FormulaManager) (pc : List Exp) : List String :=
  (varsInPathcond formMan pc).1.map Var.name

/-- Every context name that evaluating the path condition may look up. -/
def pathNames (formMan : FormulaManager) (pc : List Exp) : List String :=
  assgnNames (varsInPathcond formMan pc).2 ++ names (conjoin pc)

/-- `test_satisfiability` with the declarations and temporaries of the path condition. -/
def pathHolds (formMan : FormulaManager) (pc : List Exp) (ctx : Table) : Option Bool :=
  testSatisfiability (varsInPathcond formMan pc).1 (varsInPathcond formMan pc).2 pc ctx

/-- A value of an 8-bit variable. -/
def IsByte (value : I64) : Prop := value.toNat < 256

instance (value : I64) : Decidable (IsByte value) := inferInstanceAs (Decidable (_ < _))

/-- A counterexample for a path condition over 8-bit inputs: it assigns every input of the
path condition, satisfies it, and the interpreter can evaluate the path condition whatever
bytes its variables hold. `declared` is what the formula manager's walk over the path
condition guarantees: no input it mentions is left undeclared.
-/
structure ByteCounterexample (formMan : FormulaManager) (pc : List Exp) (ctx : Table)
    : Prop where
  declared : ∀ name ∈ pathNames formMan pc, name ∈ ctx.keys → name ∈ declNames formMan pc
  assigned : ∀ name ∈ declNames formMan pc, name ∈ ctx.keys
  bytes : ∀ item ∈ ctx.items, IsByte item.2
  evaluable
    : ∀ change : String → I64 → I64,
        (∀ name value, IsByte value → IsByte (change name value))
        → (pathHolds formMan pc (ctx.mapValues change)).isSome
  satisfied : pathHolds formMan pc ctx = some true

/-- The path condition does not couple its inputs at this counterexample: new bytes that
keep it true when they are installed one variable at a time keep it true together.
-/
def Decoupled (formMan : FormulaManager) (pc : List Exp) (ctx : Table) : Prop :=
  ∀ value : String → I64,
    (∀ name, IsByte (value name))
    → (∀ name ∈ declNames formMan pc,
        pathHolds formMan pc (ctx.replace name (value name)) = some true)
    → pathHolds formMan pc
          (ctx.mapValues (fun name current =>
            if name ∈ declNames formMan pc then value name else current))
        = some true

/-- Lookup in the filtered bindings of a changed table, by list induction. -/
theorem lookup_filter_mapValues (items : List (String × I64)) (keep : String → Bool)
    (change : String → I64 → I64) (name : String)
    : ((items.map (fun item => (item.1, change item.1 item.2))).filter
          (fun item => keep item.1)).lookup name
      = if keep name then (items.lookup name).map (change name) else none := by
  induction items with
  | nil => simp
  | cons item rest ih =>
    obtain ⟨key, value⟩ := item
    simp only [map_cons, filter_cons]
    by_cases same : name = key
    · subst key
      cases kept : keep name with
      | true => simp
      | false => simpa [kept] using ih
    · have other : (name == key) = false := by simpa using same
      cases kept : keep key with
      | true | false => simpa [lookup_cons, other] using ih

section

variable {formMan : FormulaManager} {pc : List Exp} {ctx : Table}

/-- Changes that agree on the declared inputs do not affect the path condition.
Witness: every declared input is bound, so no default is added; the two interpreter
contexts then agree on all names the evaluation can look up.
-/
theorem ByteCounterexample.pathHolds_congr (given : ByteCounterexample formMan pc ctx)
    {change other : String → I64 → I64}
    (agree
      : ∀ item ∈ ctx.items,
          item.1 ∈ declNames formMan pc → change item.1 item.2 = other item.1 item.2)
    : pathHolds formMan pc (ctx.mapValues change) = pathHolds formMan pc (ctx.mapValues other) := by
  have complete (change : String → I64 → I64)
      : (varsInPathcond formMan pc).1.filterMap
          (fun v => if v.name ∈ (ctx.mapValues change).keys then none
            else some (v.name, (0 : I64))) = [] := by
    rw [filterMap_eq_nil_iff]
    intro v mem
    simp [given.assigned v.name (mem_map.mpr ⟨v, mem, rfl⟩)]
  have unique (change : String → I64 → I64)
      : (((ctx.mapValues change).items.filter
          (fun item => startsWith item.1 "in_" || startsWith item.1 "mem_byte_")).map
            Prod.fst).Nodup :=
    (ctx.mapValues change).unique.sublist (filter_sublist.map _)
  have scope : Agree True (· ∈ pathNames formMan pc)
      (fun name => ((ctx.mapValues change).items.filter
        (fun item => startsWith item.1 "in_" || startsWith item.1 "mem_byte_")).lookup name)
      (fun name => ((ctx.mapValues other).items.filter
        (fun item => startsWith item.1 "in_" || startsWith item.1 "mem_byte_")).lookup
          name) := by
    intro name mem
    simp only [Table.mapValues]
    rw [lookup_filter_mapValues ctx.items
        (fun name => startsWith name "in_" || startsWith name "mem_byte_") change,
      lookup_filter_mapValues ctx.items
        (fun name => startsWith name "in_" || startsWith name "mem_byte_") other]
    refine Same.rel (fun _ => ?_) (by simp [apply_ite Option.isSome])
    cases found : ctx.items.lookup name with
    | none => simp
    | some value =>
      have bound := (Assoc.lookup_eq_some_iff_mem ctx.unique).mp found
      have key : name ∈ ctx.keys := mem_map.mpr ⟨_, bound, rfl⟩
      simp [agree (name, value) bound (given.declared name mem key)]
  unfold pathHolds testSatisfiability
  simp only [complete, reverse_nil, nil_append, ctxInit_of_unique _ (unique change),
    ctxInit_of_unique _ (unique other), bind_eq_bind, bind_some]
  exact Same.eq (conjoin_agree (fun _ _ => .inl trivial) (.inl trivial) (fun _ => id) scope)

theorem ByteCounterexample.replace_current (given : ByteCounterexample formMan pc ctx)
    {item : String × I64} (mem : item ∈ ctx.items)
    : pathHolds formMan pc (ctx.replace item.1 item.2) = some true := by
  rw [Table.replace_self ((Assoc.lookup_eq_some_iff_mem ctx.unique).mpr mem)]
  exact given.satisfied

theorem IsByte.xor {left right : I64} (hl : IsByte left) (hr : IsByte right)
    : IsByte (left ^^^ right) := by
  unfold IsByte at *
  rw [BitVec.toNat_xor]
  exact Nat.xor_lt_two_pow (n := 8) hl hr

theorem isByte_bitMask {i : Nat} (small : i < 8) : IsByte (bitMask i) := by
  have every : ∀ i : Fin 8, IsByte (bitMask i) := by decide
  exact every ⟨i, small⟩

/-- A turn of the bit loop keeps a satisfying byte a satisfying byte.
Witness: a rejected flip is undone by flipping the same bit again.
-/
theorem refineBit_sound {test : I64 → Option Bool} (diff : I64) {current : I64} {i : Nat}
    (total : ∀ value, IsByte value → (test value).isSome) (small : i < 8)
    (byte : IsByte current) (holds : test current = some true)
    : ∃ next, refineBit test diff current i = some next ∧ IsByte next ∧ test next = some true := by
  unfold refineBit
  by_cases skipped : bitMask i &&& diff = 0
  · exact ⟨current, by simp [skipped], byte, holds⟩
  · have flippedByte := byte.xor (isByte_bitMask small)
    obtain ⟨feasible, tested⟩ := isSome_iff_exists.mp (total _ flippedByte)
    cases feasible with
    | true => exact ⟨_, by simp only [if_neg skipped, tested]; rfl, flippedByte, tested⟩
    | false =>
      refine ⟨current, ?_, byte, holds⟩
      simp only [if_neg skipped, tested, bind_eq_bind, bind_some,
        Bool.false_eq_true, if_false, BitVec.xor_assoc, BitVec.xor_self, BitVec.xor_zero]

/-- The bit loop returns a satisfying byte, by induction over the bits still to visit. -/
theorem refineBits_sound {test : I64 → Option Bool} (diff : I64)
    (total : ∀ value, IsByte value → (test value).isSome) (bits : List Nat)
    (small : ∀ i ∈ bits, i < 8) {current : I64} (byte : IsByte current)
    (holds : test current = some true)
    : ∃ next, bits.foldlM (refineBit test diff) current = some next
        ∧ IsByte next ∧ test next = some true := by
  induction bits generalizing current with
  | nil => exact ⟨current, rfl, byte, holds⟩
  | cons i rest ih =>
    obtain ⟨next, turned, nextByte, nextHolds⟩ :=
      refineBit_sound diff total (small i (by simp)) byte holds
    obtain ⟨last, looped, lastByte, lastHolds⟩ :=
      ih (fun j mem => small j (by simp [mem])) nextByte nextHolds
    exact ⟨last, by simp [turned, looped], lastByte, lastHolds⟩

theorem computePreferredValue_eq {decls : List Var} {temps : List (Var × Exp)} {var : String}
    {curval prefval : I64} (satisfied : testSatisfiability decls temps pc ctx = some true)
    (found : ctx.find? var = some curval)
    : computePreferredValue decls temps pc ctx var curval prefval
      = (testSatisfiability decls temps pc (ctx.replace var prefval)).bind fun immediately =>
          if immediately then some prefval
          else (List.range 8).foldlM
            (refineBit (fun value => testSatisfiability decls temps pc (ctx.replace var value))
              (curval ^^^ prefval)) curval := by
  have passed : (guard (ctx.find? var = some curval) : Option Unit) = some () :=
    (guard_eq_some' ()).mpr found
  rw [computePreferredValue, satisfied, passed]
  rfl

/-- Refining one input returns a byte that satisfies the path condition on its own, and
the preferred byte itself whenever that one does.
-/
theorem ByteCounterexample.computePreferredValue_sound
    (given : ByteCounterexample formMan pc ctx) {item : String × I64}
    (mem : item ∈ ctx.items) {prefval : I64} (prefByte : IsByte prefval)
    : ∃ newval,
        computePreferredValue (varsInPathcond formMan pc).1 (varsInPathcond formMan pc).2
            pc ctx item.1 item.2 prefval
          = some newval
        ∧ IsByte newval
        ∧ pathHolds formMan pc (ctx.replace item.1 newval) = some true
        ∧ (pathHolds formMan pc (ctx.replace item.1 prefval) = some true → newval = prefval) := by
  have bound : item.1 ∈ ctx.keys := mem_map.mpr ⟨item, mem, rfl⟩
  have total (value : I64) (byte : IsByte value)
      : (pathHolds formMan pc (ctx.replace item.1 value)).isSome := by
    rw [Table.replace_eq_mapValues ctx value bound]
    refine given.evaluable _ ?_
    intro name old oldByte
    split
    · exact byte
    · exact oldByte
  have found : ctx.find? item.1 = some item.2 :=
    (Assoc.lookup_eq_some_iff_mem ctx.unique).mpr mem
  have satisfied := given.satisfied
  obtain ⟨immediately, tested⟩ := isSome_iff_exists.mp (total _ prefByte)
  obtain ⟨last, looped, lastByte, lastHolds⟩ :=
    refineBits_sound (item.2 ^^^ prefval) total (List.range 8)
      (fun i inside => mem_range.mp inside) (given.bytes item mem)
      (given.replace_current mem)
  unfold pathHolds at satisfied tested looped lastHolds
  cases immediately with
  | true =>
    refine ⟨prefval, ?_, prefByte, tested, fun _ => rfl⟩
    rw [computePreferredValue_eq satisfied found, tested]
    rfl
  | false =>
    refine ⟨last, ?_, lastByte, lastHolds, fun holds => ?_⟩
    · rw [computePreferredValue_eq satisfied found, tested]
      exact looped
    · rw [pathHolds, tested] at holds
      simp at holds

/-- Entries that all succeed are collected in reverse order, by list induction. -/
theorem foldlM_entries (entries : String × I64 → Option (Option (String × I64)))
    (entry : String × I64 → Option (String × I64)) (items acc : List (String × I64))
    (each : ∀ item ∈ items, entries item = some (entry item))
    : items.foldlM (fun tcs item => do
          let found ← entries item
          some (found.toList ++ tcs)) acc
      = some ((items.filterMap entry).reverse ++ acc) := by
  induction items generalizing acc with
  | nil => rfl
  | cons item rest ih =>
    have later := ih ((entry item).toList ++ acc) (fun other mem =>
      each other (by simp [mem]))
    cases found : entry item with
    | none | some => simpa [each item (by simp), found] using later

/-- The test case's value for a listed key is the one its entry contributes.
Witness: entries keep their binding's key, so the keys of the test case are unique too.
-/
theorem lookup_entries {entry : String × I64 → Option (String × I64)}
    (keyed : ∀ item tc, entry item = some tc → tc.1 = item.1)
    {items : List (String × I64)} (unique : (items.map Prod.fst).Nodup)
    {item : String × I64} (mem : item ∈ items)
    : (items.filterMap entry).reverse.lookup item.1 = (entry item).map Prod.snd := by
  have keysUnique : (((items.filterMap entry).reverse).map Prod.fst).Nodup := by
    rw [map_reverse, nodup_reverse]
    refine List.Nodup.sublist ?_ unique
    clear unique mem
    induction items with
    | nil => simp
    | cons head rest ih =>
      cases found : entry head with
      | none => simpa [found] using ih.cons head.1
      | some tc => simpa [found, keyed head tc found] using ih.cons_cons head.1
  have origin {name : String} {value : I64}
      (listed : (name, value) ∈ (items.filterMap entry).reverse) (same : name = item.1)
      : entry item = some (name, value) := by
    obtain ⟨other, otherMember, found⟩ := mem_filterMap.mp (mem_reverse.mp listed)
    have key : other.1 = item.1 := (keyed other _ found).symm.trans same
    have equal : other = item := inj_on_of_nodup_map unique otherMember mem key
    exact equal ▸ found
  cases contributed : entry item with
  | none =>
    rw [map_none, lookup_eq_none_iff]
    rintro ⟨name, value⟩ listed
    by_contra same
    have equal : item.1 = name := by simpa using same
    rw [origin listed equal.symm] at contributed
    cases contributed
  | some tc =>
    rw [map_some, Assoc.lookup_eq_some_iff_mem keysUnique, ← keyed item tc contributed]
    exact mem_reverse.mpr (mem_filterMap.mpr ⟨item, mem, contributed⟩)

/-- The value a test case ends up giving to an input. -/
theorem ByteCounterexample.assembled (given : ByteCounterexample formMan pc ctx)
    {preferredValues : String → Option I64} (omitUnchangedVars : Bool)
    (prefBytes : ∀ name value, preferredValues name = some value → IsByte value)
    : ∃ testcase,
        assembleTestcase formMan preferredValues omitUnchangedVars pc ctx = some testcase
        ∧ ∀ item ∈ ctx.items,
            item.1 ∈ declNames formMan pc
            → ∃ newval,
                (testcase.lookup item.1).getD ((preferredValues item.1).getD item.2)
                  = newval
                ∧ IsByte newval
                ∧ pathHolds formMan pc (ctx.replace item.1 newval) = some true
                ∧ ∀ prefval,
                    preferredValues item.1 = some prefval
                    → pathHolds formMan pc (ctx.replace item.1 prefval) = some true
                    → newval = prefval := by
  let entries := testcaseEntry (varsInPathcond formMan pc).1 (varsInPathcond formMan pc).2
    pc preferredValues omitUnchangedVars ctx
  let entry := fun item => (entries item).getD none
  -- each entry succeeds, keeps its key, and is refined soundly for a declared input
  have each (item : String × I64) (mem : item ∈ ctx.items)
      : entries item = some (entry item) := by
    suffices (entries item).isSome by
      obtain ⟨found, hf⟩ := isSome_iff_exists.mp this
      simp [entry, hf]
    simp only [entries, testcaseEntry]
    split
    · split
      · next prefval preferred =>
          obtain ⟨newval, computed, _⟩ :=
            given.computePreferredValue_sound mem (prefBytes _ _ preferred)
          rw [computed, bind_eq_bind, bind_some]
          split <;> rfl
      · rfl
    · rfl
  have keyed (item tc : String × I64) (found : entry item = some tc) : tc.1 = item.1 := by
    simp only [entry, entries, testcaseEntry] at found
    split at found
    · split at found
      · next prefval preferred =>
          cases computed : computePreferredValue (varsInPathcond formMan pc).1
              (varsInPathcond formMan pc).2 pc ctx item.1 item.2 prefval with
          | none => simp [computed] at found
          | some newval =>
            rw [computed, bind_eq_bind, bind_some] at found
            split at found
            · simp at found
            · simp only [getD_some, Option.some.injEq] at found
              rw [← found]
      · simp only [getD_some, Option.some.injEq] at found
        rw [found]
    · simp at found
  refine ⟨(ctx.items.filterMap entry).reverse, ?_, ?_⟩
  · simpa [assembleTestcase] using foldlM_entries entries entry ctx.items [] each
  · intro item mem declared
    rw [lookup_entries keyed ctx.unique mem]
    have declaredName : item.1 ∈ (varsInPathcond formMan pc).1.map Var.name := declared
    cases preferred : preferredValues item.1 with
    | none =>
      have kept : entry item = some item := by
        simp only [entry, entries, testcaseEntry, if_pos declaredName, preferred,
          getD_some]
      exact ⟨item.2, by simp [kept], given.bytes item mem,
        given.replace_current mem, by simp⟩
    | some prefval =>
      obtain ⟨newval, computed, byte, holds, immediate⟩ :=
        given.computePreferredValue_sound mem (prefBytes _ _ preferred)
      refine ⟨newval, ?_, byte, holds, ?_⟩
      · by_cases unchanged : newval = prefval ∧ omitUnchangedVars = true
        · have omitted : entry item = none := by
            simp only [entry, entries, testcaseEntry, if_pos declaredName, preferred, computed,
              bind_eq_bind, bind_some, if_pos unchanged, getD_some]
          simp [omitted, unchanged.1]
        · have emitted : entry item = some (item.1, newval) := by
            simp only [entry, entries, testcaseEntry, if_pos declaredName, preferred, computed,
              bind_eq_bind, bind_some, if_neg unchanged, getD_some]
          simp [emitted]
      · intro value same
        rw [← Option.some.inj same]
        exact immediate

/-- The assembled test case, completed by preferred values, satisfies the path condition
for every table of preferred bytes exactly when the path condition does not couple its
inputs at the counterexample.
Witness: refined values hold one at a time, so decoupling joins them; conversely a table
of values that hold one at a time is adopted by the analysis without any bit search.
-/
theorem assembleTestcase_sound_iff (given : ByteCounterexample formMan pc ctx)
    : (∀ (preferredValues : String → Option I64) (omitUnchangedVars : Bool),
        (∀ name value, preferredValues name = some value → IsByte value)
        → ∃ testcase,
            assembleTestcase formMan preferredValues omitUnchangedVars pc ctx
              = some testcase
            ∧ pathHolds formMan pc (completed preferredValues testcase ctx) = some true)
      ↔ Decoupled formMan pc ctx := by
  constructor
  · intro sound value bytes alone
    obtain ⟨testcase, assembled, together⟩ :=
      sound (fun name => some (value name)) false
        (fun name v same => Option.some.inj same ▸ bytes name)
    obtain ⟨testcase', assembled', refined⟩ :=
      given.assembled false (fun name v same => Option.some.inj same ▸ bytes name)
    rw [assembled] at assembled'
    obtain rfl := Option.some.inj assembled'
    rw [← together]
    refine given.pathHolds_congr ?_
    intro item member declared
    obtain ⟨newval, final, _, _, immediate⟩ := refined item member declared
    rw [if_pos declared, final]
    exact (immediate (value item.1) rfl (alone item.1 declared)).symm
  · intro decoupled preferredValues omitUnchangedVars prefBytes
    obtain ⟨testcase, assembled, refined⟩ := given.assembled omitUnchangedVars prefBytes
    refine ⟨testcase, assembled, ?_⟩
    -- the value each input ends up with; names without a binding get an arbitrary byte
    let value : String → I64 := fun name =>
      if name ∈ declNames formMan pc then
        ((ctx.items.lookup name).map fun current =>
          (testcase.lookup name).getD ((preferredValues name).getD current)).getD 0
      else 0
    have valueAt {item : String × I64} (member : item ∈ ctx.items)
        (declared : item.1 ∈ declNames formMan pc)
        : value item.1 = (testcase.lookup item.1).getD ((preferredValues item.1).getD item.2) := by
      have found := (Assoc.lookup_eq_some_iff_mem ctx.unique).mpr member
      simp only [value, if_pos declared, found, map_some, getD_some]
    have binding {name : String} (declared : name ∈ declNames formMan pc)
        : ∃ current, (name, current) ∈ ctx.items := by
      obtain ⟨item, member, same⟩ := mem_map.mp (given.assigned name declared)
      exact ⟨item.2, same ▸ member⟩
    have joined := decoupled value ?_ ?_
    · rw [← joined]
      refine given.pathHolds_congr ?_
      intro item member declared
      rw [if_pos declared, valueAt member declared]
    · intro name
      by_cases declared : name ∈ declNames formMan pc
      · obtain ⟨current, member⟩ := binding declared
        obtain ⟨newval, final, byte, _, _⟩ := refined (name, current) member declared
        rw [valueAt member declared, final]
        exact byte
      · simp only [value, if_neg declared]
        decide
    · intro name declared
      obtain ⟨current, member⟩ := binding declared
      obtain ⟨newval, final, _, holds, _⟩ := refined (name, current) member declared
      rw [valueAt member declared, final]
      exact holds

end

def inX : Var := ⟨1, "in_x", .reg8⟩

def inY : Var := ⟨2, "in_y", .reg8⟩

/-- A formula manager that finds the two inputs and no temporaries. -/
def twoInputs : FormulaManager := ⟨fun _ => ([inX, inY], [])⟩

def twoBytes (x y : I64) : Table := ⟨[("in_x", x), ("in_y", y)], by simp⟩

/-- `in_x <> in_y`: the value allowed for one input depends on the other. -/
def inputsDiffer : List Exp := [.binOp .neq (.temp inX) (.temp inY)]

/-- `in_x <> 3` and `in_y <> 3`: every conjunct constrains one input. -/
def inputsAvoidThree : List Exp :=
  [.binOp .neq (.temp inX) (.const .reg8 3), .binOp .neq (.temp inY) (.const .reg8 3)]

theorem pathHolds_twoInputs (pc : List Exp) (x y : I64)
    : pathHolds twoInputs pc (twoBytes x y)
      = (evalExp (conjoin pc) (fun name => (twoBytes x y).items.lookup name)).map
          (fun res => res.1 == 1) := by
  have found : varsInPathcond twoInputs pc = ([inX, inY], []) := rfl
  have inputs
      : (twoBytes x y).items.filter
          (fun item => startsWith item.1 "in_" || startsWith item.1 "mem_byte_")
        = (twoBytes x y).items := by
    have first : startsWith "in_x" "in_" = true := by decide
    have second : startsWith "in_y" "in_" = true := by decide
    simp [twoBytes, first, second]
  have missing
      : [inX, inY].filterMap (fun v =>
          if v.name ∈ (twoBytes x y).keys then none else some (v.name, (0 : I64)))
        = [] := rfl
  rw [pathHolds, found, testSatisfiability, inputs, missing, reverse_nil,
    nil_append, ctxInit_of_unique _ (twoBytes x y).unique]
  simp [evalAssgns, map_eq_bind]

theorem pathHolds_inputsDiffer (x y : I64)
    : pathHolds twoInputs inputsDiffer (twoBytes x y)
      = some (to64 ⟨.reg8, x⟩ != to64 ⟨.reg8, y⟩) := by
  have evaluated
      : evalExp (conjoin inputsDiffer) (fun name => (twoBytes x y).items.lookup name)
        = some ((expBool (to64 ⟨.reg8, x⟩ != to64 ⟨.reg8, y⟩)).bits,
            fun name => (twoBytes x y).items.lookup name) := rfl
  rw [pathHolds_twoInputs, evaluated, map_some]
  cases to64 ⟨.reg8, x⟩ != to64 ⟨.reg8, y⟩ <;> rfl

theorem pathHolds_inputsAvoidThree (x y : I64)
    : pathHolds twoInputs inputsAvoidThree (twoBytes x y)
      = some (to64 ⟨.reg8, x⟩ != 3 && to64 ⟨.reg8, y⟩ != 3) := by
  have evaluated
      : evalExp (conjoin inputsAvoidThree) (fun name => (twoBytes x y).items.lookup name)
        = some ((toVal .reg1 (to64 (expBool (to64 ⟨.reg8, x⟩ != 3))
              &&& to64 (expBool (to64 ⟨.reg8, y⟩ != 3)))).bits,
            fun name => (twoBytes x y).items.lookup name) := rfl
  rw [pathHolds_twoInputs, evaluated, map_some]
  cases to64 ⟨.reg8, x⟩ != 3 <;> cases to64 ⟨.reg8, y⟩ != 3 <;> rfl

theorem evaluable_twoBytes {pc : List Exp} {holds : I64 → I64 → Bool}
    (evaluates : ∀ x y, pathHolds twoInputs pc (twoBytes x y) = some (holds x y))
    (change : String → I64 → I64)
    : (pathHolds twoInputs pc ((twoBytes 1 2).mapValues change)).isSome := by
  have changed : (twoBytes 1 2).mapValues change
      = twoBytes (change "in_x" 1) (change "in_y" 2) := rfl
  rw [changed, evaluates]
  rfl

theorem byteCounterexample_inputsDiffer
    : ByteCounterexample twoInputs inputsDiffer (twoBytes 1 2) :=
  ⟨by decide, by decide, by decide,
    fun change _ => evaluable_twoBytes pathHolds_inputsDiffer change, by decide⟩

theorem byteCounterexample_inputsAvoidThree
    : ByteCounterexample twoInputs inputsAvoidThree (twoBytes 1 2) :=
  ⟨by decide, by decide, by decide,
    fun change _ => evaluable_twoBytes pathHolds_inputsAvoidThree change, by decide⟩

theorem decoupled_inputsAvoidThree : Decoupled twoInputs inputsAvoidThree (twoBytes 1 2) := by
  intro value _ alone
  have first : (twoBytes 1 2).replace "in_x" (value "in_x") = twoBytes (value "in_x") 2 := rfl
  have second : (twoBytes 1 2).replace "in_y" (value "in_y") = twoBytes 1 (value "in_y") := rfl
  have both : (twoBytes 1 2).mapValues (fun name current =>
        if name ∈ declNames twoInputs inputsAvoidThree then value name else current)
      = twoBytes (value "in_x") (value "in_y") := rfl
  have xHolds := alone "in_x" (by decide)
  have yHolds := alone "in_y" (by decide)
  rw [first, pathHolds_inputsAvoidThree, Option.some.injEq, Bool.and_eq_true] at xHolds
  rw [second, pathHolds_inputsAvoidThree, Option.some.injEq, Bool.and_eq_true] at yHolds
  rw [both, pathHolds_inputsAvoidThree, xHolds.1, yHolds.2]
  rfl

/-- Each input reaches its preferred value 3 on its own, so both are omitted, and the
completed assignment violates the path condition.
-/
theorem assembleTestcase_inputsDiffer_unsound
    : ByteCounterexample twoInputs inputsDiffer (twoBytes 1 2)
      ∧ assembleTestcase twoInputs (fun _ => some 3) true inputsDiffer (twoBytes 1 2)
        = some []
      ∧ pathHolds twoInputs inputsDiffer
          (completed (fun _ => some 3) [] (twoBytes 1 2)) = some false :=
  ⟨byteCounterexample_inputsDiffer, by decide, by decide⟩

theorem assembleTestcase_inputsAvoidThree_sound
    : ByteCounterexample twoInputs inputsAvoidThree (twoBytes 1 2)
      ∧ ∀ (preferredValues : String → Option I64) (omitUnchangedVars : Bool),
          (∀ name value, preferredValues name = some value → IsByte value)
          → ∃ testcase,
              assembleTestcase twoInputs preferredValues omitUnchangedVars inputsAvoidThree
                  (twoBytes 1 2)
                = some testcase
              ∧ pathHolds twoInputs inputsAvoidThree
                  (completed preferredValues testcase (twoBytes 1 2)) = some true :=
  ⟨byteCounterexample_inputsAvoidThree,
    (assembleTestcase_sound_iff byteCounterexample_inputsAvoidThree).mpr
      decoupled_inputsAvoidThree⟩

end FastPokeEmu.EmuFuzzball
