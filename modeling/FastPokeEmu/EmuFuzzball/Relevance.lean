import FastPokeEmu.EmuFuzzball.Interpreter
import FastPokeEmu.Library.Assoc

/-! Relevance analysis of a solver's counterexample (`emu_fuzzball.ml`).
Each input variable is moved towards a preferred value, one bit at a time, for as long as
the path condition stays satisfied. Hash tables are association lists without repeated
keys; `none` is an exception or a failed assertion.
-/

namespace FastPokeEmu.EmuFuzzball

open FastPokeEmu.Vine List
open FastPokeEmu.Interpreter

/-- A hash table built by `hash`, which asserts that no key occurs twice. -/
structure Table where
  items : List (String × I64)
  unique : (items.map Prod.fst).Nodup

def Table.keys (ctx : Table) : List String := ctx.items.map Prod.fst

/-- Change the values of a table, keeping its keys. -/
def Table.mapValues (ctx : Table) (change : String → I64 → I64) : Table where
  items := ctx.items.map (fun item => (item.1, change item.1 item.2))
  unique := by
    rw [map_map]
    exact ctx.unique

def Table.find? (ctx : Table) (name : String) : Option I64 := ctx.items.lookup name

/-- `Hashtbl.replace`: overwrite the binding, or add one when there is none. -/
def Table.replace (ctx : Table) (name : String) (value : I64) : Table :=
  if absent : name ∈ ctx.keys then
    ctx.mapValues (fun key old => if key = name then value else old)
  else
    ⟨(name, value) :: ctx.items, nodup_cons.mpr ⟨absent, ctx.unique⟩⟩

/-- What the analysis needs of FuzzBALL's formula manager: the declared variables and the
temporaries that `collect_for_solving [] pc exp_true` finds in a path condition.
-/
structure FormulaManager where
  collectForSolving : List Exp → List Var × List (Var × Exp)

/-- Input variables and temporaries of a path condition; variables introduced by lets have
names that start with a `t`.
-/
def varsInPathcond (formMan : FormulaManager) (pc : List Exp)
    : List Var × List (Var × Exp) :=
  let (decls, temps) := formMan.collectForSolving pc
  (decls.filter (fun v => !startsWith v.name "t"), temps)

/-- Evaluate the path condition in a context. Declared variables that the context misses
are set to zero; names that are not inputs are dropped.
-/
def testSatisfiability (decls : List Var) (temps : List (Var × Exp)) (pc : List Exp)
    (ctx : Table)
    : Option Bool := do
  let inputs := ctx.items.filter
    (fun item => startsWith item.1 "in_" || startsWith item.1 "mem_byte_")
  let missing := decls.filterMap
    (fun v => if v.name ∈ ctx.keys then none else some (v.name, (0 : I64)))
  let ctx ← ctxInit (missing.reverse ++ inputs)
  let ctx ← evalAssgns temps ctx
  let (value, _) ← evalExp (conjoin pc) ctx
  some (value == 1)

/-- Once the inputs are in the context, a path condition is evaluated alike in agreeing
contexts.
-/
theorem conjoin_agree {exact : Prop} {scope : String → Prop} {left right : Ctx}
    {temps : List (Var × Exp)} {pc : List Exp}
    (wholeTemps : ∀ assgn ∈ temps, exact ∨ NoDivision assgn.2)
    (whole : exact ∨ NoDivision (conjoin pc))
    (covers : ∀ name ∈ assgnNames temps ++ names (conjoin pc), scope name)
    (agree : Agree exact scope left right)
    : let test := fun ctx => do
        let ctx ← evalAssgns temps ctx
        let (value, _) ← evalExp (conjoin pc) ctx
        some (value == 1)
      Option.Rel (Same exact) (test left) (test right) := by
  refine Folds.rel_bind (evalAssgns_agree temps wholeTemps
    (fun name mem => covers name (mem_append_left _ mem)) agree) ?_
  intro left right agree
  refine Folds.rel_bind (evalExp_agree (conjoin pc) whole
    (fun name mem => covers name (mem_append_right _ mem)) agree) ?_
  intro r s evaluated
  exact .some (fun holds => by rw [evaluated.1 holds])

/-- `Int64.of_int (1 lsl i)`. -/
def bitMask (i : Nat) : I64 := BitVec.ofNat 64 (1 <<< i)

/-- One turn of the bit loop: try the preferred value's bit and put the old one back when
the path condition fails. `test` evaluates the path condition with the new value.
-/
def refineBit (test : I64 → Option Bool) (diff current : I64) (i : Nat) : Option I64 :=
  let m := bitMask i
  if m &&& diff = 0 then some current
  else do
    let flipped := current ^^^ m
    let feasible ← test flipped
    some (if feasible then flipped else flipped ^^^ m)

/-- Refine the value of one variable by moving it towards its preferred value. -/
def computePreferredValue (decls : List Var) (temps : List (Var × Exp)) (pc : List Exp)
    (ctx : Table) (var : String) (curval prefval : I64)
    : Option I64 := do
  let test := fun value => testSatisfiability decls temps pc (ctx.replace var value)
  let diff := curval ^^^ prefval
  -- the two sanity checks of the source
  let satisfied ← testSatisfiability decls temps pc ctx
  guard satisfied
  guard (ctx.find? var = some curval)
  let immediately ← test prefval
  if immediately then some prefval
  else (List.range 8).foldlM (refineBit test diff) curval

/-- What one binding of the counterexample contributes to the test case. Every variable is
refined in a fresh copy of the original context.
-/
def testcaseEntry (decls : List Var) (temps : List (Var × Exp)) (pc : List Exp)
    (preferredValues : String → Option I64) (omitUnchangedVars : Bool) (ctx : Table)
    (item : String × I64)
    : Option (Option (String × I64)) :=
  if item.1 ∈ decls.map Var.name then
    match preferredValues item.1 with
    | some prefval => do
        let newval ← computePreferredValue decls temps pc ctx item.1 item.2 prefval
        if newval = prefval ∧ omitUnchangedVars = true then some none
        else some (some (item.1, newval))
    | none => some (some item)
  else some none

/-- Build the test case for a path condition from a counterexample. -/
def assembleTestcase (formMan : FormulaManager) (preferredValues : String → Option I64)
    (omitUnchangedVars : Bool) (pc : List Exp) (ctx : Table)
    : Option (List (String × I64)) :=
  let (decls, temps) := varsInPathcond formMan pc
  ctx.items.foldlM
    (fun tcs item => do
      let entry ← testcaseEntry decls temps pc preferredValues omitUnchangedVars ctx item
      some (entry.toList ++ tcs))
    []

/-- The state a test case describes: its own values, and preferred values elsewhere. -/
def completed (preferredValues : String → Option I64) (testcase : List (String × I64))
    (ctx : Table)
    : Table :=
  ctx.mapValues (fun name current =>
    (testcase.lookup name).getD ((preferredValues name).getD current))

@[simp] theorem Table.keys_mapValues (ctx : Table) (change : String → I64 → I64)
    : (ctx.mapValues change).keys = ctx.keys := by
  simp only [Table.keys, Table.mapValues, map_map]
  rfl

theorem Table.replace_eq_mapValues (ctx : Table) {name : String} (value : I64)
    (bound : name ∈ ctx.keys)
    : ctx.replace name value
      = ctx.mapValues (fun key old => if key = name then value else old) := by
  simp [Table.replace, bound]

theorem Table.mapValues_congr (ctx : Table) {change other : String → I64 → I64}
    (same : ∀ item ∈ ctx.items, change item.1 item.2 = other item.1 item.2)
    : ctx.mapValues change = ctx.mapValues other := by
  simp only [Table.mapValues, Table.mk.injEq]
  exact map_congr_left (fun item mem => by rw [same item mem])

theorem Table.mapValues_self (ctx : Table) : ctx.mapValues (fun _ value => value) = ctx := by
  cases ctx
  simp [Table.mapValues]

/-- Installing the value that a variable already has changes nothing. -/
theorem Table.replace_self {ctx : Table} {name : String} {value : I64}
    (found : ctx.find? name = some value)
    : ctx.replace name value = ctx := by
  have mem := (Assoc.lookup_eq_some_iff_mem ctx.unique).mp found
  have bound : name ∈ ctx.keys := mem_map.mpr ⟨_, mem, rfl⟩
  rw [Table.replace_eq_mapValues ctx value bound]
  conv => rhs; rw [← ctx.mapValues_self]
  apply ctx.mapValues_congr
  intro item inside
  by_cases same : item.1 = name
  · have here := (Assoc.lookup_eq_some_iff_mem ctx.unique).mpr inside
    rw [same] at here
    rw [if_pos same]
    exact Option.some.inj (found.symm.trans here)
  · rw [if_neg same]

/-- Initialising the interpreter from bindings with unique keys succeeds with their lookup
function, by list induction over the context built so far.
-/
theorem ctxInit_of_unique (items : List (String × I64))
    (unique : (items.map Prod.fst).Nodup)
    : ctxInit items = some (fun name => items.lookup name) := by
  have build (rest : List (String × I64)) (ctx : Ctx)
      (unique : (rest.map Prod.fst).Nodup)
      (fresh : ∀ item ∈ rest, ctx item.1 = none)
      : rest.foldlM (fun ctx binding => ctxSet ctx binding.1 binding.2) ctx
        = some (fun name => (rest.lookup name).or (ctx name)) := by
    induction rest generalizing ctx with
    | nil => simp
    | cons item rest ih =>
      obtain ⟨key, value⟩ := item
      simp only [map_cons, nodup_cons] at unique
      have new : ctx key = none := fresh (key, value) (by simp)
      have defined : ctxSet ctx key value
          = some (fun name => if name = key then some value else ctx name) := by
        simp [ctxSet, new]
      rw [foldlM_cons, defined, Option.bind_eq_bind, Option.bind_some, ih _ unique.2 ?_]
      · congr 1
        funext name
        by_cases same : name = key
        · subst key
          have absent : rest.lookup name = none := by
            rw [lookup_eq_none_iff]
            intro item mem
            have ne : name ≠ item.1 := fun same =>
              unique.1 (mem_map.mpr ⟨item, mem, same.symm⟩)
            simpa using ne
          simp [absent]
        · have other : (name == key) = false := by simpa using same
          simp [lookup_cons, other, same]
      · intro item mem
        have ne : item.1 ≠ key := fun same =>
          unique.1 (mem_map.mpr ⟨item, mem, same⟩)
        simpa [ne] using fresh item (by simp [mem])
  simpa [ctxInit] using build items (fun _ => none) unique (by simp)

end FastPokeEmu.EmuFuzzball
