import FastPokeEmu.EmuFuzzball.PathRuns
import FastPokeEmu.Library.Folds

/-! `diff_behavior.ml`: two programs, given as sets of paths, are merged over common inputs
into a formula that says that they differ. Inputs are the same if their names are, up to the
number at the end.
-/

namespace FastPokeEmu.Paths.DiffBehavior

open Vine List
open Option (bind_eq_bind bind_eq_some_iff bind_some)

/-- `starts_with`: `String.sub` raises if the string is shorter than the pattern. -/
def startsWithSub (str pat : String) : Option Bool :=
  let n := pat.toList.length
  if n ≤ str.toList.length then some (str.toList.take n == pat.toList) else none

def filterStarts (pat : String) : List Var → Option (List Var)
  | [] => some []
  | v :: rest => do
      let keep ← startsWithSub v.name pat
      let kept ← filterStarts pat rest
      some (if keep then v :: kept else kept)

structure InOutPc where
  inputs : List Var
  outputs : List Var
  pathcond : Var

def parse (decls : List Var) : Option InOutPc := do
  let inputs ← filterStarts "in_" decls
  let outputs ← filterStarts "out_" decls
  let pathconds ← filterStarts "pathcond_" decls
  let pathcond ← pathconds.head?
  some ⟨inputs, outputs, pathcond⟩

/-- The statements of all paths, in the order of the directory, and what each path declares. -/
def parseProgPaths (prog : List (List Var × List Stmt)) : Option (List Stmt × List InOutPc) := do
  let inOutPc ← prog.mapM (fun path => parse path.1)
  some (prog.flatMap Prod.snd, inOutPc)

/-- Tables that unify variables: new inputs by their names, new inputs by the names of old
ones, and new outputs.
-/
structure Tables where
  newInputs : Renaming
  oldToNewInputs : Renaming
  newOutputs : Renaming

section

variable (supply : Nat → Nat)

/-- Every new variable is in a table. -/
def Tables.calls (tables : Tables) : Nat := tables.newInputs.length + tables.newOutputs.length

def bindNew (calls : Nat) (nmap : Renaming) (v : Var) : Renaming :=
  let m := cleanupVar v.name
  if (nmap.lookup m).isSome then nmap else nmap ++ [(m, newvar supply calls m v.typ)]

/-- `rebind_var` for an input. A later binding of a name hides earlier ones. -/
def rebindInput (tables : Tables) (v : Var) : Tables :=
  let newInputs := bindNew supply tables.calls tables.newInputs v
  let new := (newInputs.lookup (cleanupVar v.name)).getD v
  ⟨newInputs, (v.name, new) :: tables.oldToNewInputs, tables.newOutputs⟩

def rebindOutput (tables : Tables) (v : Var) : Tables :=
  { tables with newOutputs := bindNew supply tables.calls tables.newOutputs v }

def rebindVars (tables : Tables) (path : InOutPc) : Tables :=
  path.outputs.foldl (rebindOutput supply) (path.inputs.foldl (rebindInput supply) tables)

/-- `keys`: a hash table lists names in an order that depends on how they were added. -/
def keys {β : Type} (order : List String → List String) (table : List (String × β))
    : List String :=
  order (table.map Prod.fst)

def zero : Exp := .const .reg8 0

def one : Exp := .const .reg8 1

def formulas (names : List String) (table : List (String × List (Var × Var))) (base : Exp)
    : Option (List (String × Exp)) :=
  names.mapM (fun out => do
    let pcOut ← table.lookup out
    some (out, foldexp pcOut base))

structure Merged where
  decls : List Var
  stmts : List Stmt
  formulas1 : List (String × Exp)
  formulas2 : List (String × Exp)

def mergeProgs (order : List String → List String) (prog1 prog2 : List Stmt × List InOutPc)
    : Option Merged :=
  let tables := (prog1.2 ++ prog2.2).foldl (rebindVars supply) ⟨[], [], []⟩
  let map := tables.oldToNewInputs
  let stmts := (prog1.1 ++ prog2.1).map (renameVarInStmt map)
  let paths := List.map (fun path : InOutPc => (renameVar map path.pathcond, path.outputs))
  let pcOuts1 := pcOuts (paths prog1.2)
  let pcOuts2 := pcOuts (paths prog2.2)
  if keys order pcOuts1 = keys order pcOuts2 then do
    let formulas1 ← formulas (keys order pcOuts1) pcOuts1 zero
    let formulas2 ← formulas (keys order pcOuts2) pcOuts2 one
    if keys order formulas1 = keys order formulas2 then
      some ⟨tables.newInputs.map Prod.snd, stmts, formulas1, formulas2⟩
    else none
  else none

/-- The declared inputs and the formula that are sent to the solver. Only the first output is
compared.
-/
def main (order : List String → List String) (prog1 prog2 : List (List Var × List Stmt))
    : Option (List Var × Exp) := do
  let parsed1 ← parseProgPaths prog1
  let parsed2 ← parseProgPaths prog2
  let merged ← mergeProgs supply order parsed1 parsed2
  let key1 ← (keys order merged.formulas1).head?
  let e1 ← merged.formulas1.lookup key1
  let key2 ← (keys order merged.formulas2).head?
  let e2 ← merged.formulas2.lookup key2
  let q := Exp.unOp .not (.binOp .eq e1 e2)
  let e ← merged.stmts.reverse.foldlM wrapStep q
  some (merged.decls, e)

end

theorem startsWithSub_eq {str pat : String} (long : pat.toList.length ≤ str.toList.length)
    : startsWithSub str pat = some (startsWith str pat) := by
  simp only [startsWithSub, startsWith, if_pos long, Nat.min_eq_left long]

theorem filterStarts_eq (pat : String) {decls : List Var}
    (long : ∀ v ∈ decls, pat.toList.length ≤ v.name.toList.length)
    : filterStarts pat decls = some (decls.filter (fun v => startsWith v.name pat)) := by
  induction decls with
  | nil => rfl
  | cons v rest ih =>
    have later := ih (fun v' mem => long v' (mem_cons_of_mem _ mem))
    rw [filterStarts, startsWithSub_eq (long v mem_cons_self), later, filter_cons]
    rfl

theorem long_of_filterStarts {pat : String} {decls kept : List Var}
    (res : filterStarts pat decls = some kept)
    : ∀ v ∈ decls, pat.toList.length ≤ v.name.toList.length := by
  induction decls generalizing kept with
  | nil => simp
  | cons v rest ih =>
    obtain ⟨keep, first, res⟩ := bind_eq_some_iff.mp res
    obtain ⟨others, later, _⟩ := bind_eq_some_iff.mp res
    rw [forall_mem_cons]
    refine ⟨?_, ih later⟩
    by_contra short
    simp [startsWithSub, short] at first

/-- Names are long enough for the longest pattern. -/
def LongNames (p : PathProgram) : Prop := ∀ v ∈ p.decls, 9 ≤ v.name.toList.length

instance (p : PathProgram) : Decidable (LongNames p) :=
  inferInstanceAs (Decidable (∀ v ∈ p.decls, _))

theorem parse_eq {p : PathProgram} (long : LongNames p)
    : parse p.source.1 = some ⟨p.inputs, p.outs, p.pathcond⟩ := by
  have long' {n : Nat} (short : n ≤ 9) (v : Var) (mem : v ∈ p.decls)
      : n ≤ v.name.toList.length :=
    Nat.le_trans short (long v mem)
  have inputs := filterStarts_eq "in_" (long' (by decide))
  have outputs := filterStarts_eq "out_" (long' (by decide))
  have pathconds := filterStarts_eq "pathcond_" (long' (by decide))
  have cond : (p.decls.filter (fun v => startsWith v.name "pathcond_")).head?
      = some p.pathcond := p.condDeclared
  simp only [parse, PathProgram.source, inputs, outputs, pathconds, cond, bind_eq_bind,
    bind_some]
  rfl

theorem long_of_parse {p : PathProgram} {path : InOutPc}
    (parsed : parse p.source.1 = some path)
    : LongNames p := by
  obtain ⟨_, _, parsed⟩ := bind_eq_some_iff.mp parsed
  obtain ⟨_, _, parsed⟩ := bind_eq_some_iff.mp parsed
  obtain ⟨_, pathconds, _⟩ := bind_eq_some_iff.mp parsed
  intro v mem
  exact long_of_filterStarts pathconds v mem

section

variable {supply : Nat → Nat} {inputs : List Var} {tables : Tables}

/-- The tables that inputs fill: a new variable for every name without its number. -/
structure TablesOf (supply : Nat → Nat) (inputs : List Var) (tables : Tables) : Prop where
  keys : ∀ x ∈ inputs, ∃ w,
    tables.oldToNewInputs.lookup x.name = some w ∧ (cleanupVar x.name, w) ∈ tables.newInputs
  named : ∀ entry ∈ tables.oldToNewInputs,
    (∃ x ∈ inputs, x.name = entry.1) ∧ (cleanupVar entry.1, entry.2) ∈ tables.newInputs
  made : ∀ entry ∈ tables.newInputs,
    (∃ k < tables.calls, entry.2.id = supply k)
    ∧ ∃ x ∈ inputs, cleanupVar x.name = entry.1 ∧ entry.2.typ = x.typ
  names : (tables.newInputs.map Prod.fst).Nodup
  vars : (tables.newInputs.map Prod.snd).Nodup

theorem TablesOf.nil : TablesOf supply [] ⟨[], [], []⟩ :=
  ⟨by simp, by simp, by simp, by simp, by simp⟩

theorem TablesOf.rebindOutput (filled : TablesOf supply inputs tables) (v : Var)
    : TablesOf supply inputs (rebindOutput supply tables v) := by
  refine ⟨filled.keys, filled.named, fun entry mem => ?_, filled.names, filled.vars⟩
  obtain ⟨⟨k, before, made⟩, rest⟩ := filled.made entry mem
  refine ⟨⟨k, Nat.lt_of_lt_of_le before ?_, made⟩, rest⟩
  simp only [DiffBehavior.rebindOutput, Tables.calls, bindNew]
  split
  · exact Nat.le_refl _
  · simp

theorem bindNew_cases (supply : Nat → Nat) (calls : Nat) (nmap : Renaming) (v : Var)
    : ((bindNew supply calls nmap v).lookup (cleanupVar v.name)).isSome
      ∧ (bindNew supply calls nmap v = nmap
        ∨ cleanupVar v.name ∉ nmap.map Prod.fst
          ∧ bindNew supply calls nmap v
            = nmap ++ [(cleanupVar v.name, newvar supply calls (cleanupVar v.name) v.typ)]) := by
  rw [bindNew]
  split
  next known =>
    exact ⟨known, Or.inl rfl⟩
  next unknown =>
    refine ⟨by simp [lookup_append], Or.inr ⟨?_, rfl⟩⟩
    rwa [Assoc.isSome_lookup_iff] at unknown

theorem TablesOf.rebindInput (injective : Function.Injective supply)
    (filled : TablesOf supply inputs tables) (v : Var)
    : TablesOf supply (inputs ++ [v]) (rebindInput supply tables v) := by
  obtain ⟨known, step⟩ := bindNew_cases supply tables.calls tables.newInputs v
  obtain ⟨w, found⟩ := Option.isSome_iff_exists.mp known
  have grows : ∀ entry ∈ tables.newInputs,
      entry ∈ bindNew supply tables.calls tables.newInputs v := by
    intro entry mem
    rcases step with same | ⟨_, more⟩
    · rwa [same]
    · rw [more]
      exact mem_append_left _ mem
  refine ⟨fun x mem => ?_, fun entry mem => ?_, fun entry mem => ?_, ?_, ?_⟩
  · simp only [DiffBehavior.rebindInput, found, Option.getD_some, lookup_cons]
    by_cases same : x.name = v.name
    · exact ⟨w, by simp [same], same ▸ Assoc.mem_of_lookup found⟩
    · have other : (x.name == v.name) = false := beq_eq_false_iff_ne.mpr same
      rcases mem_append.mp mem with before | last
      · obtain ⟨w', found', inTable⟩ := filled.keys x before
        exact ⟨w', by rw [other]; exact found', grows _ inTable⟩
      · exact absurd (congrArg Var.name (mem_singleton.mp last)) same
  · rw [DiffBehavior.rebindInput, found] at mem
    rcases mem_cons.mp mem with rfl | before
    · exact ⟨⟨v, mem_append_right _ mem_cons_self, rfl⟩, Assoc.mem_of_lookup found⟩
    · obtain ⟨⟨x, input, name⟩, inTable⟩ := filled.named entry before
      exact ⟨⟨x, mem_append_left _ input, name⟩, grows _ inTable⟩
  · have count : (DiffBehavior.rebindInput supply tables v).calls
        = (bindNew supply tables.calls tables.newInputs v).length + tables.newOutputs.length :=
      rfl
    have isEntry : entry ∈ bindNew supply tables.calls tables.newInputs v := mem
    rcases step with same | ⟨_, more⟩
    · rw [same] at isEntry count
      obtain ⟨id, x, input, rest⟩ := filled.made entry isEntry
      exact ⟨count ▸ id, x, mem_append_left _ input, rest⟩
    · rw [more, length_append, length_singleton] at count
      rw [more] at isEntry
      have next : (DiffBehavior.rebindInput supply tables v).calls = tables.calls + 1 := by
        rw [count, Tables.calls]
        omega
      rw [next]
      rcases mem_append.mp isEntry with before | last
      · obtain ⟨⟨k, bound, id⟩, x, input, rest⟩ := filled.made entry before
        exact ⟨⟨k, Nat.lt_succ_of_lt bound, id⟩, x, mem_append_left _ input, rest⟩
      · rw [mem_singleton.mp last]
        exact ⟨⟨tables.calls, Nat.lt_succ_self _, rfl⟩, v,
          mem_append_right _ mem_cons_self, rfl, rfl⟩
  · rcases step with same | ⟨isNew, more⟩
    · simpa only [DiffBehavior.rebindInput, same] using filled.names
    · simp only [DiffBehavior.rebindInput, more, map_append, map_singleton]
      exact nodup_append_comm.mp (nodup_cons.mpr ⟨isNew, filled.names⟩)
  · rcases step with same | ⟨_, more⟩
    · simpa only [DiffBehavior.rebindInput, same] using filled.vars
    · simp only [DiffBehavior.rebindInput, more, map_append, map_singleton]
      refine nodup_append_comm.mp (nodup_cons.mpr ⟨fun mem => ?_, filled.vars⟩)
      obtain ⟨entry, inTable, same⟩ := mem_map.mp mem
      obtain ⟨⟨k, bound, id⟩, _⟩ := filled.made entry inTable
      rw [same] at id
      exact absurd (injective id) (Nat.ne_of_gt bound)

theorem TablesOf.rebindVars (injective : Function.Injective supply)
    (filled : TablesOf supply inputs tables) (path : InOutPc)
    : TablesOf supply (inputs ++ path.inputs) (rebindVars supply tables path) := by
  have onInputs : ∀ (more inputs : List Var) (tables : Tables),
      TablesOf supply inputs tables
      → TablesOf supply (inputs ++ more) (more.foldl (DiffBehavior.rebindInput supply) tables) := by
    intro more
    induction more with
    | nil =>
      intro inputs tables filled
      rwa [append_nil]
    | cons v more ih =>
      intro inputs tables filled
      have later := ih _ _ (filled.rebindInput injective v)
      rwa [append_assoc] at later
  have onOutputs : ∀ (outputs : List Var) (tables : Tables),
      TablesOf supply (inputs ++ path.inputs) tables
      → TablesOf supply (inputs ++ path.inputs)
          (outputs.foldl (DiffBehavior.rebindOutput supply) tables) := by
    intro outputs
    induction outputs with
    | nil => exact fun tables filled => filled
    | cons v outputs ih => exact fun tables filled => ih _ (filled.rebindOutput v)
  exact onOutputs _ _ (onInputs _ _ _ filled)

theorem TablesOf.foldl (injective : Function.Injective supply)
    (filled : TablesOf supply inputs tables) (paths : List InOutPc)
    : TablesOf supply (inputs ++ paths.flatMap InOutPc.inputs)
        (paths.foldl (DiffBehavior.rebindVars supply) tables) := by
  induction paths generalizing inputs tables with
  | nil => simpa using filled
  | cons path paths ih =>
    have later := ih (filled.rebindVars injective path)
    rwa [append_assoc] at later

variable {progs : List PathProgram}

theorem TablesOf.unifies (filled : TablesOf supply (oldInputs progs) tables)
    (fresh : ∀ p ∈ progs, ∀ x ∈ p.vars, ∀ k, x.id ≠ supply k)
    : Unifies tables.oldToNewInputs progs where
  covers x input := by
    obtain ⟨w, found, _⟩ := filled.keys x input
    exact ⟨w, found⟩
  named n w found := by
    obtain ⟨⟨x, input, rfl⟩, _⟩ := filled.named _ (Assoc.mem_of_lookup found)
    obtain ⟨p, _, here⟩ := mem_oldInputs.mp input
    exact (mem_filter.mp here).2
  fresh w isNew := by
    rintro ⟨p, mem, occurs⟩
    obtain ⟨entry, inTable, rfl⟩ := mem_map.mp isNew
    obtain ⟨⟨k, _, id⟩, _⟩ := filled.made _ (filled.named entry inTable).2
    exact fresh p mem _ occurs k id

theorem TablesOf.mem_decls (filled : TablesOf supply inputs tables) (w : Var)
    : w ∈ newInputs tables.oldToNewInputs ↔ w ∈ newInputs tables.newInputs := by
  constructor
  · intro isNew
    obtain ⟨entry, inTable, rfl⟩ := mem_map.mp isNew
    exact mem_map.mpr ⟨_, (filled.named entry inTable).2, rfl⟩
  · intro declared
    obtain ⟨entry, inTable, rfl⟩ := mem_map.mp declared
    obtain ⟨_, x, input, name, _⟩ := filled.made entry inTable
    obtain ⟨w, found, inTable'⟩ := filled.keys x input
    have same := inj_on_of_nodup_map filled.names inTable' inTable name
    rw [← same]
    exact mem_newInputs found

end

/-- The names of the outputs, in the order in which they are declared first. -/
def outNames (progs : List PathProgram) : List String :=
  ((progs.flatMap PathProgram.outs).map (fun o => cleanupVar o.name)).eraseDups

/-- The output that is compared. -/
def compared (order : List String → List String) (progs : List PathProgram) : Option String :=
  (order (order (outNames progs))).head?

/-- The formula, before statements are wrapped around it. -/
def question (m : String) (progs1 progs2 : List PathProgram) : Exp :=
  .unOp .not
    (.binOp .eq (foldexp (outPairs m progs1) zero) (foldexp (outPairs m progs2) one))

theorem eraseDups_concat (l : List String) (x : String)
    : (l ++ [x]).eraseDups = if x ∈ l then l.eraseDups else l.eraseDups ++ [x] := by
  rw [eraseDups_append]
  split
  next known =>
    simp [List.removeAll, known]
  next unknown =>
    simp [List.removeAll, unknown, eraseDups_cons]

theorem pairsOf_ne_nil {m : String} {pairs : List (Var × Var)}
    : pairsOf m pairs ≠ [] ↔ m ∈ pairs.map (fun pair => cleanupVar pair.2.name) := by
  simp [pairsOf, filter_eq_nil_iff]

theorem map_fst_fillMap (pairs : List (Var × Var))
    : (pairs.foldl fillMap []).map Prod.fst
      = (pairs.map (fun pair => cleanupVar pair.2.name)).eraseDups := by
  induction pairs using reverseRecOn with
  | nil => rfl
  | append_singleton pairs pair ih =>
    have known := lookup_foldl_fillMap pairs (cleanupVar pair.2.name)
    rw [foldl_append, foldl_cons, foldl_nil, fillMap, known, map_append,
      map_singleton, eraseDups_concat]
    by_cases isNew : pairsOf (cleanupVar pair.2.name) pairs = []
    · have unknown := fun mem => pairsOf_ne_nil.mpr mem isNew
      rw [if_pos isNew, if_neg (by simp), if_neg unknown, map_append, ih]
      rfl
    · rw [if_neg isNew, if_pos (by simp), if_pos (pairsOf_ne_nil.mp isNew), ← ih, map_map]
      refine map_congr_left (fun entry _ => ?_)
      simp only [Function.comp_apply]
      split
      next same =>
        exact same.symm
      · rfl

theorem map_outs (progs : List PathProgram)
    : (pcOutPairs (progs.map (fun p => (p.pathcond, p.outs)))).map
        (fun pair => cleanupVar pair.2.name)
      = (progs.flatMap PathProgram.outs).map (fun o => cleanupVar o.name) := by
  induction progs with
  | nil => rfl
  | cons p progs ih =>
    simp only [pcOutPairs, map_cons, flatMap_cons, map_append] at ih ⊢
    rw [ih, map_map]
    rfl

theorem mem_outNames {m : String} {progs : List PathProgram}
    : m ∈ outNames progs ↔ outPairs m progs ≠ [] := by
  rw [outNames, mem_eraseDups, outPairs, pairsOf_ne_nil, map_outs]

section

variable {order : List String → List String} {progs : List PathProgram}

theorem keys_pcOuts (progs : List PathProgram)
    : keys order (pcOuts (progs.map (fun p => (p.pathcond, p.outs)))) = order (outNames progs) := by
  rw [keys, pcOuts, map_fst_fillMap, map_outs, outNames]

theorem formulas_eq (progs : List PathProgram) {names : List String}
    (known : ∀ m ∈ names, m ∈ outNames progs)
    (base : Exp)
    : formulas names (pcOuts (progs.map (fun p => (p.pathcond, p.outs)))) base
      = some (names.map (fun m => (m, foldexp (outPairs m progs) base))) := by
  refine Folds.mapM_eq_some_map (fun m mem => ?_)
  have entry
      : (pcOuts (progs.map (fun p => (p.pathcond, p.outs)))).lookup m = some (outPairs m progs) :=
    (lookup_foldl_fillMap _ m).trans (if_neg (mem_outNames.mp (known m mem)))
  rw [entry]
  rfl

theorem keys_map_self {β : Type} {names : List String} (f : String → β)
    : keys order (names.map (fun m => (m, f m))) = order names := by
  rw [keys, map_map]
  exact congrArg order (map_id _)

theorem lookup_map_self {β : Type} {names : List String} {m : String} (mem : m ∈ names)
    (f : String → β)
    : (names.map (fun m => (m, f m))).lookup m = some (f m) := by
  induction names with
  | nil => cases mem
  | cons name names ih =>
    rw [map_cons, lookup_cons]
    by_cases same : m = name
    · simp [same]
    · have other : (m == name) = false := beq_eq_false_iff_ne.mpr same
      rw [other]
      exact ih ((mem_cons.mp mem).resolve_left same)

/-- What a path declares. -/
def declared (p : PathProgram) : InOutPc := ⟨p.inputs, p.outs, p.pathcond⟩

theorem parseProgPaths_eq (long : ∀ p ∈ progs, LongNames p)
    : parseProgPaths (progs.map PathProgram.source)
      = some (progs.flatMap PathProgram.stmts, progs.map declared) := by
  have parsed : (progs.map PathProgram.source).mapM (fun path => parse path.1)
      = some (progs.map declared) := by
    rw [mapM_map]
    exact Folds.mapM_eq_some_map (fun p mem => parse_eq (long p mem))
  rw [parseProgPaths, parsed, flatMap_map]
  rfl

theorem long_of_parseProgPaths {parsed : List Stmt × List InOutPc}
    (res : parseProgPaths (progs.map PathProgram.source) = some parsed)
    : ∀ p ∈ progs, LongNames p := by
  obtain ⟨paths, mapped, _⟩ := bind_eq_some_iff.mp res
  intro p mem
  obtain ⟨path, here⟩ := Folds.exists_mapM.mp ⟨paths, mapped⟩ p.source (mem_map_of_mem mem)
  exact long_of_parse here

variable {supply : Nat → Nat} {progs1 progs2 : List PathProgram}

/-- The tables for two programs. -/
def tablesFor (supply : Nat → Nat) (progs : List PathProgram) : Tables :=
  (progs.map declared).foldl (rebindVars supply) ⟨[], [], []⟩

theorem tablesFor_of (injective : Function.Injective supply) (progs : List PathProgram)
    : TablesOf supply (oldInputs progs) (tablesFor supply progs) := by
  have filled := TablesOf.nil.foldl injective (progs.map declared)
  rw [nil_append, flatMap_map] at filled
  exact filled

/-- The formula that is sent for two programs whose names are long enough. -/
def sent (supply : Nat → Nat) (m : String) (progs1 progs2 : List PathProgram)
    : List Var × Exp :=
  let tables := tablesFor supply (progs1 ++ progs2)
  (newInputs tables.newInputs,
    wrapAround (allMoves tables.oldToNewInputs (progs1 ++ progs2)) (question m progs1 progs2))

theorem foldl_declared (supply : Nat → Nat) (progs1 progs2 : List PathProgram)
    : (progs1.map declared ++ progs2.map declared).foldl (rebindVars supply) ⟨[], [], []⟩
      = tablesFor supply (progs1 ++ progs2) := by
  rw [tablesFor, map_append]

theorem stmts_renamed (map : Renaming) (progs : List PathProgram)
    : (progs.flatMap PathProgram.stmts).map (renameVarInStmt map)
      = (allMoves map progs).map toStmt := by
  rw [allMoves, map_flatMap, map_flatten, map_map, flatMap_def]
  exact congrArg List.flatten (map_congr_left (fun p _ => p.stmts_map_rename map))

theorem paths_renamed {map : Renaming} (unifies : Unifies map (progs1 ++ progs2))
    (sub : ∀ p ∈ progs, p ∈ progs1 ++ progs2)
    : (progs.map declared).map (fun path => (renameVar map path.pathcond, path.outputs))
      = progs.map (fun p => (p.pathcond, p.outs)) := by
  rw [map_map]
  refine map_congr_left (fun p mem => ?_)
  obtain ⟨s, stmt, same⟩ := mem_map.mp p.condAssigned
  have kept := (unifies.keptStmts (sub p mem) s stmt).1
  rw [same] at kept
  exact congrArg (·, p.outs) kept.renameVar

variable (perm : ∀ names, (order names).Perm names)
  (unifies : Unifies (tablesFor supply (progs1 ++ progs2)).oldToNewInputs (progs1 ++ progs2))

include perm unifies

theorem mergeProgs_eq (same : order (outNames progs1) = order (outNames progs2))
    : mergeProgs supply order (progs1.flatMap PathProgram.stmts, progs1.map declared)
        (progs2.flatMap PathProgram.stmts, progs2.map declared)
      = some ⟨newInputs (tablesFor supply (progs1 ++ progs2)).newInputs,
          (allMoves (tablesFor supply (progs1 ++ progs2)).oldToNewInputs
            (progs1 ++ progs2)).map toStmt,
          (order (outNames progs1)).map (fun m => (m, foldexp (outPairs m progs1) zero)),
          (order (outNames progs2)).map (fun m => (m, foldexp (outPairs m progs2) one))⟩ := by
  have known (m : String) (mem : m ∈ order (outNames progs2)) : m ∈ outNames progs1 :=
    (perm _).mem_iff.mp (same ▸ mem)
  have first := formulas_eq progs1 known zero
  have second := formulas_eq progs2 (fun m => (perm _).mem_iff.mp) one
  simp only [mergeProgs, foldl_declared, ← flatMap_append, stmts_renamed,
    paths_renamed unifies (fun p => mem_append_left progs2),
    paths_renamed unifies (fun p => mem_append_right progs1), keys_pcOuts, same, if_true,
    first, second, bind_eq_bind, bind_some, keys_map_self]
  rfl

theorem main_eq (long : ∀ p ∈ progs1 ++ progs2, LongNames p)
    (same : order (outNames progs1) = order (outNames progs2))
    : main supply order (progs1.map PathProgram.source) (progs2.map PathProgram.source)
      = (compared order progs1).map (fun m => sent supply m progs1 progs2) := by
  have parsed1 := parseProgPaths_eq (fun p mem => long p (mem_append_left _ mem))
  have parsed2 := parseProgPaths_eq (fun p mem => long p (mem_append_right _ mem))
  simp only [main, parsed1, parsed2, mergeProgs_eq perm unifies same, bind_eq_bind,
    bind_some, keys_map_self, ← same, compared]
  cases first : (order (order (outNames progs1))).head? with
  | none => rfl
  | some m =>
    have mem : m ∈ order (outNames progs1) := (perm _).mem_iff.mp (mem_of_head? first)
    simp only [bind_some, lookup_map_self mem, foldlM_wrapStep, Option.map_some]
    rfl

omit perm in
/-- Both hash tables list the names of the outputs in the same order. -/
theorem same_of_main (long : ∀ p ∈ progs1 ++ progs2, LongNames p) {res : List Var × Exp}
    (made : main supply order (progs1.map PathProgram.source) (progs2.map PathProgram.source)
      = some res)
    : order (outNames progs1) = order (outNames progs2) := by
  have parsed1 := parseProgPaths_eq (fun p mem => long p (mem_append_left _ mem))
  have parsed2 := parseProgPaths_eq (fun p mem => long p (mem_append_right _ mem))
  simp only [main, parsed1, parsed2, bind_eq_bind, bind_some] at made
  obtain ⟨merged, res, _⟩ := bind_eq_some_iff.mp made
  simp only [mergeProgs, foldl_declared, paths_renamed unifies (fun p => mem_append_left progs2),
    paths_renamed unifies (fun p => mem_append_right progs1), keys_pcOuts] at res
  split at res
  next same =>
    exact same
  · cases res

end

end FastPokeEmu.Paths.DiffBehavior
