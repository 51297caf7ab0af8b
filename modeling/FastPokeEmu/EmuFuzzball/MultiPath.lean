import FastPokeEmu.EmuFuzzball.PathRuns
import FastPokeEmu.Library.Folds

/-! `multi_path.ml`: programs of single paths are merged into one expression for each output.
Outputs are selected by the path conditions, and the statements that a backward scan finds
needed are wrapped around the selection.
-/

namespace FastPokeEmu.Paths.MultiPath

open Vine List

structure Parsed where
  invars : List Var
  outvars : List Var
  pc : Var
  stmts : List Stmt
  deriving DecidableEq

section

variable (supply : Nat → Nat)

/-- `rename_var` of `parse_prog`: the first occurrence of a name makes the variable. Only
inputs have been made when programs are parsed.
-/
def bindInput (tab : Renaming) (v : Var) : Renaming :=
  if (tab.lookup v.name).isSome then tab
  else tab ++ [(v.name, newvar supply tab.length (cleanupVar v.name) v.typ)]

/-- The table of inputs is shared by all programs. No path condition raises. -/
def parseProg (tab : Renaming) (prog : List Var × List Stmt) : Option (Renaming × Parsed) := do
  let invars := prog.1.filter isInput
  let tab := invars.foldl (bindInput supply) tab
  let outvars := prog.1.filter isOutput
  let pc ← (prog.1.filter isPathcond).head?
  some (tab, ⟨invars.map (renameVar tab), outvars, pc, prog.2.map (renameVarInStmt tab)⟩)

def parseProgs : Renaming → List (List Var × List Stmt) → Option (Renaming × List Parsed)
  | tab, [] => some (tab, [])
  | tab, prog :: rest => do
      let (tab, parsed) ← parseProg supply tab prog
      let (tab, others) ← parseProgs tab rest
      some (tab, parsed :: others)

/-- `fill_map`: the first output of a name also makes the variable that is emitted for it. -/
def fillMaps (calls : Nat) (maps : List (String × List (Var × Var)) × Renaming)
    (pair : Var × Var)
    : List (String × List (Var × Var)) × Renaming :=
  let m := cleanupVar pair.2.name
  ( fillMap maps.1 pair,
    if (maps.1.lookup m).isSome then maps.2
    else maps.2 ++ [(m, newvar supply (calls + maps.2.length) m pair.2.typ)])

def zero : Exp := .const .reg8 0

def mergePaths (calls : Nat) (progs : List Parsed) : Option (List (Var × Exp)) :=
  let pairs := pcOutPairs (progs.map (fun prog => (prog.pc, prog.outvars)))
  let (pcOuts, varOuts) := pairs.foldl (fillMaps supply calls) ([], [])
  pcOuts.mapM (fun entry => do
    let var ← varOuts.lookup entry.1
    some (var, foldexp entry.2 zero))

end

/-- `use_exp`. Conditional expressions use nothing. -/
def useExp : Exp → List Var
  | .binOp _ e1 e2 => useExp e1 ++ useExp e2
  | .unOp _ e1 => useExp e1
  | .cast _ _ e1 => useExp e1
  | .temp v => [v]
  | .mem _ addr _ => useExp addr
  | .letTemp v e1 e2 => v :: (useExp e1 ++ useExp e2)
  | .const _ _ | .ite _ _ _ | .unsupported => []

/-- The test of `slice`, with the used variables and the statements that are kept. -/
def sliceStep (state : List Var × List Stmt) : Stmt → Option (List Var × List Stmt)
  | .move v e =>
    if v ∈ state.1 then some ((useExp e ++ state.1).eraseDups, .move v e :: state.2)
    else some state
  | .unsupported => none

def slice (stmts : List Stmt) (exp : Exp) : Option (List Stmt) :=
  (stmts.reverse.foldlM sliceStep ((useExp exp).eraseDups, [])).map Prod.snd

def augmentPaths (outputs : List (Var × Exp)) (stmts : List Stmt)
    : Option (List (Var × Exp)) :=
  outputs.mapM (fun output => do
    let kept ← slice stmts output.2
    let e ← kept.reverse.foldlM wrapStep output.2
    some (output.1, e))

/-- The table of inputs, the declared inputs and the emitted assignments. -/
structure Merged where
  inputVariables : Renaming
  invars : List Var
  outputs : List (Var × Exp)
  deriving DecidableEq

def main (supply : Nat → Nat) (progs : List (List Var × List Stmt)) : Option Merged := do
  let (tab, progs) ← parseProgs supply [] progs
  let invars := progs.foldl (fun a prog => prog.invars ++ a) []
  let stmts := progs.foldl (fun a prog => prog.stmts ++ a) []
  let outputs ← mergePaths supply tab.length progs
  let outputs ← augmentPaths outputs stmts
  some ⟨tab, invars, outputs⟩

/-- The scan keeps the statements of the slice, and has seen the live variables. -/
theorem foldlM_sliceStep (moves : List (Var × Exp)) (goal : List Var)
    : ∃ vars,
        (moves.map toStmt).reverse.foldlM sliceStep (goal, [])
          = some (vars, (ExprLanguage.slice useExp goal moves).map toStmt)
        ∧ ∀ x, x ∈ vars ↔ x ∈ ExprLanguage.live useExp goal moves := by
  induction moves with
  | nil => exact ⟨goal, rfl, fun x => Iff.rfl⟩
  | cons s moves ih =>
    obtain ⟨v, e⟩ := s
    obtain ⟨vars, scanned, seen⟩ := ih
    rw [map_cons, reverse_cons, foldlM_append, scanned]
    by_cases needed : v ∈ ExprLanguage.live useExp goal moves
    · refine ⟨(useExp e ++ vars).eraseDups, ?_, fun x => ?_⟩
      · simp [toStmt, sliceStep, ExprLanguage.slice, seen, needed]
      · simp [ExprLanguage.live, seen, needed]
    · refine ⟨vars, ?_, fun x => ?_⟩
      · simp [toStmt, sliceStep, ExprLanguage.slice, seen, needed]
      · simp [ExprLanguage.live, seen, needed]

section

variable {supply : Nat → Nat} {tab : Renaming}

/-- The table that the inputs fill: a new variable for every name. -/
structure TableOf (supply : Nat → Nat) (inputs : List Var) (tab : Renaming) : Prop where
  keys : ∀ n, (tab.lookup n).isSome ↔ ∃ x ∈ inputs, x.name = n
  ids : ∀ (k : Nat) (entry : String × Var), tab[k]? = some entry → entry.2.id = supply k
  once : (tab.map Prod.fst).Nodup

theorem TableOf.nil : TableOf supply [] [] := ⟨by simp, by simp, by simp⟩

theorem TableOf.bindInput {inputs : List Var} (table : TableOf supply inputs tab) (v : Var)
    : TableOf supply (inputs ++ [v]) (bindInput supply tab v) := by
  rw [MultiPath.bindInput]
  split
  next bound =>
    refine ⟨fun n => ?_, table.ids, table.once⟩
    rw [table.keys]
    constructor
    · rintro ⟨x, mem, name⟩
      exact ⟨x, mem_append_left _ mem, name⟩
    · rintro ⟨x, mem, name⟩
      rcases mem_append.mp mem with before | last
      · exact ⟨x, before, name⟩
      · obtain ⟨y, mem', name'⟩ := (table.keys v.name).mp bound
        exact ⟨y, mem', by rw [name', ← name, mem_singleton.mp last]⟩
  next unbound =>
    refine ⟨fun n => ?_, fun k entry found => ?_, ?_⟩
    · rw [lookup_append, Option.isSome_or, Bool.or_eq_true, table.keys]
      simp only [mem_append, mem_singleton, or_and_right, exists_or, exists_eq_left,
        lookup_cons, lookup_nil]
      by_cases same : n = v.name
      · simp [same]
      · have other : (n == v.name) = false := beq_eq_false_iff_ne.mpr same
        simp [other, Ne.symm same]
    · rcases Nat.lt_trichotomy k tab.length with before | rfl | after
      · rw [List.getElem?_append_left before] at found
        exact table.ids k entry found
      · simp only [List.getElem?_append_right (Nat.le_refl _), Nat.sub_self,
          List.getElem?_cons_zero, Option.some.injEq] at found
        rw [← found]
        rfl
      · rw [List.getElem?_eq_none (by simp; omega)] at found
        cases found
    · rw [Assoc.isSome_lookup_iff] at unbound
      rw [map_append, nodup_append]
      refine ⟨table.once, by simp, ?_⟩
      rintro n inTable _ last rfl
      have name : n = v.name := by simpa using last
      exact unbound (name ▸ inTable)

theorem TableOf.foldl {inputs : List Var} (table : TableOf supply inputs tab)
    (more : List Var)
    : TableOf supply (inputs ++ more) (more.foldl (MultiPath.bindInput supply) tab) := by
  induction more generalizing inputs tab with
  | nil => rwa [append_nil]
  | cons v more ih =>
    have later := ih (table.bindInput v)
    rwa [append_assoc] at later

theorem lookup_foldl_bindInput {n : String} {w : Var} (found : tab.lookup n = some w)
    (more : List Var)
    : (more.foldl (bindInput supply) tab).lookup n = some w := by
  induction more generalizing tab with
  | nil => exact found
  | cons v more ih =>
    refine ih ?_
    rw [bindInput]
    split
    · exact found
    · rw [lookup_append, found]
      rfl

theorem TableOf.unique {inputs : List Var} (table : TableOf supply inputs tab)
    (injective : Function.Injective supply) {entry entry' : String × Var}
    (mem : entry ∈ tab) (mem' : entry' ∈ tab) (same : entry.2 = entry'.2)
    : entry = entry' := by
  obtain ⟨k, found⟩ := mem_iff_getElem?.mp mem
  obtain ⟨k', found'⟩ := mem_iff_getElem?.mp mem'
  have equal : k = k' := by
    apply injective
    rw [← table.ids k entry found, ← table.ids k' entry' found', same]
  rw [equal, found'] at found
  cases found
  rfl

theorem TableOf.absent {inputs : List Var} (table : TableOf supply inputs tab)
    (areInputs : ∀ x ∈ inputs, isInput x = true) {v : Var} (temporary : isInput v = false)
    : tab.lookup v.name = none := by
  rw [← Option.not_isSome_iff_eq_none, table.keys]
  rintro ⟨x, mem, name⟩
  have input := areInputs x mem
  rw [isInput, name] at input
  rw [isInput, input] at temporary
  cases temporary

variable {progs : List PathProgram}

theorem isInput_of_mem {p : PathProgram} {x : Var} (input : x ∈ p.inputs) : isInput x = true :=
  (mem_filter.mp input).2

theorem isInput_of_mem_old {x : Var} (input : x ∈ oldInputs progs) : isInput x = true := by
  obtain ⟨p, _, here⟩ := mem_oldInputs.mp input
  exact isInput_of_mem here

theorem TableOf.unifies (table : TableOf supply (oldInputs progs) tab)
    (fresh : ∀ p ∈ progs, ∀ x ∈ p.vars, ∀ k, x.id ≠ supply k)
    : Unifies tab progs where
  covers x input := Option.isSome_iff_exists.mp ((table.keys x.name).mpr ⟨x, input, rfl⟩)
  named n w found := by
    obtain ⟨x, input, rfl⟩ := (table.keys n).mp (found ▸ rfl)
    exact isInput_of_mem_old input
  fresh w isNew := by
    rintro ⟨p, mem, occurs⟩
    obtain ⟨entry, inTable, rfl⟩ := mem_map.mp isNew
    obtain ⟨k, found⟩ := mem_iff_getElem?.mp inTable
    exact fresh p mem _ occurs k (table.ids k entry found)

/-- A program after parsing, with the final table of inputs. -/
def parsedAs (tab : Renaming) (p : PathProgram) : Parsed :=
  ⟨p.inputs.map (renameVar tab), p.outs, p.pathcond, (p.renamed tab).map toStmt⟩

theorem parseProg_source (tab : Renaming) (p : PathProgram)
    : parseProg supply tab p.source
      = some (p.inputs.foldl (bindInput supply) tab,
          parsedAs (p.inputs.foldl (bindInput supply) tab) p) := by
  have cond : (p.source.1.filter isPathcond).head? = some p.pathcond := p.condDeclared
  rw [parseProg, cond]
  simp only [PathProgram.source, p.stmts_map_rename]
  rfl

/-- Programs that are parsed later do not change how earlier ones are renamed. -/
theorem parsedAs_eq {tab' : Renaming} {inputs inputs' : List Var} {p : PathProgram}
    (table : TableOf supply inputs tab) (table' : TableOf supply inputs' tab')
    (areInputs : ∀ x ∈ inputs, isInput x = true) (areInputs' : ∀ x ∈ inputs', isInput x = true)
    (persist : ∀ n w, tab.lookup n = some w → tab'.lookup n = some w)
    (known : ∀ x ∈ p.inputs, x ∈ inputs)
    : parsedAs tab p = parsedAs tab' p := by
  have onInputs (x : Var) (input : x ∈ p.inputs) : renameVar tab x = renameVar tab' x := by
    obtain ⟨w, found⟩ := Option.isSome_iff_exists.mp
      ((table.keys x.name).mpr ⟨x, known x input, rfl⟩)
    rw [renameVar, renameVar, found, persist _ _ found]
  have onOthers (x : Var) (temporary : isInput x = false)
      : renameVar tab x = renameVar tab' x := by
    rw [renameVar, renameVar, table.absent areInputs temporary, table'.absent areInputs' temporary]
  rw [parsedAs, parsedAs, PathProgram.renamed_congr onInputs onOthers, map_congr_left onInputs]

theorem parseProgs_source {inputs : List Var} (table : TableOf supply inputs tab)
    (areInputs : ∀ x ∈ inputs, isInput x = true) (progs : List PathProgram)
    : ∃ final,
        parseProgs supply tab (progs.map PathProgram.source)
          = some (final, progs.map (parsedAs final))
        ∧ TableOf supply (inputs ++ oldInputs progs) final
        ∧ ∀ n w, tab.lookup n = some w → final.lookup n = some w := by
  induction progs generalizing tab inputs with
  | nil =>
    refine ⟨tab, rfl, ?_, fun n w found => found⟩
    simpa [oldInputs] using table
  | cons p rest ih =>
    have next := table.foldl p.inputs
    have areNext (x : Var) (mem : x ∈ inputs ++ p.inputs) : isInput x = true := by
      rcases mem_append.mp mem with before | here
      · exact areInputs x before
      · exact isInput_of_mem here
    obtain ⟨final, others, whole, persist⟩ := ih next areNext
    have areAll (x : Var) (mem : x ∈ inputs ++ p.inputs ++ oldInputs rest)
        : isInput x = true := by
      rcases mem_append.mp mem with before | later
      · exact areNext x before
      · exact isInput_of_mem_old later
    have first := parsedAs_eq next whole areNext areAll persist
      (fun x input => mem_append_right _ input)
    refine ⟨final, ?_, ?_, fun n w found => persist n w (lookup_foldl_bindInput found _)⟩
    · rw [map_cons, parseProgs, parseProg_source]
      simp only [Option.bind_eq_bind, Option.bind_some, others, first, map_cons]
    · rwa [append_assoc] at whole

theorem lookup_append_self {key n : String} {typ : Typ} {k : Nat} {w : Var}
    (named : ∀ n w, tab.lookup n = some w → w.name = n)
    (found : (tab ++ [(key, newvar supply k key typ)]).lookup n = some w)
    : w.name = n := by
  rw [lookup_append] at found
  cases before : tab.lookup n with
  | some w' =>
    rw [before] at found
    cases found
    exact named n w before
  | none =>
    rw [before, Option.none_or, lookup_cons] at found
    split at found
    next same =>
      cases found
      exact (beq_iff_eq.mp same).symm
    · cases found

/-- Both tables of `merge_paths` have the names of the outputs. -/
theorem foldl_fillMaps (supply : Nat → Nat) (calls : Nat) (pairs : List (Var × Var))
    : (pairs.foldl (fillMaps supply calls) ([], [])).1 = pairs.foldl fillMap []
      ∧ (∀ m w, (pairs.foldl (fillMaps supply calls) ([], [])).2.lookup m = some w → w.name = m)
      ∧ ∀ m, pairsOf m pairs ≠ []
          → ((pairs.foldl (fillMaps supply calls) ([], [])).2.lookup m).isSome := by
  induction pairs using reverseRecOn with
  | nil => simp [pairsOf]
  | append_singleton pairs pair ih =>
    obtain ⟨same, named, present⟩ := ih
    simp only [foldl_append, foldl_cons, foldl_nil, fillMaps, same,
      lookup_foldl_fillMap, pairsOf_append, true_and]
    by_cases isNew : pairsOf (cleanupVar pair.2.name) pairs = []
    · simp only [isNew, if_true, Option.isSome_none, Bool.false_eq_true, if_false]
      refine ⟨fun m w found => lookup_append_self named found, fun m some => ?_⟩
      by_cases name : cleanupVar pair.2.name = m
      · simp [name, lookup_append]
      · rw [if_neg name] at some
        simp [lookup_append, present m some]
    · simp only [isNew, if_false, Option.isSome_some, if_true]
      refine ⟨named, fun m some => present m ?_⟩
      by_cases name : cleanupVar pair.2.name = m
      · exact name ▸ isNew
      · rwa [if_neg name] at some

/-- The selections that are emitted, one for each name of an output. -/
theorem mergePaths_eq (supply : Nat → Nat) (calls : Nat) (tab : Renaming) (progs : List PathProgram)
    : ∃ outputs,
        mergePaths supply calls (progs.map (parsedAs tab)) = some outputs
        ∧ (∀ o e, (o, e) ∈ outputs → e = foldexp (outPairs o.name progs) zero)
        ∧ ∀ m, outPairs m progs ≠ [] → ∃ o e, (o, e) ∈ outputs ∧ o.name = m := by
  have same
      : (progs.map (parsedAs tab)).map (fun prog => (prog.pc, prog.outvars))
        = progs.map (fun p => (p.pathcond, p.outs)) := by
    rw [map_map]
    rfl
  rw [mergePaths, same]
  simp only [outPairs]
  generalize pcOutPairs (progs.map (fun p => (p.pathcond, p.outs))) = pairs
  obtain ⟨first, named, present⟩ := foldl_fillMaps supply calls pairs
  revert first named present
  generalize pairs.foldl (fillMaps supply calls) ([], []) = maps
  intro first named present
  have each (m : String) (v : List (Var × Var)) (mem : (m, v) ∈ maps.1)
      : ∃ w, maps.2.lookup m = some w ∧ w.name = m ∧ v = pairsOf m pairs := by
    rw [first] at mem
    obtain ⟨some, entry⟩ := mem_foldl_fillMap.mp mem
    obtain ⟨w, found⟩ := Option.isSome_iff_exists.mp (present m some)
    exact ⟨w, found, named m w found, entry⟩
  have exist := Folds.exists_mapM.mpr (fun (entry : String × List (Var × Var)) mem => by
    obtain ⟨w, found, _, _⟩ := each entry.1 entry.2 mem
    exact ⟨(w, foldexp entry.2 zero), show (maps.2.lookup entry.1).bind _ = _ by rw [found]; rfl⟩)
  obtain ⟨outputs, made⟩ := exist
  refine ⟨outputs, made, fun o e inside => ?_, fun m some => ?_⟩
  · obtain ⟨entry, mem, emitted⟩ := (Folds.mem_of_mapM made).mp inside
    obtain ⟨w, found, name, pairs⟩ := each entry.1 entry.2 mem
    rw [found] at emitted
    cases emitted
    rw [name, pairs]
  · have mem : (m, pairsOf m pairs) ∈ maps.1 := first ▸ mem_foldl_fillMap.mpr ⟨some, rfl⟩
    obtain ⟨w, found, name, _⟩ := each m _ mem
    refine ⟨w, foldexp (pairsOf m pairs) zero, ?_, name⟩
    refine (Folds.mem_of_mapM made).mpr ⟨_, mem, ?_⟩
    rw [found]
    rfl

end

def wrapSlice (moves : List (Var × Exp)) (e : Exp) : Exp :=
  wrapAround (ExprLanguage.slice useExp (useExp e).eraseDups moves) e

def selection (m : String) (progs : List PathProgram) : Exp := foldexp (outPairs m progs) zero

def emitted (tab : Renaming) (progs : List PathProgram) (m : String) : Exp :=
  wrapSlice (allMoves tab progs.reverse) (selection m progs)

section

variable {supply : Nat → Nat} {progs : List PathProgram}

theorem foldl_append_front {α β : Type} (f : α → List β) (l : List α)
    : l.foldl (fun a x => f x ++ a) [] = (l.reverse.map f).flatten := by
  induction l using reverseRecOn with
  | nil => rfl
  | append_singleton l x ih => simp [ih]

theorem foldlM_slice (moves : List (Var × Exp)) (e : Exp)
    : ((slice (moves.map toStmt) e).bind fun kept => kept.reverse.foldlM wrapStep e)
      = some (wrapSlice moves e) := by
  obtain ⟨vars, scanned, _⟩ := foldlM_sliceStep moves (useExp e).eraseDups
  rw [slice, scanned]
  exact foldlM_wrapStep _ e

theorem augmentPaths_eq (outputs : List (Var × Exp)) (moves : List (Var × Exp))
    : augmentPaths outputs (moves.map toStmt)
      = some (outputs.map (fun output => (output.1, wrapSlice moves output.2))) := by
  refine Folds.mapM_eq_some_map (fun output _ => ?_)
  obtain ⟨kept, sliced, wrapped⟩ := Option.bind_eq_some_iff.mp (foldlM_slice moves output.2)
  simp only [Option.bind_eq_bind, sliced, Option.bind_some, wrapped]

theorem allMoves_reverse (tab : Renaming) (progs : List PathProgram)
    : (progs.map (parsedAs tab)).foldl (fun a prog => prog.stmts ++ a) []
      = (allMoves tab progs.reverse).map toStmt := by
  rw [foldl_append_front, allMoves, map_flatten, ← map_reverse, map_map, map_map]
  rfl

/-- The declared inputs are the variables of the table. -/
theorem TableOf.mem_invars {tab : Renaming} (table : TableOf supply (oldInputs progs) tab)
    (w : Var)
    : w ∈ (progs.map (parsedAs tab)).foldl (fun a prog => prog.invars ++ a) []
      ↔ w ∈ newInputs tab := by
  rw [foldl_append_front, mem_flatten]
  constructor
  · rintro ⟨_, isInvars, mem⟩
    obtain ⟨_, isParsed, rfl⟩ := mem_map.mp isInvars
    obtain ⟨p, isProg, rfl⟩ := mem_map.mp (mem_reverse.mp isParsed)
    obtain ⟨x, input, rfl⟩ := mem_map.mp mem
    obtain ⟨w, found⟩ := Option.isSome_iff_exists.mp
      ((table.keys x.name).mpr ⟨x, mem_oldInputs.mpr ⟨p, isProg, input⟩, rfl⟩)
    rw [renameVar, found]
    exact mem_newInputs found
  · intro isNew
    obtain ⟨entry, inTable, rfl⟩ := mem_map.mp isNew
    have found := (Assoc.lookup_eq_some_iff_mem table.once).mpr inTable
    obtain ⟨x, isOld, name⟩ := (table.keys entry.1).mp (found ▸ rfl)
    obtain ⟨p, isProg, input⟩ := mem_oldInputs.mp isOld
    refine ⟨p.inputs.map (renameVar tab), ?_, mem_map.mpr ⟨x, input, ?_⟩⟩
    · exact mem_map.mpr ⟨parsedAs tab p, mem_reverse.mpr (mem_map_of_mem isProg), rfl⟩
    · rw [renameVar, name, found]
      rfl

theorem main_eq (supply : Nat → Nat) (progs : List PathProgram)
    : ∃ merged,
        main supply (progs.map PathProgram.source) = some merged
        ∧ TableOf supply (oldInputs progs) merged.inputVariables
        ∧ (∀ w, w ∈ merged.invars ↔ w ∈ newInputs merged.inputVariables)
        ∧ (∀ o e, (o, e) ∈ merged.outputs → e = emitted merged.inputVariables progs o.name)
        ∧ ∀ m, outPairs m progs ≠ [] → ∃ o e, (o, e) ∈ merged.outputs ∧ o.name = m := by
  have empty : TableOf supply [] [] := TableOf.nil
  obtain ⟨tab, parsed, table, _⟩ := parseProgs_source empty (fun x none => by cases none) progs
  obtain ⟨outputs, merged, selections, present⟩ := mergePaths_eq supply tab.length tab progs
  refine ⟨⟨tab, _, outputs.map (fun output =>
      (output.1, wrapSlice (allMoves tab progs.reverse) output.2))⟩, ?_, table,
    table.mem_invars, ?_, ?_⟩
  · simp only [main, parsed, Option.bind_eq_bind, Option.bind_some, merged, allMoves_reverse,
      augmentPaths_eq]
  · intro o e mem
    obtain ⟨output, inside, same⟩ := mem_map.mp mem
    cases same
    rw [emitted, selection, ← selections output.1 output.2 inside]
  · intro m some
    obtain ⟨o, e, mem, name⟩ := present m some
    exact ⟨o, _, mem_map.mpr ⟨(o, e), mem, rfl⟩, name⟩

end

end FastPokeEmu.Paths.MultiPath
