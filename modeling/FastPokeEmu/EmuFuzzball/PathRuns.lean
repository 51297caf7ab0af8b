import FastPokeEmu.EmuFuzzball.Renaming
import FastPokeEmu.Library.Assoc

/-! Runs of path programs: alone, with renamed inputs, and one after the other.
-/

namespace FastPokeEmu.Paths

open Vine List ExprLanguage

/-- `starts_with` of `multi_path.ml`. -/
def startsWith (str pat : String) : Bool :=
  let n := min pat.toList.length str.toList.length
  str.toList.take n == pat.toList

def isInput (v : Var) : Bool := startsWith v.name "in_"

def isOutput (v : Var) : Bool := startsWith v.name "out_"

def isPathcond (v : Var) : Bool := startsWith v.name "pathcond_"

/-- Straight-line moves to temporaries, among them a path condition and some outputs. -/
structure PathProgram where
  decls : List Var
  moves : List (Var × Exp)
  pathcond : Var
  typed : ∀ s ∈ moves, s.2.typeOf = some s.1.typ := by decide +kernel
  closed : ExprLanguage.Closed Exp.free (decls.filter isInput) moves := by decide +kernel
  temporary : ∀ s ∈ moves, isInput s.1 = false ∧ ∀ b ∈ bound s.2, isInput b = false := by
    decide +kernel
  condDeclared : (decls.filter isPathcond).head? = some pathcond := by decide +kernel
  condTyp : pathcond.typ = .reg1
  condAssigned : pathcond ∈ ExprLanguage.targets moves := by decide +kernel
  outputs : ∀ o ∈ decls.filter isOutput, o.typ = .reg8 ∧ o ∈ ExprLanguage.targets moves := by
    decide +kernel
  outputNames : ((decls.filter isOutput).map (fun o => cleanupVar o.name)).Nodup := by
    decide +kernel

namespace PathProgram

variable (p : PathProgram)

def inputs : List Var := p.decls.filter isInput

def outs : List Var := p.decls.filter isOutput

def targets : List Var := ExprLanguage.targets p.moves

def stmts : List Stmt := p.moves.map toStmt

/-- Declarations and statements, as a syntax tree. -/
def source : List Var × List Stmt := (p.decls, p.stmts)

/-- Inputs have the given values, and nothing else has one. -/
def env (value : Var → Value) : Env := fun x => if x ∈ p.inputs then some (value x) else none

def run (M : Meaning) (value : Var → Value) : Option Env := (language M).run (p.env value) p.moves

/-- The path is taken. -/
def Holds (M : Meaning) (value : Var → Value) : Prop :=
  ∃ final, p.run M value = some final ∧ final p.pathcond = some (expBool true)

/-- The output that has a name. -/
def named (m : String) : Option Var := p.outs.find? (fun o => cleanupVar o.name = m)

/-- The value that the path gives to an output, zero if it does not write it. -/
def output (M : Meaning) (value : Var → Value) (m : String) : Option Value :=
  match p.named m with
  | some o => (p.run M value).bind (· o)
  | none => some ⟨.reg8, 0⟩

/-- Statements with renamed inputs. -/
def renamed (map : Renaming) : List (Var × Exp) :=
  p.moves.map (fun s => (renameVar map s.1, renameExp map s.2))

theorem stmts_map_rename (map : Renaming)
    : p.stmts.map (renameVarInStmt map) = (p.renamed map).map toStmt := by
  rw [stmts, renamed, map_map, map_map]
  rfl

end PathProgram

/-- Typed statements can be run, and yield typed values. -/
theorem run_defined (M : Meaning) {moves : List (Var × Exp)} {known : List Var} {env : Env}
    (typed : ∀ s ∈ moves, s.2.typeOf = some s.1.typ)
    (closed : ExprLanguage.Closed Exp.free known moves)
    (defined : ∀ x ∈ known, (env x).isSome = true) (typedEnv : Typed env)
    : ∃ final, (language M).run env moves = some final ∧ Typed final := by
  induction moves generalizing known env with
  | nil => exact ⟨env, rfl, typedEnv⟩
  | cons s rest ih =>
    obtain ⟨v, e⟩ := s
    obtain ⟨uses, later⟩ := closed
    have type := typed (v, e) mem_cons_self
    obtain ⟨d, value⟩ := eval_defined M type (fun x mem => defined x (uses x mem))
    have next (x : Var) (mem : x ∈ v :: known)
        : (Function.update env v (some d) x).isSome = true := by
      by_cases same : x = v
      · simp [same]
      · rw [Function.update_of_ne same]
        rcases mem_cons.mp mem with equal | inKnown
        · exact absurd equal same
        · exact defined x inKnown
    obtain ⟨final, res, typedFinal⟩ :=
      ih (fun s mem => typed s (mem_cons_of_mem _ mem)) later next
        (typedEnv.update (eval_of typedEnv type value))
    refine ⟨final, ?_, typedFinal⟩
    rw [ExprLanguage.run, show (language M).eval env e = some d from value]
    exact res

/-- Values of the types of the inputs. -/
def TypedInputs (value : Var → Value) (p : PathProgram) : Prop := ∀ x ∈ p.inputs, (value x).Of x.typ

instance (value : Var → Value) (p : PathProgram) : Decidable (TypedInputs value p) :=
  inferInstanceAs (Decidable (∀ x ∈ p.inputs, _))

theorem PathProgram.run_exists (M : Meaning) {p : PathProgram} {value : Var → Value}
    (typed : TypedInputs value p)
    : ∃ final, p.run M value = some final ∧ Typed final := by
  refine run_defined M p.typed p.closed (fun x mem => ?_) (fun x v found => ?_)
  · simp [PathProgram.env, PathProgram.inputs, mem]
  · simp only [PathProgram.env] at found
    split at found
    next mem =>
      cases found
      exact typed x mem
    · cases found

section

variable {p : PathProgram} {value value' : Var → Value} (M : Meaning)
  (same : ∀ x ∈ p.inputs, value x = value' x)

include same

theorem PathProgram.run_congr : p.run M value = p.run M value' := by
  have env : p.env value = p.env value' := by
    funext x
    rw [PathProgram.env, PathProgram.env]
    split
    next input =>
      rw [same x input]
    · rfl
  rw [PathProgram.run, PathProgram.run, env]

theorem PathProgram.holds_congr : p.Holds M value ↔ p.Holds M value' := by
  rw [PathProgram.Holds, PathProgram.Holds, PathProgram.run_congr M same]

theorem PathProgram.output_congr (m : String) : p.output M value m = p.output M value' m := by
  rw [PathProgram.output, PathProgram.output, PathProgram.run_congr M same]

end

theorem PathProgram.renamed_congr {map map' : Renaming} {p : PathProgram}
    (inputs : ∀ x ∈ p.inputs, renameVar map x = renameVar map' x)
    (others : ∀ x, isInput x = false → renameVar map x = renameVar map' x)
    : p.renamed map = p.renamed map' := by
  refine map_congr_left (fun s stmt => ?_)
  obtain ⟨target, inside⟩ := p.temporary s stmt
  refine congrArg₂ Prod.mk (others s.1 target) (renameExp_congr (fun x occurs => ?_))
  rcases occurs with isFree | isBound
  · rcases p.closed.mem stmt isFree with input | assigned
    · exact inputs x input
    · obtain ⟨s', stmt', rfl⟩ := mem_map.mp assigned
      exact others s'.1 (p.temporary s' stmt').1
  · exact others x (inside x isBound)

/-- Variables that occur in a program. -/
def PathProgram.vars (p : PathProgram) : List Var :=
  p.inputs ++ p.moves.flatMap (fun s => s.1 :: bound s.2)

def Old (progs : List PathProgram) (x : Var) : Prop := ∃ p ∈ progs, x ∈ p.vars

/-- No temporary is assigned by two programs. -/
def Distinct (progs : List PathProgram) : Prop :=
  progs.Pairwise (fun p q => ∀ x ∈ p.targets, x ∉ q.targets)

instance (progs : List PathProgram) : Decidable (Distinct progs) :=
  inferInstanceAs (Decidable (progs.Pairwise _))

def newInputs (map : Renaming) : List Var := map.map Prod.snd

def oldInputs (progs : List PathProgram) : List Var := progs.flatMap PathProgram.inputs

/-- A table that renames the inputs of the programs to new variables, and nothing else. -/
structure Unifies (map : Renaming) (progs : List PathProgram) : Prop where
  covers : ∀ x ∈ oldInputs progs, ∃ w, map.lookup x.name = some w
  named : ∀ n w, map.lookup n = some w → startsWith n "in_" = true
  fresh : ∀ w ∈ newInputs map, ¬ Old progs w

/-- Only the new inputs have values. -/
def newEnv (map : Renaming) (value : Var → Value) : Env :=
  fun x => if x ∈ newInputs map then some (value x) else none

/-- Old and new inputs have values. -/
def bothEnv (map : Renaming) (progs : List PathProgram) (value : Var → Value) : Env :=
  fun x => if x ∈ newInputs map ++ oldInputs progs then some (value x) else none

/-- Temporaries have the values that each program computes for its own. -/
def Computes (M : Meaning) (value : Var → Value) (progs : List PathProgram) (final : Env)
    : Prop :=
  ∀ p ∈ progs, ∀ own, p.run M value = some own → ∀ x ∈ p.targets, final x = own x

/-- All statements, program after program. -/
def allMoves (map : Renaming) (progs : List PathProgram) : List (Var × Exp) :=
  (progs.map (·.renamed map)).flatten

section

variable {map : Renaming} {progs : List PathProgram} {p : PathProgram}

theorem mem_newInputs {n : String} {w : Var} (found : map.lookup n = some w) : w ∈ newInputs map :=
  mem_map.mpr ⟨_, Assoc.mem_of_lookup found, rfl⟩

theorem mem_oldInputs {x : Var} : x ∈ oldInputs progs ↔ ∃ p ∈ progs, x ∈ p.inputs := mem_flatMap

theorem Old.of_input (mem : p ∈ progs) {x : Var} (input : x ∈ p.inputs) : Old progs x :=
  ⟨p, mem, mem_append_left _ input⟩

theorem Old.of_stmt (mem : p ∈ progs) {s : Var × Exp} (stmt : s ∈ p.moves) {x : Var}
    (occurs : x ∈ s.1 :: bound s.2)
    : Old progs x :=
  ⟨p, mem, mem_append_right _ (mem_flatMap.mpr ⟨s, stmt, occurs⟩)⟩

theorem Distinct.reverse (distinct : Distinct progs) : Distinct progs.reverse := by
  refine pairwise_reverse.mpr (distinct.imp ?_)
  intro p q apart x inQ inP
  exact apart x inP inQ

namespace Unifies

section

variable (unifies : Unifies map progs)

include unifies

theorem reverse : Unifies map progs.reverse where
  covers x input := by
    obtain ⟨p, mem, here⟩ := mem_oldInputs.mp input
    exact unifies.covers x (mem_oldInputs.mpr ⟨p, mem_reverse.mp mem, here⟩)
  named := unifies.named
  fresh w isNew := by
    rintro ⟨p, mem, occurs⟩
    exact unifies.fresh w isNew ⟨p, mem_reverse.mp mem, occurs⟩

theorem isFresh : Fresh (Old progs) map :=
  fun _ w found => unifies.fresh w (mem_newInputs found)

theorem absent {v : Var} (temporary : isInput v = false) : map.lookup v.name = none := by
  cases found : map.lookup v.name with
  | none => rfl
  | some w =>
    have input : isInput v = true := unifies.named _ _ found
    rw [temporary] at input
    cases input

theorem keptStmts (mem : p ∈ progs) : KeptStmts (Old progs) map p.moves := by
  intro s stmt
  obtain ⟨target, inside⟩ := p.temporary s stmt
  refine ⟨⟨Old.of_stmt mem stmt mem_cons_self, unifies.absent target⟩, ?_⟩
  intro b isBound
  exact ⟨Old.of_stmt mem stmt (mem_cons_of_mem _ isBound), unifies.absent (inside b isBound)⟩

theorem renameVar_mem {x : Var} (input : x ∈ oldInputs progs)
    : renameVar map x ∈ newInputs map := by
  obtain ⟨w, found⟩ := unifies.covers x input
  rw [renameVar, found]
  exact mem_newInputs found

theorem targets_renamed (mem : p ∈ progs) : ExprLanguage.targets (p.renamed map) = p.targets :=
  Paths.targets_renamed (unifies.keptStmts mem)

/-- An input that occurs in the programs is one of their inputs. -/
theorem mem_oldInputs_of_lookup {x w : Var} (isOld : Old progs x)
    (found : map.lookup x.name = some w)
    : x ∈ oldInputs progs := by
  obtain ⟨p, mem, occurs⟩ := isOld
  rcases mem_append.mp occurs with input | inStmt
  · exact mem_oldInputs.mpr ⟨p, mem, input⟩
  · obtain ⟨s, stmt, here⟩ := mem_flatMap.mp inStmt
    obtain ⟨target, inside⟩ := unifies.keptStmts mem s stmt
    have kept : Kept (Old progs) map x := by
      rcases mem_cons.mp here with rfl | isBound
      · exact target
      · exact inside x isBound
    rw [kept.absent] at found
    cases found

theorem closed_blocks (block : List (Var × Exp)) (mem : block ∈ progs.map (·.renamed map))
    : ExprLanguage.Closed Exp.free (newInputs map ++ oldInputs progs) block := by
  obtain ⟨p, isProg, rfl⟩ := mem_map.mp mem
  refine closed_renamed (unifies.keptStmts isProg) p.closed (fun x input => ?_)
    (fun _ _ x _ input => mem_append_right _ (mem_oldInputs.mpr ⟨p, isProg, input⟩))
  exact mem_append_left _ (unifies.renameVar_mem (mem_oldInputs.mpr ⟨p, isProg, input⟩))

theorem closed_allMoves
    : ExprLanguage.Closed Exp.free (newInputs map ++ oldInputs progs) (allMoves map progs) :=
  closed_flatten unifies.closed_blocks

theorem targets_allMoves
    : ExprLanguage.targets (allMoves map progs) = progs.flatMap PathProgram.targets := by
  rw [ExprLanguage.targets, allMoves, map_flatten, map_map, flatMap_def]
  exact congrArg List.flatten (map_congr_left (fun p mem => unifies.targets_renamed mem))

theorem target_notMem (mem : p ∈ progs) {x : Var} (assigned : x ∈ p.targets)
    : x ∉ newInputs map ++ oldInputs progs := by
  obtain ⟨s, stmt, rfl⟩ := mem_map.mp assigned
  intro known
  rcases mem_append.mp known with isNew | isInput
  · exact unifies.fresh _ isNew (Old.of_stmt mem stmt mem_cons_self)
  · obtain ⟨w, found⟩ := unifies.covers _ isInput
    rw [unifies.absent (p.temporary s stmt).1] at found
    cases found

theorem stable {value : Var → Value}
    (same : ∀ x ∈ oldInputs progs, value (renameVar map x) = value x)
    : Stable (Old progs) map (bothEnv map progs value) := by
  intro x isOld
  cases found : map.lookup x.name with
  | none =>
    rw [renameVar, found]
    rfl
  | some w =>
    have input := unifies.mem_oldInputs_of_lookup isOld found
    simp only [bothEnv, mem_append, unifies.renameVar_mem input, input, or_true, true_or,
      if_true, same x input]

/-- The merged statements compute what each program computes alone. -/
theorem run_allMoves (M : Meaning) {value : Var → Value} (distinct : Distinct progs)
    (typed : ∀ p ∈ progs, TypedInputs value p)
    (same : ∀ x ∈ oldInputs progs, value (renameVar map x) = value x)
    : ∃ final,
        (language M).run (bothEnv map progs value) (allMoves map progs) = some final
        ∧ Computes M value progs final := by
  have alone (p : PathProgram) (mem : p ∈ progs) {own : Env}
      (res : p.run M value = some own)
      : ∃ own',
          (language M).run (bothEnv map progs value) (p.renamed map) = some own'
          ∧ ∀ x ∈ p.targets, own x = own' x := by
    have agree (x : Var) (input : x ∈ p.inputs)
        : p.env value x = bothEnv map progs value x := by
      simp [PathProgram.env, bothEnv, input, mem_oldInputs.mpr ⟨p, mem, input⟩]
    obtain ⟨own', result', alike⟩ := run_of_closed p.closed agree res
    refine ⟨own', ?_, fun x assigned => alike x (Or.inr assigned)⟩
    rw [← result']
    exact run_renamed unifies.isFresh (unifies.keptStmts mem) p.closed
      (fun x input => Old.of_input mem input) (unifies.stable same)
  have blocks (block : List (Var × Exp)) (isBlock : block ∈ progs.map (·.renamed map))
      : ∃ p ∈ progs, block = p.renamed map ∧ ExprLanguage.targets block = p.targets := by
    obtain ⟨p, mem, rfl⟩ := mem_map.mp isBlock
    exact ⟨p, mem, rfl, unifies.targets_renamed mem⟩
  have disjoint
      : (progs.map (·.renamed map)).Pairwise
          (fun b c => ∀ x ∈ ExprLanguage.targets b, x ∉ ExprLanguage.targets c) := by
    rw [pairwise_map]
    refine List.Pairwise.imp_of_mem ?_ distinct
    intro p q isProg isProg' apart
    rw [unifies.targets_renamed isProg, unifies.targets_renamed isProg']
    exact apart
  have runs (block : List (Var × Exp)) (isBlock : block ∈ progs.map (·.renamed map))
      : ∃ own, (language M).run (bothEnv map progs value) block = some own := by
    obtain ⟨p, mem, rfl, _⟩ := blocks block isBlock
    obtain ⟨own, res, _⟩ := p.run_exists M (typed p mem)
    obtain ⟨own', renamed, _⟩ := alone p mem res
    exact ⟨own', renamed⟩
  have merged := run_blocks unifies.closed_blocks ?_ disjoint runs
  · obtain ⟨final, whole, parts⟩ := merged
    refine ⟨final, whole, fun p mem own res x assigned => ?_⟩
    obtain ⟨own', renamed, alike⟩ := alone p mem res
    have part := parts _ (mem_map_of_mem mem) own' renamed x
      (by rwa [unifies.targets_renamed mem])
    rw [part, alike x assigned]
  · intro block isBlock x assigned
    obtain ⟨p, mem, _, targets⟩ := blocks block isBlock
    exact unifies.target_notMem mem (targets ▸ assigned)

end

end Unifies

end

/-- The variable that stands for an input has its value, and no other variable has one. -/
def inputEnv (tab : Renaming) (value : String → Value) : Env :=
  fun x => (tab.find? (fun entry => entry.2 = x)).map (fun entry => value entry.1)

/-- Values of new inputs by a table, and of other ones as given. -/
def valueOf (tab : Renaming) (others : Var → Value) (value : String → Value) (x : Var)
    : Value :=
  (inputEnv tab value x).getD (others x)

section

variable {tab : Renaming} (others : Var → Value) (value : String → Value)

theorem inputEnv_eq_none {x : Var} (notNew : x ∉ newInputs tab) : inputEnv tab value x = none := by
  rw [inputEnv, Option.map_eq_none_iff, List.find?_eq_none]
  intro entry inTable same
  exact notNew (mem_map.mpr ⟨entry, inTable, by simpa using same⟩)

theorem valueOf_old {x : Var} (notNew : x ∉ newInputs tab)
    : valueOf tab others value x = others x := by
  rw [valueOf, inputEnv_eq_none value notNew]
  rfl

theorem valueOf_new {n : String} {w : Var} (mem : (n, w) ∈ tab)
    (unique : ∀ entry ∈ tab, entry.2 = w → entry = (n, w))
    : valueOf tab others value w = value n := by
  cases first : tab.find? (fun entry => entry.2 = w) with
  | none => exact absurd (by simp) (List.find?_eq_none.mp first _ mem)
  | some entry =>
    have same : entry.2 = w := by simpa using List.find?_some first
    rw [valueOf, inputEnv, first, unique entry (mem_of_find?_eq_some first) same]
    rfl

theorem newEnv_valueOf : newEnv tab (valueOf tab others value) = inputEnv tab value := by
  funext x
  rw [newEnv]
  split
  next isNew =>
    rw [valueOf]
    cases found : inputEnv tab value x with
    | some v => rfl
    | none =>
      obtain ⟨entry, inTable, rfl⟩ := mem_map.mp isNew
      rw [inputEnv, Option.map_eq_none_iff, List.find?_eq_none] at found
      exact absurd (by simp) (found entry inTable)
  next notNew =>
    rw [inputEnv_eq_none value notNew]

end

/-- Path conditions with the outputs that have a name, over all programs. -/
def outPairs (m : String) (progs : List PathProgram) : List (Var × Var) :=
  pairsOf m (pcOutPairs (progs.map (fun p => (p.pathcond, p.outs))))

section

variable {progs : List PathProgram} {p : PathProgram} {m : String}

theorem mem_outPairs {pair : Var × Var}
    : pair ∈ outPairs m progs
      ↔ ∃ p ∈ progs, pair.1 = p.pathcond ∧ pair.2 ∈ p.outs ∧ cleanupVar pair.2.name = m := by
  simp only [outPairs, pairsOf, pcOutPairs, mem_reverse, mem_filter,
    mem_flatMap, mem_map, decide_eq_true_eq]
  constructor
  · rintro ⟨⟨_, ⟨p, mem, rfl⟩, o, output, rfl⟩, name⟩
    exact ⟨p, mem, rfl, output, name⟩
  · rintro ⟨p, mem, cond, output, name⟩
    exact ⟨⟨_, ⟨p, mem, rfl⟩, pair.2, output, by rw [← cond]⟩, name⟩

theorem free_foldexp_outPairs {base : Exp} (closed : base.free = []) {x : Var}
    (mem : x ∈ (foldexp (outPairs m progs) base).free)
    : ∃ p ∈ progs, x ∈ p.targets := by
  rcases free_foldexp.mp mem with none | ⟨pair, inPairs, side⟩
  · rw [closed] at none
    cases none
  · obtain ⟨p, isProg, cond, output, _⟩ := mem_outPairs.mp inPairs
    rcases side with rfl | rfl
    · exact ⟨p, isProg, cond ▸ p.condAssigned⟩
    · exact ⟨p, isProg, (p.outputs pair.2 output).2⟩

theorem PathProgram.named_eq_some {o : Var}
    : p.named m = some o ↔ o ∈ p.outs ∧ cleanupVar o.name = m := by
  constructor
  · intro found
    exact ⟨mem_of_find?_eq_some found, by simpa using List.find?_some found⟩
  · rintro ⟨output, name⟩
    cases found : p.named m with
    | none => exact absurd name (by simpa using List.find?_eq_none.mp found o output)
    | some o' =>
      have output' : o' ∈ p.outs := mem_of_find?_eq_some found
      have name' : cleanupVar o'.name = m := by simpa using List.find?_some found
      exact congrArg some (inj_on_of_nodup_map p.outputNames output' output
        (name'.trans name.symm))

variable {M : Meaning} {value : Var → Value} {final : Env}

theorem Computes.mono {more : List PathProgram} (computes : Computes M value more final)
    (sub : ∀ p ∈ progs, p ∈ more)
    : Computes M value progs final :=
  fun p mem => computes p (sub p mem)

theorem Computes.pathcond_iff (computes : Computes M value progs final) (mem : p ∈ progs)
    (typed : TypedInputs value p)
    : final p.pathcond = some (expBool true) ↔ p.Holds M value := by
  obtain ⟨own, res, _⟩ := p.run_exists M typed
  have same := computes p mem own res p.pathcond p.condAssigned
  constructor
  · intro holds
    exact ⟨own, res, same ▸ holds⟩
  · rintro ⟨own', result', holds⟩
    rw [res] at result'
    cases result'
    rw [same, holds]

theorem Computes.evaluated (computes : Computes M value progs final)
    (typed : ∀ p ∈ progs, TypedInputs value p) (m : String)
    : Evaluated final (outPairs m progs) := by
  intro pair inPairs
  obtain ⟨p, mem, cond, output, _⟩ := mem_outPairs.mp inPairs
  obtain ⟨own, res, typedOwn⟩ := p.run_exists M (typed p mem)
  have same := computes p mem own res
  obtain ⟨isByte, assigned⟩ := p.outputs pair.2 output
  constructor
  · obtain ⟨c, found⟩ := run_target res p.condAssigned
    obtain ⟨b, rfl⟩ := bool_of_reg1 (p.condTyp ▸ typedOwn _ _ found)
    exact ⟨b, by rw [cond, same _ p.condAssigned, found]⟩
  · obtain ⟨o, found⟩ := run_target res assigned
    exact ⟨o, by rw [same _ assigned, found], isByte ▸ typedOwn _ _ found⟩

/-- When one path is taken, the masks select its output, or the base if it has none. -/
theorem Computes.output_eq (computes : Computes M value progs final)
    (typed : ∀ p ∈ progs, TypedInputs value p) (mem : p ∈ progs)
    (only : ∀ q ∈ progs, q.Holds M value ↔ q = p) {base : Value}
    (default : p.named m = none → base = ⟨.reg8, 0⟩)
    : p.output M value m = some (selected final (outPairs m progs) base) := by
  have taken (pair : Var × Var) (inPairs : pair ∈ outPairs m progs)
      (holds : final pair.1 = some (expBool true))
      : p.named m = some pair.2 := by
    obtain ⟨q, isProg, cond, output, name⟩ := mem_outPairs.mp inPairs
    rw [cond, computes.pathcond_iff isProg (typed q isProg), only q isProg] at holds
    subst holds
    exact PathProgram.named_eq_some.mpr ⟨output, name⟩
  rw [PathProgram.output]
  cases found : p.named m with
  | none =>
    rw [selected_base base (fun pair inPairs holds => ?_), default found]
    rw [taken pair inPairs holds] at found
    cases found
  | some o =>
    obtain ⟨output, name⟩ := PathProgram.named_eq_some.mp found
    obtain ⟨own, res, _⟩ := p.run_exists M (typed p mem)
    obtain ⟨v, value⟩ := run_target res (p.outputs o output).2
    have same := computes p mem own res o (p.outputs o output).2
    have holds := (computes.pathcond_iff mem (typed p mem)).mpr ((only p mem).mpr rfl)
    have chosen := selected_value base
      (fun pair inPairs holds => by
        have equal := taken pair inPairs holds
        rw [found] at equal
        cases equal
        rw [same, value])
      ⟨(p.pathcond, o), mem_outPairs.mpr ⟨p, mem, rfl, output, name⟩, holds⟩
    simp [res, value, chosen]

end

end FastPokeEmu.Paths
