import FastPokeEmu.EmuFuzzball.DiffBehavior

/-! When the formula of `diff_behavior.ml` is satisfiable.

It compares one output, and it has undeclared variables if an input stands inside a
conditional expression. Otherwise it is satisfiable if some input makes the programs differ
on the output that is compared.
-/

namespace FastPokeEmu.Paths.DiffBehavior

open Vine List Option

variable {m : String} {p q : PathProgram}

/-- A formula over declared variables has a typed assignment that makes it true. -/
def Satisfiable (M : Meaning) (query : List Var × Exp) : Prop :=
  ∃ value : Var → Value,
    (∀ x ∈ query.1, (value x).Of x.typ)
    ∧ eval M (fun x => if x ∈ query.1 then some (value x) else none) query.2
      = some (expBool true)

/-- Inputs are the same up to the number at the end of their names. -/
def byInput (value : String → Value) (x : Var) : Value := value (cleanupVar x.name)

def TypedBy (progs : List PathProgram) (value : String → Value) : Prop :=
  ∀ p ∈ progs, TypedInputs (byInput value) p

instance (progs : List PathProgram) (value : String → Value)
    : Decidable (TypedBy progs value) :=
  inferInstanceAs (Decidable (∀ p ∈ progs, _))

/-- One path of the program is taken, and no other one. -/
def Takes (M : Meaning) (value : Var → Value) (progs : List PathProgram) (p : PathProgram)
    : Prop :=
  p ∈ progs ∧ ∀ q ∈ progs, q.Holds M value ↔ q = p

/-- Programs over the same inputs, with exclusive and exhaustive path conditions, whose paths
all write the same outputs.
-/
structure Comparable (M : Meaning) (progs1 progs2 : List PathProgram) : Prop where
  types : ∀ x ∈ oldInputs (progs1 ++ progs2), ∀ y ∈ oldInputs (progs1 ++ progs2),
    cleanupVar x.name = cleanupVar y.name → x.typ = y.typ
  paths1 : ∀ value, TypedBy (progs1 ++ progs2) value → ∃ p, Takes M (byInput value) progs1 p
  paths2 : ∀ value, TypedBy (progs1 ++ progs2) value → ∃ p, Takes M (byInput value) progs2 p
  outputs : ∀ p ∈ progs1 ++ progs2, ∀ q ∈ progs1 ++ progs2, ∀ m,
    (p.named m).isSome → (q.named m).isSome

/-- Some input makes the programs compute different values for an output. -/
def DifferOn (M : Meaning) (progs1 progs2 : List PathProgram) (m : String) : Prop :=
  ∃ value,
    TypedBy (progs1 ++ progs2) value
    ∧ ∃ p q,
        Takes M (byInput value) progs1 p
        ∧ Takes M (byInput value) progs2 q
        ∧ p.output M (byInput value) m ≠ q.output M (byInput value) m

/-- No input stands inside a conditional expression. -/
def InputsVisible (progs : List PathProgram) : Prop :=
  ∀ p ∈ progs, ∀ s ∈ p.moves, ∀ x ∈ inIte s.2, isInput x = false

instance (progs : List PathProgram) : Decidable (InputsVisible progs) :=
  inferInstanceAs (Decidable (∀ p ∈ progs, _))

section

variable {map : Renaming} {progs : List PathProgram}

theorem closed_newInputs (unifies : Unifies map progs) (visible : InputsVisible progs)
    : ExprLanguage.Closed Exp.free (newInputs map) (allMoves map progs) := by
  refine ExprLanguage.closed_flatten (fun block mem => ?_)
  obtain ⟨p, isProg, rfl⟩ := mem_map.mp mem
  refine closed_renamed (unifies.keptStmts isProg) p.closed (fun x input => ?_)
    (fun s stmt x inside input => ?_)
  · exact unifies.renameVar_mem (mem_oldInputs.mpr ⟨p, isProg, input⟩)
  · have temporary := visible p isProg s stmt x inside
    rw [(mem_filter.mp input).2] at temporary
    cases temporary

/-- An input inside a conditional expression is left free. -/
theorem exists_free_of_hidden (unifies : Unifies map progs) (hidden : ¬ InputsVisible progs)
    (e : Exp)
    : ∃ x ∈ (wrapAround (allMoves map progs) e).free, x ∉ newInputs map := by
  simp only [InputsVisible] at hidden
  push Not at hidden
  obtain ⟨p, isProg, s, stmt, x, inside, input⟩ := hidden
  have notTarget (y : Var) (assigned : y ∈ progs.flatMap PathProgram.targets)
      : isInput y = false := by
    obtain ⟨q, _, here⟩ := mem_flatMap.mp assigned
    obtain ⟨s', stmt', rfl⟩ := mem_map.mp here
    exact (q.temporary s' stmt').1
  have isOld : Old progs x := by
    rcases p.closed.mem stmt (free_of_inIte _ x inside) with known | assigned
    · exact Old.of_input isProg known
    · exact absurd (notTarget x (mem_flatMap.mpr ⟨p, isProg, assigned⟩)) input
  refine ⟨x, ?_, fun isNew => unifies.fresh x isNew isOld⟩
  have renamed : (renameVar map s.1, renameExp map s.2) ∈ allMoves map progs :=
    mem_flatten.mpr ⟨_, mem_map_of_mem isProg, mem_map_of_mem stmt⟩
  refine ExprLanguage.mem_free_wrap (L := language ⟨fun _ _ _ => 0⟩) renamed ?_ ?_ e
  · refine free_of_inIte _ x ?_
    rwa [inIte_renameExp (unifies.keptStmts isProg s stmt).2]
  · rw [unifies.targets_allMoves]
    exact fun assigned => absurd (notTarget x assigned) input

end

section

variable {M : Meaning} {supply : Nat → Nat} {progs1 progs2 : List PathProgram}
  {tables : Tables}

theorem free_question {x : Var} (mem : x ∈ (question m progs1 progs2).free)
    : ∃ p ∈ progs1 ++ progs2, x ∈ p.targets := by
  rcases mem_append.mp mem with left | right
  · obtain ⟨p, isProg, assigned⟩ := free_foldexp_outPairs rfl left
    exact ⟨p, mem_append_left _ isProg, assigned⟩
  · obtain ⟨p, isProg, assigned⟩ := free_foldexp_outPairs rfl right
    exact ⟨p, mem_append_right _ isProg, assigned⟩

/-- Bytes differ if their encodings do. -/
theorem eval_question {env : Env} {v w : Value}
    (left : eval M env (foldexp (outPairs m progs1) zero) = some v)
    (right : eval M env (foldexp (outPairs m progs2) one) = some w) (isByte : v.Of .reg8)
    (isByte' : w.Of .reg8)
    : eval M env (question m progs1 progs2) = some (expBool (decide (v ≠ w))) := by
  have equal : to64 v = to64 w ↔ v = w := by
    rw [isByte.bits, isByte'.bits]
    constructor
    · intro same
      obtain ⟨t, x⟩ := v
      obtain ⟨t', y⟩ := w
      cases isByte.ty
      cases isByte'.ty
      exact congrArg _ same
    · exact congrArg Value.bits
  have compare : M.binOp .eq v w = expBool (to64 v == to64 w) := rfl
  simp only [question, eval, left, right, bind_eq_bind, bind_some,
    map_some, compare, Option.some.injEq]
  by_cases same : v = w
  · rw [beq_iff_eq.mpr (equal.mpr same)]
    simp only [same, ne_eq, not_true_eq_false, decide_false]
    decide
  · rw [beq_eq_false_iff_ne.mpr (fun bits => same (equal.mp bits))]
    simp only [same, ne_eq, not_false_eq_true, decide_true]
    decide

/-- The formula under an assignment to the inputs says whether the paths that are taken give
the output different values.
-/
theorem eval_sent (filled : TablesOf supply (oldInputs (progs1 ++ progs2)) tables)
    (unifies : Unifies tables.oldToNewInputs (progs1 ++ progs2))
    (distinct : Distinct (progs1 ++ progs2)) (visible : InputsVisible (progs1 ++ progs2))
    {value : String → Value} (typed : TypedBy (progs1 ++ progs2) value)
    (takes1 : Takes M (byInput value) progs1 p) (takes2 : Takes M (byInput value) progs2 q)
    (writes1 : (p.named m).isSome) (writes2 : (q.named m).isSome)
    : eval M (inputEnv tables.newInputs value)
        (wrapAround (allMoves tables.oldToNewInputs (progs1 ++ progs2)) (question m progs1 progs2))
      = some (expBool (decide (p.output M (byInput value) m ≠ q.output M (byInput value) m))) := by
  -- values of old and new inputs
  let all := valueOf tables.newInputs (byInput value) value
  have onOld (r : PathProgram) (isProg : r ∈ progs1 ++ progs2) (x : Var)
      (input : x ∈ r.inputs)
      : all x = byInput value x :=
    valueOf_old _ value (fun declared =>
      unifies.fresh x ((filled.mem_decls x).mpr declared) (Old.of_input isProg input))
  have onNew (x : Var) (input : x ∈ oldInputs (progs1 ++ progs2))
      : all (renameVar tables.oldToNewInputs x) = all x := by
    obtain ⟨w, found, inTable⟩ := filled.keys x input
    obtain ⟨r, isProg, here⟩ := mem_oldInputs.mp input
    rw [onOld r isProg x here, renameVar, found]
    exact valueOf_new _ value inTable (fun entry mem same =>
      inj_on_of_nodup_map filled.vars mem inTable same)
  have typedAll (r : PathProgram) (isProg : r ∈ progs1 ++ progs2) : TypedInputs all r := by
    intro x input
    rw [onOld r isProg x input]
    exact typed r isProg x input
  have env : newEnv tables.oldToNewInputs all = inputEnv tables.newInputs value := by
    rw [← newEnv_valueOf (byInput value) value]
    funext x
    simp only [newEnv, filled.mem_decls, all]
  obtain ⟨final, whole, computes⟩ := unifies.run_allMoves M distinct typedAll onNew
  have agree (x : Var) (isNew : x ∈ newInputs tables.oldToNewInputs)
      : bothEnv tables.oldToNewInputs (progs1 ++ progs2) all x
        = newEnv tables.oldToNewInputs all x := by
    simp [bothEnv, newEnv, isNew]
  obtain ⟨final', res, alike⟩ := ExprLanguage.run_of_closed (L := language M)
    (closed_newInputs unifies visible) agree whole
  -- what the masks of one program select is what its path computes
  have output {progs : List PathProgram} (sub : ∀ r ∈ progs, r ∈ progs1 ++ progs2)
      {r : PathProgram} (takes : Takes M (byInput value) progs r)
      (writes : (r.named m).isSome) (base : Value)
      : r.output M (byInput value) m = some (selected final (outPairs m progs) base) := by
    have only (r' : PathProgram) (mem : r' ∈ progs) : r'.Holds M all ↔ r' = r := by
      rw [← takes.2 r' mem, PathProgram.holds_congr M (onOld r' (sub r' mem))]
    rw [← PathProgram.output_congr M (onOld r (sub r takes.1)) m]
    refine (computes.mono sub).output_eq (fun r' mem => typedAll r' (sub r' mem))
      takes.1 only (fun none => ?_)
    rw [none] at writes
    cases writes
  have evaluated {progs : List PathProgram} (sub : ∀ r ∈ progs, r ∈ progs1 ++ progs2)
      : Evaluated final (outPairs m progs) :=
    (computes.mono sub).evaluated (fun r mem => typedAll r (sub r mem)) m
  have left (r : PathProgram) : r ∈ progs1 → r ∈ progs1 ++ progs2 := mem_append_left _
  have right (r : PathProgram) : r ∈ progs2 → r ∈ progs1 ++ progs2 := mem_append_right _
  have start1 : eval M final zero = some (toVal .reg8 0) := rfl
  have start2 : eval M final one = some (toVal .reg8 1) := rfl
  obtain ⟨value1, isByte1⟩ := eval_foldexp (evaluated left) start1 (toVal_of .reg8 0)
  obtain ⟨value2, isByte2⟩ := eval_foldexp (evaluated right) start2 (toVal_of .reg8 1)
  calc eval M (inputEnv tables.newInputs value) _
      = ((language M).run (newEnv tables.oldToNewInputs all) _).bind
          (eval M · (question m progs1 progs2)) := by
        rw [← env]
        exact ExprLanguage.eval_wrap (L := language M) (question m progs1 progs2)
    _ = eval M final' (question m progs1 progs2) := by rw [res, bind_some]
    _ = eval M final (question m progs1 progs2) := by
        refine eval_congr M _ _ _ (fun x mem => (alike x (Or.inr ?_)).symm)
        obtain ⟨r, isProg, assigned⟩ := free_question mem
        rw [unifies.targets_allMoves]
        exact mem_flatMap.mpr ⟨r, isProg, assigned⟩
    _ = _ := by
        rw [eval_question value1 value2 isByte1 isByte2, output left takes1 writes1 (toVal .reg8 0),
          output right takes2 writes2 (toVal .reg8 1)]
        simp only [ne_eq, Option.some.injEq]

/-- Assignments to the declared variables are assignments to the inputs. -/
theorem satisfiable_iff {progs : List PathProgram}
    (filled : TablesOf supply (oldInputs progs) tables)
    (types : ∀ x ∈ oldInputs progs, ∀ y ∈ oldInputs progs,
      cleanupVar x.name = cleanupVar y.name → x.typ = y.typ) (e : Exp)
    : Satisfiable M (newInputs tables.newInputs, e)
      ↔ ∃ value, TypedBy progs value
          ∧ eval M (inputEnv tables.newInputs value) e = some (expBool true) := by
  have unique {n : String} {w : Var} (inTable : (n, w) ∈ tables.newInputs)
      (entry : String × Var) (mem : entry ∈ tables.newInputs) (same : entry.2 = w)
      : entry = (n, w) :=
    inj_on_of_nodup_map filled.vars mem inTable same
  constructor
  · rintro ⟨value, typed, holds⟩
    let named (m : String) : Value := ((tables.newInputs.lookup m).map value).getD ⟨.reg8, 0⟩
    have atEntry {n : String} {w : Var} (inTable : (n, w) ∈ tables.newInputs)
        : named n = value w := by
      simp only [named, (Assoc.lookup_eq_some_iff_mem filled.names).mpr inTable, map_some,
        getD_some]
    have env : newEnv tables.newInputs value = inputEnv tables.newInputs named := by
      rw [← newEnv_valueOf value named]
      funext x
      rw [newEnv, newEnv]
      split
      next isNew =>
        obtain ⟨entry, inTable, rfl⟩ := mem_map.mp isNew
        rw [valueOf_new value named inTable (unique inTable), atEntry inTable]
      · rfl
    refine ⟨named, fun p isProg x input => ?_, env ▸ holds⟩
    have isOld := mem_oldInputs.mpr ⟨p, isProg, input⟩
    obtain ⟨w, _, inTable⟩ := filled.keys x isOld
    obtain ⟨_, y, isOld', name, typ⟩ := filled.made _ inTable
    have declared : w ∈ newInputs tables.newInputs := mem_map.mpr ⟨_, inTable, rfl⟩
    rw [byInput, atEntry inTable, ← types y isOld' x isOld name, ← typ]
    exact typed w declared
  · rintro ⟨value, typed, holds⟩
    refine ⟨valueOf tables.newInputs (byInput value) value, fun w declared => ?_, ?_⟩
    · obtain ⟨entry, inTable, rfl⟩ := mem_map.mp declared
      obtain ⟨_, x, isOld, name, typ⟩ := filled.made entry inTable
      obtain ⟨p, isProg, input⟩ := mem_oldInputs.mp isOld
      rw [valueOf_new _ value inTable (unique inTable), ← name, typ]
      exact typed p isProg x input
    · rw [← newEnv_valueOf (byInput value) value] at holds
      exact holds

/-- The formula is satisfiable if the programs can differ on the output that is compared. -/
theorem satisfiable_sent_iff (injective : Function.Injective supply)
    (fresh : ∀ p ∈ progs1 ++ progs2, ∀ x ∈ p.vars, ∀ k, x.id ≠ supply k)
    (distinct : Distinct (progs1 ++ progs2)) (visible : InputsVisible (progs1 ++ progs2))
    (comparable : Comparable M progs1 progs2) (output : m ∈ outNames progs1)
    : Satisfiable M (sent supply m progs1 progs2) ↔ DifferOn M progs1 progs2 m := by
  have filled := tablesFor_of injective (progs1 ++ progs2)
  have unifies := filled.unifies fresh
  have writes (p : PathProgram) (isProg : p ∈ progs1 ++ progs2) : (p.named m).isSome := by
    obtain ⟨pair, inPairs⟩ := exists_mem_of_ne_nil _ (mem_outNames.mp output)
    obtain ⟨q, isProg', _, isOutput, name⟩ := mem_outPairs.mp inPairs
    refine comparable.outputs q (mem_append_left _ isProg') p isProg m ?_
    rw [PathProgram.named_eq_some.mpr ⟨isOutput, name⟩]
    rfl
  have value {value : String → Value} (typed : TypedBy (progs1 ++ progs2) value)
      {p q : PathProgram} (takes1 : Takes M (byInput value) progs1 p)
      (takes2 : Takes M (byInput value) progs2 q) :=
    eval_sent filled unifies distinct visible typed takes1 takes2
      (writes p (mem_append_left _ takes1.1)) (writes q (mem_append_right _ takes2.1))
  refine (satisfiable_iff filled comparable.types _).trans ⟨?_, ?_⟩
  · rintro ⟨assigned, typed, holds⟩
    obtain ⟨p, takes1⟩ := comparable.paths1 assigned typed
    obtain ⟨q, takes2⟩ := comparable.paths2 assigned typed
    refine ⟨assigned, typed, p, q, takes1, takes2, fun same => ?_⟩
    rw [value typed takes1 takes2] at holds
    simp [same, expBool] at holds
  · rintro ⟨assigned, typed, p, q, takes1, takes2, differ⟩
    refine ⟨assigned, typed, ?_⟩
    rw [value typed takes1 takes2, decide_eq_true differ]

end

/-- What the tool needs to send a formula over the inputs: names that `String.sub` accepts,
inputs that renaming finds, an output, and hash tables that list the outputs of both programs
in the same order.
-/
structure Sendable (order : List String → List String) (progs1 progs2 : List PathProgram)
    : Prop where
  long : ∀ p ∈ progs1 ++ progs2, LongNames p
  visible : InputsVisible (progs1 ++ progs2)
  output : outNames progs1 ≠ []
  listed : order (outNames progs1) = order (outNames progs2)

section

variable {supply : Nat → Nat} {order : List String → List String}
  {progs1 progs2 : List PathProgram}

theorem compared_mem (perm : ∀ names, (order names).Perm names)
    (first : compared order progs1 = some m)
    : m ∈ outNames progs1 :=
  (perm _).mem_iff.mp ((perm _).mem_iff.mp (mem_of_head? first))

theorem exists_compared (perm : ∀ names, (order names).Perm names)
    (written : outNames progs1 ≠ [])
    : ∃ m, compared order progs1 = some m := by
  have listed : order (order (outNames progs1)) ≠ [] := by
    intro empty
    have nothing := ((perm (order (outNames progs1))).trans (perm _)).length_eq
    rw [empty] at nothing
    exact written (length_eq_zero_iff.mp nothing.symm)
  exact ⟨_, List.head?_eq_some_head listed⟩

end

/-- Two outputs are zero. -/
def zeros : PathProgram where
  decls :=
    [⟨1, "in_value_1", .reg8⟩, ⟨2, "out_first_2", .reg8⟩, ⟨3, "out_other_3", .reg8⟩,
     ⟨4, "pathcond_4", .reg1⟩]
  moves :=
    [(⟨2, "out_first_2", .reg8⟩, .const .reg8 0),
     (⟨3, "out_other_3", .reg8⟩, .const .reg8 0),
     (⟨4, "pathcond_4", .reg1⟩, .const .reg1 1)]
  pathcond := ⟨4, "pathcond_4", .reg1⟩
  condTyp := rfl

/-- The first output is the input. -/
def firstCopied : PathProgram where
  decls :=
    [⟨5, "in_value_5", .reg8⟩, ⟨6, "out_first_6", .reg8⟩, ⟨7, "out_other_7", .reg8⟩,
     ⟨8, "pathcond_8", .reg1⟩]
  moves :=
    [(⟨6, "out_first_6", .reg8⟩, .temp ⟨5, "in_value_5", .reg8⟩),
     (⟨7, "out_other_7", .reg8⟩, .const .reg8 0),
     (⟨8, "pathcond_8", .reg1⟩, .const .reg1 1)]
  pathcond := ⟨8, "pathcond_8", .reg1⟩
  condTyp := rfl

/-- The other output is the input. -/
def otherCopied : PathProgram where
  decls :=
    [⟨5, "in_value_5", .reg8⟩, ⟨6, "out_first_6", .reg8⟩, ⟨7, "out_other_7", .reg8⟩,
     ⟨8, "pathcond_8", .reg1⟩]
  moves :=
    [(⟨6, "out_first_6", .reg8⟩, .const .reg8 0),
     (⟨7, "out_other_7", .reg8⟩, .temp ⟨5, "in_value_5", .reg8⟩),
     (⟨8, "pathcond_8", .reg1⟩, .const .reg1 1)]
  pathcond := ⟨8, "pathcond_8", .reg1⟩
  condTyp := rfl

theorem takes_single {M : Meaning} {value : Var → Value} {p : PathProgram}
    (holds : p.Holds M value)
    : Takes M value [p] p := by
  refine ⟨mem_cons_self, fun q mem => ?_⟩
  rw [mem_singleton] at mem
  simp [mem, holds]

theorem zeros_holds (M : Meaning) (value : Var → Value) : zeros.Holds M value := ⟨_, rfl, rfl⟩

theorem copied_holds {changed : PathProgram} (mem : changed ∈ [firstCopied, otherCopied])
    (M : Meaning) (value : Var → Value)
    : changed.Holds M value := by
  rcases mem_pair.mp mem with rfl | rfl
  · exact ⟨_, rfl, rfl⟩
  · exact ⟨_, rfl, rfl⟩

theorem named_isSome {p : PathProgram}
    : (p.named m).isSome ↔ m ∈ p.outs.map (fun o => cleanupVar o.name) := by
  simp [PathProgram.named, List.find?_isSome]

/-- Programs of one path each, which is always taken. -/
theorem comparable_single {M : Meaning}
    (types : ∀ x ∈ oldInputs [p, q], ∀ y ∈ oldInputs [p, q],
      cleanupVar x.name = cleanupVar y.name → x.typ = y.typ)
    (holds1 : ∀ value, p.Holds M value) (holds2 : ∀ value, q.Holds M value)
    (outputs : p.outs.map (fun o => cleanupVar o.name) = q.outs.map (fun o => cleanupVar o.name))
    : Comparable M [p] [q] where
  types := types
  paths1 value _ := ⟨p, takes_single (holds1 _)⟩
  paths2 value _ := ⟨q, takes_single (holds2 _)⟩
  outputs r mem r' mem' m := by
    have written (s : PathProgram) (isProg : s ∈ [p] ++ [q])
        : (s.named m).isSome ↔ m ∈ p.outs.map (fun o => cleanupVar o.name) := by
      rcases mem_pair.mp isProg with rfl | rfl
      · exact named_isSome
      · rw [named_isSome, outputs]
    rw [written r mem, written r' mem']
    exact id

theorem changed_checked
    : ∀ changed ∈ [firstCopied, otherCopied],
        (Distinct ([zeros] ++ [changed])
          ∧ (∀ p ∈ [zeros] ++ [changed], LongNames p)
          ∧ InputsVisible ([zeros] ++ [changed])
          ∧ outNames [zeros] = outNames [changed])
        ∧ TypedBy ([zeros] ++ [changed]) (fun _ => ⟨.reg8, 1⟩)
        ∧ (∀ x ∈ oldInputs [zeros, changed], ∀ y ∈ oldInputs [zeros, changed],
            cleanupVar x.name = cleanupVar y.name → x.typ = y.typ)
        ∧ zeros.outs.map (fun o => cleanupVar o.name)
          = changed.outs.map (fun o => cleanupVar o.name) := by
  decide +kernel

theorem outNames_zeros : outNames [zeros] = ["out_first", "out_other"] := by decide +kernel

theorem comparable_changed {changed : PathProgram}
    (mem : changed ∈ [firstCopied, otherCopied]) (M : Meaning)
    : Comparable M [zeros] [changed] := by
  obtain ⟨_, _, types, outputs⟩ := changed_checked changed mem
  exact comparable_single types (zeros_holds M) (copied_holds mem M) outputs

theorem differOn_changed {changed : PathProgram} (mem : changed ∈ [firstCopied, otherCopied])
    {M : Meaning} (left : zeros.output M (byInput (fun _ => ⟨.reg8, 1⟩)) m = some ⟨.reg8, 0⟩)
    (right : changed.output M (byInput (fun _ => ⟨.reg8, 1⟩)) m = some ⟨.reg8, 1⟩)
    : DifferOn M [zeros] [changed] m := by
  refine ⟨fun _ => ⟨.reg8, 1⟩, (changed_checked changed mem).2.1, zeros, changed,
    takes_single (zeros_holds M _), takes_single (copied_holds mem M _), ?_⟩
  rw [left, right]
  decide

theorem not_differOn_single {M : Meaning}
    (same : ∀ value, p.output M value m = q.output M value m)
    : ¬ DifferOn M [p] [q] m := by
  rintro ⟨value, _, r, r', takes1, takes2, differ⟩
  rw [mem_singleton.mp takes1.1, mem_singleton.mp takes2.1] at differ
  exact differ (same _)

theorem small_ids : ∀ p ∈ [zeros, firstCopied, otherCopied], ∀ x ∈ p.vars, x.id < 100 := by
  decide +kernel

/-- The output that is compared is the same, so the formula cannot be satisfied. -/
theorem main_changed {order : List String → List String}
    (perm : ∀ names, (order names).Perm names) {changed : PathProgram}
    (mem : changed ∈ [firstCopied, otherCopied]) (first : compared order [zeros] = some m)
    (same : ∀ M value, zeros.output M value m = changed.output M value m)
    : ∃ query,
        main (· + 100) order [zeros.source] [changed.source] = some query
        ∧ ∀ M, ¬ Satisfiable M query := by
  obtain ⟨⟨distinct, long, visible, names⟩, _⟩ := changed_checked changed mem
  have injective : Function.Injective (· + 100) := fun k k' same => Nat.add_right_cancel same
  have fresh (p : PathProgram) (isProg : p ∈ [zeros] ++ [changed]) (x : Var)
      (occurs : x ∈ p.vars) (k : Nat)
      : x.id ≠ k + 100 := by
    have bound := small_ids p (by
      rcases mem_pair.mp isProg with rfl | rfl
      · exact mem_cons_self
      · exact mem_cons_of_mem _ mem) x occurs
    omega
  have unifies := (tablesFor_of injective ([zeros] ++ [changed])).unifies fresh
  refine ⟨sent (· + 100) m [zeros] [changed], ?_, fun M sat => ?_⟩
  · have made := main_eq perm unifies long (congrArg order names)
    rw [first] at made
    exact made
  · rw [satisfiable_sent_iff injective fresh distinct visible (comparable_changed mem M)
      (compared_mem perm first)] at sat
    exact not_differOn_single (same M) sat

/-- However the hash tables list two outputs, programs that differ on the one that is not
first are not told apart.
-/
theorem one_output_not_compared (order : List String → List String)
    (perm : ∀ names, (order names).Perm names)
    : ∃ changed ∈ [firstCopied, otherCopied], ∃ query,
        main (· + 100) order [zeros.source] [changed.source] = some query
        ∧ ∀ M,
            Comparable M [zeros] [changed]
            ∧ (∃ m ∈ outNames [zeros], DifferOn M [zeros] [changed] m)
            ∧ ¬ Satisfiable M query := by
  obtain ⟨m, first⟩ : ∃ m, compared order [zeros] = some m :=
    exists_compared perm (by simp [outNames_zeros])
  have output := compared_mem perm first
  rw [outNames_zeros] at output
  have isFirst : firstCopied ∈ [firstCopied, otherCopied] := mem_cons_self
  have isOther : otherCopied ∈ [firstCopied, otherCopied] := mem_cons_of_mem _ mem_cons_self
  rcases mem_pair.mp output with rfl | rfl
  · obtain ⟨query, made, unsat⟩ := main_changed perm isOther first (fun M value => rfl)
    exact ⟨otherCopied, isOther, query, made, fun M => ⟨comparable_changed isOther M,
      ⟨"out_other", by simp [outNames_zeros], differOn_changed isOther rfl rfl⟩, unsat M⟩⟩
  · obtain ⟨query, made, unsat⟩ := main_changed perm isFirst first (fun M value => rfl)
    exact ⟨firstCopied, isFirst, query, made, fun M => ⟨comparable_changed isFirst M,
      ⟨"out_first", by simp [outNames_zeros], differOn_changed isFirst rfl rfl⟩, unsat M⟩⟩

end FastPokeEmu.Paths.DiffBehavior
