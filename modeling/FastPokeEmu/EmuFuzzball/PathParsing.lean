import FastPokeEmu.EmuFuzzball.PathRuns

/-! Path programs as the parser hands them on (`vine_grammar.mly`): of a conditional expression
only the first branch is left.
-/

namespace FastPokeEmu.Paths

open Vine List

/-- The action for `expr QUESTION expr COLON expr` is `$3`. -/
def parseExp : Exp → Exp
  | .binOp op e1 e2 => .binOp op (parseExp e1) (parseExp e2)
  | .unOp op e1 => .unOp op (parseExp e1)
  | .const ty value => .const ty value
  | .temp v => .temp v
  | .mem v addr ty => .mem v (parseExp addr) ty
  | .cast op ty e1 => .cast op ty (parseExp e1)
  | .letTemp v e1 e2 => .letTemp v (parseExp e1) (parseExp e2)
  | .ite _ te _ => parseExp te
  | .unsupported => .unsupported

theorem typeOf_parseExp {e : Exp} {t : Typ} (type : e.typeOf = some t)
    : (parseExp e).typeOf = some t := by
  induction e generalizing t with
  | binOp op e1 e2 ih1 ih2 =>
    obtain ⟨t1, left, type⟩ := Option.bind_eq_some_iff.mp type
    obtain ⟨t2, right, type⟩ := Option.bind_eq_some_iff.mp type
    simpa [parseExp, Exp.typeOf, ih1 left, ih2 right] using type
  | unOp op e1 ih => exact ih type
  | const | temp | unsupported | mem => exact type
  | cast op ty e1 ih =>
    obtain ⟨t1, inner, rfl⟩ := Option.map_eq_some_iff.mp type
    simp [parseExp, Exp.typeOf, ih inner]
  | letTemp v e1 e2 ih1 ih2 =>
    obtain ⟨t1, left, type⟩ := Option.bind_eq_some_iff.mp type
    obtain ⟨same, type⟩ := Option.ite_none_right_eq_some.mp type
    simp [parseExp, Exp.typeOf, ih1 left, same, ih2 type]
  | ite ce te fe _ ih _ =>
    obtain ⟨tc, _, type⟩ := Option.bind_eq_some_iff.mp type
    obtain ⟨t1, first, type⟩ := Option.bind_eq_some_iff.mp type
    obtain ⟨t2, _, type⟩ := Option.bind_eq_some_iff.mp type
    obtain ⟨_, type⟩ := Option.ite_none_right_eq_some.mp type
    exact ih (first.trans type)

theorem free_parseExp (e : Exp) : ∀ x ∈ (parseExp e).free, x ∈ e.free := by
  induction e with
  | binOp op e1 e2 ih1 ih2 | letTemp v e1 e2 ih1 ih2 =>
    simp only [parseExp, Exp.free, mem_append, mem_filter]
    grind
  | ite ce te fe _ ih _ =>
    simp only [parseExp, Exp.free, mem_append]
    grind
  | unOp op e1 ih | cast op ty e1 ih | mem v addr ty ih => exact ih
  | const | temp | unsupported => exact fun x mem => mem

theorem bound_parseExp (e : Exp) : ∀ x ∈ bound (parseExp e), x ∈ bound e := by
  induction e with
  | binOp op e1 e2 ih1 ih2 | letTemp v e1 e2 ih1 ih2 =>
    simp only [parseExp, bound, mem_append, mem_cons]
    grind
  | ite ce te fe _ ih _ =>
    simp only [parseExp, bound, mem_append]
    grind
  | unOp op e1 ih | cast op ty e1 ih | mem v addr ty ih => exact ih
  | const | temp | unsupported => exact fun x mem => mem

/-- No conditional expression is left. -/
theorem inIte_parseExp (e : Exp) : inIte (parseExp e) = [] := by
  induction e with
  | binOp op e1 e2 ih1 ih2 | letTemp v e1 e2 ih1 ih2 => simp [parseExp, inIte, ih1, ih2]
  | unOp op e1 ih | cast op ty e1 ih | mem v addr ty ih | ite _ e1 _ _ ih _ => exact ih
  | const | temp | unsupported => rfl

/-- The conditional expressions that are evaluated have true conditions. -/
def Decided (M : Meaning) : Env → Exp → Prop
  | env, .binOp _ e1 e2 => Decided M env e1 ∧ Decided M env e2
  | env, .unOp _ e1 => Decided M env e1
  | env, .cast _ _ e1 => Decided M env e1
  | env, .letTemp v e1 e2 =>
    Decided M env e1 ∧ ∀ d, eval M env e1 = some d → Decided M (Function.update env v (some d)) e2
  | env, .ite ce te _ => (∃ c, eval M env ce = some c ∧ boolOfConst c = true) ∧ Decided M env te
  | _, .const _ _ | _, .temp _ | _, .mem _ _ _ | _, .unsupported => True

theorem eval_parseExp {M : Meaning} {e : Exp} {env : Env} (decided : Decided M env e)
    : eval M env (parseExp e) = eval M env e := by
  induction e generalizing env with
  | binOp op e1 e2 ih1 ih2 => simp only [parseExp, eval, ih1 decided.1, ih2 decided.2]
  | unOp op e1 ih | cast op ty e1 ih => simp only [parseExp, eval, ih decided]
  | letTemp v e1 e2 ih1 ih2 =>
    simp only [parseExp, eval, ih1 decided.1]
    cases value : eval M env e1 with
    | none => rfl
    | some d => exact ih2 (decided.2 d value)
  | ite ce te fe _ ih _ =>
    obtain ⟨⟨c, value, holds⟩, inner⟩ := decided
    simp [parseExp, eval, value, holds, ih inner]
  | const | temp | mem | unsupported => rfl

/-- The same along a run. -/
def DecidedRun (M : Meaning) : Env → List (Var × Exp) → Prop
  | _, [] => True
  | env, (v, e) :: rest =>
    Decided M env e
    ∧ ∀ d, eval M env e = some d → DecidedRun M (Function.update env v (some d)) rest

/-- Statements as they are parsed. -/
def parseMoves (moves : List (Var × Exp)) : List (Var × Exp) :=
  moves.map (fun s => (s.1, parseExp s.2))

theorem targets_parseMoves (moves : List (Var × Exp))
    : ExprLanguage.targets (parseMoves moves) = ExprLanguage.targets moves := by
  simp [ExprLanguage.targets, parseMoves, Function.comp_def]

theorem closed_parseMoves {moves : List (Var × Exp)} {known : List Var}
    (closed : ExprLanguage.Closed Exp.free known moves)
    : ExprLanguage.Closed Exp.free known (parseMoves moves) := by
  induction moves generalizing known with
  | nil => trivial
  | cons s rest ih => exact ⟨fun x mem => closed.1 x (free_parseExp _ x mem), ih closed.2⟩

theorem run_parseMoves {M : Meaning} {moves : List (Var × Exp)} {env : Env}
    (decided : DecidedRun M env moves)
    : (language M).run env (parseMoves moves) = (language M).run env moves := by
  induction moves generalizing env with
  | nil => rfl
  | cons s rest ih =>
    have same : (language M).eval env (parseExp s.2) = (language M).eval env s.2 :=
      eval_parseExp decided.1
    simp only [parseMoves, map_cons, ExprLanguage.run, same]
    cases value : (language M).eval env s.2 with
    | none => rfl
    | some d => exact ih (decided.2 d value)

namespace PathProgram

variable (p : PathProgram)

/-- The program that `parse_file` returns. -/
def parsed : PathProgram :=
  { p with
    moves := parseMoves p.moves
    typed := forall_mem_map.mpr fun s mem => typeOf_parseExp (p.typed s mem)
    closed := closed_parseMoves p.closed
    temporary := forall_mem_map.mpr fun s mem =>
      ⟨(p.temporary s mem).1, fun b inside => (p.temporary s mem).2 b (bound_parseExp _ b inside)⟩
    condAssigned := targets_parseMoves p.moves ▸ p.condAssigned
    outputs := fun o mem => targets_parseMoves p.moves ▸ p.outputs o mem }

variable {p}

theorem vars_parsed : ∀ x ∈ p.parsed.vars, x ∈ p.vars := by
  simp only [vars, parsed, parseMoves, mem_append, mem_flatMap, mem_map, mem_cons]
  rintro x (input | ⟨_, ⟨s, mem, rfl⟩, rfl | inside⟩)
  · exact Or.inl input
  · exact Or.inr ⟨s, mem, Or.inl rfl⟩
  · exact Or.inr ⟨s, mem, Or.inr (bound_parseExp _ x inside)⟩

/-- For the given inputs, all conditional expressions that are evaluated have true conditions. -/
def Decided (M : Meaning) (value : Var → Value) (p : PathProgram) : Prop :=
  DecidedRun M (p.env value) p.moves

theorem run_parsed {M : Meaning} {value : Var → Value} (decided : p.Decided M value)
    : p.parsed.run M value = p.run M value :=
  run_parseMoves decided

theorem holds_parsed {M : Meaning} {value : Var → Value} (decided : p.Decided M value)
    : p.parsed.Holds M value ↔ p.Holds M value := by
  rw [Holds, Holds, run_parsed decided]
  rfl

theorem output_parsed {M : Meaning} {value : Var → Value} (decided : p.Decided M value)
    (m : String)
    : p.parsed.output M value m = p.output M value m := by
  rw [output, output, run_parsed decided]
  rfl

end PathProgram

end FastPokeEmu.Paths
