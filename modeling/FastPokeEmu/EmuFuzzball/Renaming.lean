import FastPokeEmu.EmuFuzzball.PathPrograms

/-! Renaming of inputs, and statements as local definitions. Conditional expressions are left
as they are. Where old and new names have the same values, nothing else changes.
-/

namespace FastPokeEmu.Paths

open Vine List

/-- Local definitions around an expression. -/
def wrapAround (moves : List (Var × Exp)) (e : Exp) : Exp :=
  moves.foldr (fun s acc => .letTemp s.1 s.2 acc) e

theorem foldlM_wrapStep (moves : List (Var × Exp)) (e : Exp)
    : (moves.map toStmt).reverse.foldlM wrapStep e = some (wrapAround moves e) := by
  induction moves with
  | nil => rfl
  | cons s moves ih =>
    rw [map_cons, reverse_cons, foldlM_append, ih]
    rfl

/-- Variables that an expression defines locally. -/
def bound : Exp → List Var
  | .binOp _ e1 e2 => bound e1 ++ bound e2
  | .unOp _ e1 => bound e1
  | .mem _ addr _ => bound addr
  | .cast _ _ e1 => bound e1
  | .letTemp v e1 e2 => v :: (bound e1 ++ bound e2)
  | .ite ce te fe => bound ce ++ bound te ++ bound fe
  | .const _ _ | .temp _ | .unsupported => []

/-- Free variables inside conditional expressions. -/
def inIte : Exp → List Var
  | .binOp _ e1 e2 => inIte e1 ++ inIte e2
  | .unOp _ e1 => inIte e1
  | .cast _ _ e1 => inIte e1
  | .mem _ addr _ => inIte addr
  | .letTemp v e1 e2 => inIte e1 ++ (inIte e2).filter (· ≠ v)
  | .ite ce te fe => ce.free ++ te.free ++ fe.free
  | .const _ _ | .temp _ | .unsupported => []

theorem free_of_inIte (e : Exp) : ∀ x ∈ inIte e, x ∈ e.free := by
  induction e with
  | binOp op e1 e2 ih1 ih2 =>
    intro x member
    simp only [Exp.free, inIte, mem_append] at member ⊢
    grind
  | unOp op e1 ih => exact ih
  | cast op ty e1 ih => exact ih
  | temp | const | unsupported => exact fun x none => by cases none
  | mem v addr ty ih => exact ih
  | letTemp v e1 e2 ih1 ih2 =>
    intro x member
    simp only [Exp.free, inIte, mem_append, mem_filter] at member ⊢
    grind
  | ite ce te fe _ _ _ => exact fun x member => member

section

-- variables of the programs, as opposed to those that renaming makes
variable {old : Var → Prop} {map : Renaming} {env : Env} {M : Meaning}

/-- Old variables and their new names have the same values. -/
def Stable (old : Var → Prop) (map : Renaming) (env : Env) : Prop :=
  ∀ x, old x → env (renameVar map x) = env x

/-- A variable that is not renamed. -/
structure Kept (old : Var → Prop) (map : Renaming) (v : Var) : Prop where
  isOld : old v
  absent : map.lookup v.name = none

/-- The variables of the table are new. -/
def Fresh (old : Var → Prop) (map : Renaming) : Prop := ∀ n w, map.lookup n = some w → ¬ old w

theorem Kept.renameVar {v : Var} (kept : Kept old map v) : renameVar map v = v := by
  rw [Paths.renameVar, kept.absent]
  rfl

theorem Kept.only {v x : Var} (kept : Kept old map v) (fresh : Fresh old map)
    (same : Paths.renameVar map x = v)
    : x = v := by
  rw [Paths.renameVar] at same
  cases found : map.lookup x.name with
  | none => simpa [found] using same
  | some w =>
    have isNew : w = v := by simpa [found] using same
    exact absurd kept.isOld (isNew ▸ fresh _ _ found)

theorem Stable.update (stable : Stable old map env) {v : Var} (kept : Kept old map v)
    (fresh : Fresh old map) (d : Option Value)
    : Stable old map (Function.update env v d) := by
  intro x isOld
  by_cases same : x = v
  · rw [same, kept.renameVar]
  · rw [Function.update_of_ne same, Function.update_of_ne (fun h => same (kept.only fresh h))]
    exact stable x isOld

theorem eval_renameExp {e : Exp} (fresh : Fresh old map) (uses : ∀ x ∈ e.free, old x)
    (kept : ∀ b ∈ bound e, Kept old map b) (stable : Stable old map env)
    : eval M env (renameExp map e) = eval M env e := by
  induction e generalizing env with
  | binOp op e1 e2 ih1 ih2 =>
    simp only [bound, Exp.free, mem_append] at kept uses
    simp only [renameExp, eval,
      ih1 (fun x m => uses x (Or.inl m)) (fun b m => kept b (Or.inl m)) stable,
      ih2 (fun x m => uses x (Or.inr m)) (fun b m => kept b (Or.inr m)) stable]
  | unOp op e1 ih | cast op ty e1 ih => simp only [renameExp, eval, ih uses kept stable]
  | temp v => exact stable v (uses v (by simp [Exp.free]))
  | mem v addr ty ih => rfl
  | letTemp v e1 e2 ih1 ih2 =>
    simp only [bound, Exp.free, mem_cons, mem_append, mem_filter]
      at kept uses
    have isKept := kept v (Or.inl rfl)
    have inner (x : Var) (member : x ∈ e2.free) : old x := by
      by_cases same : x = v
      · exact same ▸ isKept.isOld
      · exact uses x (Or.inr ⟨member, by simpa using same⟩)
    simp only [renameExp, eval, isKept.renameVar,
      ih1 (fun x m => uses x (Or.inl m)) (fun b m => kept b (Or.inr (Or.inl m))) stable]
    cases eval M env e1 with
    | none => rfl
    | some d =>
      exact ih2 inner (fun b m => kept b (Or.inr (Or.inr m)))
        (stable.update isKept fresh (some d))
  | const ty value => rfl
  | ite ce te fe _ _ _ => rfl
  | unsupported => rfl

/-- The statements assign and define old variables that are not renamed. -/
def KeptStmts (old : Var → Prop) (map : Renaming) (moves : List (Var × Exp)) : Prop :=
  ∀ s ∈ moves, Kept old map s.1 ∧ ∀ b ∈ bound s.2, Kept old map b

/-- Renaming does not change what statements compute. -/
theorem run_renamed {moves : List (Var × Exp)} {known : List Var} (fresh : Fresh old map)
    (kept : KeptStmts old map moves) (closed : ExprLanguage.Closed Exp.free known moves)
    (areOld : ∀ x ∈ known, old x) (stable : Stable old map env)
    : (language M).run env (moves.map (fun s => (renameVar map s.1, renameExp map s.2)))
      = (language M).run env moves := by
  induction moves generalizing env known with
  | nil => rfl
  | cons s rest ih =>
    obtain ⟨isKept, inside⟩ := kept s mem_cons_self
    obtain ⟨uses, later⟩ := closed
    have same : (language M).eval env (renameExp map s.2) = (language M).eval env s.2 :=
      eval_renameExp fresh (fun x mem => areOld x (uses x mem)) inside stable
    simp only [map_cons, ExprLanguage.run, same, isKept.renameVar]
    cases (language M).eval env s.2 with
    | none => rfl
    | some d =>
      refine ih (fun s' mem => kept s' (mem_cons_of_mem _ mem)) later
        (fun x mem => ?_) (stable.update isKept fresh (some d))
      rcases mem_cons.mp mem with rfl | inKnown
      · exact isKept.isOld
      · exact areOld x inKnown

theorem inIte_renameExp {e : Exp} (kept : ∀ b ∈ bound e, Kept old map b)
    : inIte (renameExp map e) = inIte e := by
  induction e with
  | binOp op e1 e2 ih1 ih2 =>
    simp only [bound, mem_append] at kept
    rw [renameExp, inIte, inIte, ih1 (fun b m => kept b (Or.inl m)),
      ih2 (fun b m => kept b (Or.inr m))]
  | unOp op e1 ih | cast op ty e1 ih | mem v addr ty ih => exact ih kept
  | temp v => rfl
  | letTemp v e1 e2 ih1 ih2 =>
    simp only [bound, mem_cons, mem_append] at kept
    rw [renameExp, inIte, inIte, ih1 (fun b m => kept b (Or.inr (Or.inl m))),
      ih2 (fun b m => kept b (Or.inr (Or.inr m))), (kept v (Or.inl rfl)).renameVar]
  | ite ce te fe _ _ _ => rfl
  | const ty value => rfl
  | unsupported => rfl

/-- Variables of a renamed expression stand inside conditional expressions, or are renamed. -/
theorem free_renameExp {e : Exp} (kept : ∀ b ∈ bound e, Kept old map b) {x : Var}
    (member : x ∈ (renameExp map e).free)
    : x ∈ inIte e ∨ ∃ y ∈ e.free, x = renameVar map y := by
  induction e with
  | binOp op e1 e2 ih1 ih2 =>
    simp only [bound, mem_append] at kept
    simp only [renameExp, Exp.free, inIte, mem_append] at member ⊢
    rcases member with left | right
    · rcases ih1 (fun b m => kept b (Or.inl m)) left with inside | ⟨y, before, new⟩
      · exact Or.inl (Or.inl inside)
      · exact Or.inr ⟨y, Or.inl before, new⟩
    · rcases ih2 (fun b m => kept b (Or.inr m)) right with inside | ⟨y, before, new⟩
      · exact Or.inl (Or.inr inside)
      · exact Or.inr ⟨y, Or.inr before, new⟩
  | unOp op e1 ih | cast op ty e1 ih | mem v addr ty ih => exact ih kept member
  | temp v => exact Or.inr ⟨v, by simp [Exp.free], by simpa [renameExp, Exp.free] using member⟩
  | letTemp v e1 e2 ih1 ih2 =>
    simp only [bound, mem_cons, mem_append] at kept
    have isKept := kept v (Or.inl rfl)
    simp only [renameExp, Exp.free, inIte, mem_append, mem_filter,
      isKept.renameVar, decide_eq_true_eq] at member ⊢
    rcases member with left | ⟨right, other⟩
    · rcases ih1 (fun b m => kept b (Or.inr (Or.inl m))) left with inside | ⟨y, before, new⟩
      · exact Or.inl (Or.inl inside)
      · exact Or.inr ⟨y, Or.inl before, new⟩
    · rcases ih2 (fun b m => kept b (Or.inr (Or.inr m))) right with inside | ⟨y, before, new⟩
      · exact Or.inl (Or.inr ⟨inside, other⟩)
      · refine Or.inr ⟨y, Or.inr ⟨before, fun same => other ?_⟩, new⟩
        rw [new, same, isKept.renameVar]
  | const | unsupported => exact Or.inr ⟨x, member, by cases member⟩
  | ite ce te fe _ _ _ => exact Or.inl member

/-- Renamed statements use the new names of known variables, and what stands inside
conditional expressions.
-/
theorem closed_renamed {moves : List (Var × Exp)} {known more : List Var}
    (kept : KeptStmts old map moves) (closed : ExprLanguage.Closed Exp.free known moves)
    (new : ∀ x ∈ known, renameVar map x ∈ more)
    (inner : ∀ s ∈ moves, ∀ x ∈ inIte s.2, x ∈ known → x ∈ more)
    : ExprLanguage.Closed Exp.free more
        (moves.map (fun s => (renameVar map s.1, renameExp map s.2))) := by
  induction moves generalizing known more with
  | nil => trivial
  | cons s rest ih =>
    obtain ⟨isKept, inside⟩ := kept s mem_cons_self
    obtain ⟨uses, later⟩ := closed
    refine ⟨fun x mem => ?_, ?_⟩
    · rcases free_renameExp inside mem with within | ⟨y, before, rfl⟩
      · exact inner s mem_cons_self x within (uses x (free_of_inIte _ x within))
      · exact new y (uses y before)
    · rw [isKept.renameVar]
      refine ih (fun s' mem => kept s' (mem_cons_of_mem _ mem)) later ?_ ?_
      · intro x mem
        rcases mem_cons.mp mem with rfl | inKnown
        · rw [isKept.renameVar]
          exact mem_cons_self
        · exact mem_cons_of_mem _ (new x inKnown)
      · intro s' stmt x within mem
        rcases mem_cons.mp mem with rfl | inKnown
        · exact mem_cons_self
        · exact mem_cons_of_mem _ (inner s' (mem_cons_of_mem _ stmt) x within inKnown)

/-- Renaming depends on the variables that occur. -/
theorem renameExp_congr {map' : Renaming} {e : Exp}
    (same : ∀ x, x ∈ e.free ∨ x ∈ bound e → renameVar map x = renameVar map' x)
    : renameExp map e = renameExp map' e := by
  induction e with
  | binOp op e1 e2 ih1 ih2 =>
    simp only [bound, Exp.free, mem_append] at same
    simp only [renameExp, Exp.binOp.injEq, true_and]
    exact ⟨ih1 (by grind), ih2 (by grind)⟩
  | unOp op e1 ih => exact congrArg (Exp.unOp op) (ih same)
  | cast op ty e1 ih => exact congrArg (Exp.cast op ty) (ih same)
  | temp v => exact congrArg Exp.temp (same v (by simp [Exp.free]))
  | mem v addr ty ih => exact congrArg (Exp.mem v · ty) (ih same)
  | letTemp v e1 e2 ih1 ih2 =>
    simp only [bound, Exp.free, mem_cons, mem_append, mem_filter] at same
    simp only [renameExp, Exp.letTemp.injEq]
    refine ⟨same v (by simp), ih1 (by grind), ih2 (fun x side => same x ?_)⟩
    by_cases isBinder : x = v
    · exact Or.inr (Or.inl isBinder)
    · grind
  | const ty value => rfl
  | ite ce te fe _ _ _ => rfl
  | unsupported => rfl

theorem targets_renamed {moves : List (Var × Exp)} (kept : KeptStmts old map moves)
    : ExprLanguage.targets (moves.map (fun s => (renameVar map s.1, renameExp map s.2)))
      = ExprLanguage.targets moves := by
  rw [ExprLanguage.targets, ExprLanguage.targets, map_map]
  exact map_congr_left (fun s mem => (kept s mem).1.renameVar)

end

end FastPokeEmu.Paths
