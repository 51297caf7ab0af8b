import FastPokeEmu.Library.StraightLine
import FastPokeEmu.Vine.Expressions

/-! The meaning of Vine expressions as formulas: an expression denotes a value under an
assignment to its variables. Operators are total; what a division by zero yields is left to
the solver.
-/

namespace FastPokeEmu.Vine

open List Function Option

/-- Results of operators whose divisor is zero. -/
structure Meaning where
  onZero : BinOpType → I64 → I64 → I64

def Meaning.binOp (M : Meaning) (op : BinOpType) (v1 v2 : Value) : Value :=
  (foldBinOp op v1 v2).getD (toVal v1.ty (M.onZero op v1.bits v2.bits))

abbrev Env := Var → Option Value

/-- `none` is a variable without a value, or a construct that is not an integer formula. -/
def eval (M : Meaning) (env : Env) : Exp → Option Value
  | .binOp op e1 e2 => do
      let v1 ← eval M env e1
      let v2 ← eval M env e2
      some (M.binOp op v1 v2)
  | .unOp op e1 => (eval M env e1).map (foldUnOp op)
  | .const ty value => some (toVal ty value)
  | .temp v => env v
  | .mem _ _ _ => none
  | .cast op ty e1 => (eval M env e1).map (foldCast op ty)
  | .letTemp v e1 e2 => do
      let d ← eval M env e1
      eval M (update env v (some d)) e2
  | .ite ce te fe => do
      let c ← eval M env ce
      if boolOfConst c then eval M env te else eval M env fe
  | .unsupported => none

namespace Exp

def free : Exp → List Var
  | .binOp _ e1 e2 => e1.free ++ e2.free
  | .unOp _ e1 => e1.free
  | .const _ _ => []
  | .temp v => [v]
  | .mem _ addr _ => addr.free
  | .cast _ _ e1 => e1.free
  | .letTemp v e1 e2 => e1.free ++ e2.free.filter (· ≠ v)
  | .ite ce te fe => ce.free ++ te.free ++ fe.free
  | .unsupported => []

/-- Operators that yield a truth value. -/
def compares : BinOpType → Bool
  | .eq | .neq | .lt | .le | .slt | .sle => true
  | _ => false

/-- Operators whose right operand may have any width. -/
def shifts : BinOpType → Bool
  | .lshift | .rshift | .arshift => true
  | _ => false

/-- The type of an integer formula, as `Vine_typecheck` assigns it. -/
def typeOf : Exp → Option Typ
  | .binOp op e1 e2 => do
      let t1 ← e1.typeOf
      let t2 ← e2.typeOf
      if t1 = t2 ∨ shifts op = true then some (if compares op then .reg1 else t1) else none
  | .unOp _ e1 => e1.typeOf
  | .const ty _ => some ty
  | .temp v => some v.typ
  | .mem _ _ _ => none
  | .cast _ ty e1 => e1.typeOf.map (fun _ => ty)
  | .letTemp v e1 e2 => do
      let t ← e1.typeOf
      if t = v.typ then e2.typeOf else none
  | .ite ce te fe => do
      let tc ← ce.typeOf
      let t1 ← te.typeOf
      let t2 ← fe.typeOf
      if tc = .reg1 ∧ t1 = t2 then some t1 else none
  | .unsupported => none

end Exp

theorem eval_congr (M : Meaning) (e : Exp) (env env' : Env)
    (agree : ∀ x ∈ e.free, env x = env' x)
    : eval M env e = eval M env' e := by
  induction e generalizing env env' with
  | binOp op e1 e2 ih1 ih2 =>
    simp only [Exp.free, mem_append] at agree
    simp only [eval, ih1 env env' (fun x m => agree x (Or.inl m)),
      ih2 env env' (fun x m => agree x (Or.inr m))]
  | unOp op e1 ih | cast op ty e1 ih => simp only [eval, ih env env' agree]
  | const ty value => rfl
  | temp v => exact agree v (by simp [Exp.free])
  | mem v addr ty => rfl
  | letTemp v e1 e2 ih1 ih2 =>
    simp only [Exp.free, mem_append, mem_filter] at agree
    simp only [eval, ih1 env env' (fun x m => agree x (Or.inl m))]
    cases eval M env' e1 with
    | none => rfl
    | some d =>
      refine ih2 _ _ (fun x member => ?_)
      by_cases same : x = v
      · rw [same, update_self, update_self]
      · rw [update_of_ne same, update_of_ne same]
        exact agree x (Or.inr ⟨member, by simpa using same⟩)
  | ite ce te fe ih1 ih2 ih3 =>
    simp only [Exp.free, mem_append] at agree
    simp only [eval, ih1 env env' (fun x m => agree x (Or.inl (Or.inl m))),
      ih2 env env' (fun x m => agree x (Or.inl (Or.inr m))),
      ih3 env env' (fun x m => agree x (Or.inr m))]
  | unsupported => rfl

/-- Vine expressions as a language with local definitions. -/
def language (M : Meaning) : ExprLanguage Var Exp Value where
  eval := eval M
  free := Exp.free
  define := .letTemp
  eval_congr env env' e := eval_congr M e env env'
  eval_define _ _ _ _ := rfl
  free_define x v e body := by simp [Exp.free]

/-- A value of a type, without bits above its width. -/
structure Value.Of (t : Typ) (v : Value) : Prop where
  ty : v.ty = t
  bits : to64 v = v.bits

instance (t : Typ) (v : Value) : Decidable (v.Of t) :=
  decidable_of_iff (v.ty = t ∧ to64 v = v.bits)
    ⟨fun h => ⟨h.1, h.2⟩, fun h => ⟨h.ty, h.bits⟩⟩

/-- The bits that a type keeps. -/
def Typ.mask (t : Typ) : I64 := shiftRightLogical (-1) (64 - bitsOfWidth t)

theorem to64_eq (v : Value) : to64 v = v.bits &&& v.ty.mask := by
  obtain ⟨t, x⟩ := v
  have width : 64 - bitsOfWidth t < 64 := by cases t <;> decide
  apply BitVec.eq_of_getLsbD_eq
  intro i bound
  have ones : (-1 : I64) = BitVec.allOnes 64 := by decide
  simp only [to64, shiftLeft, shiftRightLogical, Typ.mask, Nat.mod_eq_of_lt width, ones,
    BitVec.getLsbD_and, BitVec.getLsbD_ushiftRight, BitVec.getLsbD_shiftLeft,
    BitVec.getLsbD_allOnes]
  generalize 64 - bitsOfWidth t = k
  have back : k + i - k = i := by omega
  have above : ¬ k + i < k := by omega
  simp [back, above, Bool.and_comm]

theorem toVal_of (t : Typ) (x : I64) : (toVal t x).Of t := by
  refine ⟨rfl, ?_⟩
  rw [to64_eq]
  show (t.mask &&& x) &&& t.mask = t.mask &&& x
  rw [BitVec.and_comm, ← BitVec.and_assoc, BitVec.and_self]

theorem expBool_of (c : Bool) : (expBool c).Of .reg1 := by
  cases c
  · exact ⟨rfl, by decide⟩
  · exact ⟨rfl, by decide⟩

theorem foldBinOp_of {op : BinOpType} {v1 v2 v : Value} (folded : foldBinOp op v1 v2 = some v)
    : v.Of (if Exp.compares op then .reg1 else v1.ty) := by
  have divided {x : Option I64} (here : x.map (toVal v1.ty) = some v) : v.Of v1.ty := by
    obtain ⟨d, _, rfl⟩ := map_eq_some_iff.mp here
    exact toVal_of _ _
  cases op with
  | divide | sdivide | mod | smod => exact divided folded
  | eq | neq | lt | le | slt | sle =>
    cases folded
    exact expBool_of _
  | _ =>
    cases folded
    exact toVal_of _ _

theorem Meaning.binOp_of (M : Meaning) (op : BinOpType) (v1 v2 : Value)
    : (M.binOp op v1 v2).Of (if Exp.compares op then .reg1 else v1.ty) := by
  rw [Meaning.binOp]
  cases folded : foldBinOp op v1 v2 with
  | some v => exact foldBinOp_of folded
  | none =>
    -- only divisions fail
    cases op with
    | divide | sdivide | mod | smod => exact toVal_of _ _
    | _ => cases folded

/-- Every variable that has a value has one of its type. -/
def Typed (env : Env) : Prop := ∀ x v, env x = some v → v.Of x.typ

theorem Typed.update {env : Env} (typed : Typed env) {x : Var} {v : Value} (value : v.Of x.typ)
    : Typed (update env x (some v)) := by
  intro y w found
  by_cases same : y = x
  · subst same
    rw [update_self] at found
    cases found
    exact value
  · rw [update_of_ne same] at found
    exact typed y w found

/-- Typed expressions yield values of their type. -/
theorem eval_of {M : Meaning} {e : Exp} {env : Env} {t : Typ} {v : Value} (typed : Typed env)
    (type : e.typeOf = some t) (value : eval M env e = some v)
    : v.Of t := by
  induction e generalizing env t v with
  | binOp op e1 e2 ih1 ih2 =>
    simp only [Exp.typeOf, eval, bind_eq_bind, bind_eq_some_iff] at type value
    obtain ⟨t1, type1, t2, _, rest⟩ := type
    obtain ⟨v1, value1, v2, _, final⟩ := value
    cases final
    split at rest
    · cases rest
      rw [← (ih1 typed type1 value1).ty]
      exact M.binOp_of op v1 v2
    · cases rest
  | unOp op e1 ih =>
    obtain ⟨v1, value1, rfl⟩ := map_eq_some_iff.mp value
    rw [← (ih typed type value1).ty]
    cases op
    · exact toVal_of _ _
    · exact toVal_of _ _
  | const ty bits =>
    cases type
    cases value
    exact toVal_of _ _
  | temp x =>
    cases type
    exact typed x v value
  | mem x addr ty => cases type
  | cast op ty e1 ih =>
    obtain ⟨_, _, rfl⟩ := map_eq_some_iff.mp type
    obtain ⟨v1, _, rfl⟩ := map_eq_some_iff.mp value
    cases op <;> exact toVal_of _ _
  | letTemp x e1 e2 ih1 ih2 =>
    simp only [Exp.typeOf, eval, bind_eq_bind, bind_eq_some_iff] at type value
    obtain ⟨t1, type1, rest⟩ := type
    obtain ⟨d, value1, value2⟩ := value
    split at rest
    next same =>
      rw [same] at type1
      exact ih2 (typed.update (ih1 typed type1 value1)) rest value2
    · cases rest
  | ite ce te fe _ ih2 ih3 =>
    simp only [Exp.typeOf, eval, bind_eq_bind, bind_eq_some_iff] at type value
    obtain ⟨_, _, t1, type1, t2, type2, rest⟩ := type
    obtain ⟨c, _, chosen⟩ := value
    split at rest
    next same =>
      cases rest
      split at chosen
      · exact ih2 typed type1 chosen
      · exact ih3 typed (same.2 ▸ type2) chosen
    · cases rest
  | unsupported => cases type

/-- Typed expressions have a value when their variables have one. -/
theorem eval_defined (M : Meaning) {e : Exp} {env : Env} {t : Typ}
    (type : e.typeOf = some t) (known : ∀ x ∈ e.free, (env x).isSome = true)
    : ∃ v, eval M env e = some v := by
  induction e generalizing env t with
  | binOp op e1 e2 ih1 ih2 =>
    simp only [Exp.typeOf, bind_eq_bind, bind_eq_some_iff] at type
    obtain ⟨t1, type1, t2, type2, _⟩ := type
    simp only [Exp.free, mem_append] at known
    obtain ⟨v1, value1⟩ := ih1 type1 (fun x m => known x (Or.inl m))
    obtain ⟨v2, value2⟩ := ih2 type2 (fun x m => known x (Or.inr m))
    exact ⟨M.binOp op v1 v2, by simp [eval, value1, value2]⟩
  | unOp op e1 ih =>
    obtain ⟨v1, value1⟩ := ih type known
    exact ⟨foldUnOp op v1, by simp [eval, value1]⟩
  | const ty bits => exact ⟨_, rfl⟩
  | temp x =>
    obtain ⟨v, found⟩ := isSome_iff_exists.mp (known x (by simp [Exp.free]))
    exact ⟨v, found⟩
  | mem x addr ty => cases type
  | cast op ty e1 ih =>
    obtain ⟨_, type1, _⟩ := map_eq_some_iff.mp type
    obtain ⟨v1, value1⟩ := ih type1 known
    exact ⟨foldCast op ty v1, by simp [eval, value1]⟩
  | letTemp x e1 e2 ih1 ih2 =>
    simp only [Exp.typeOf, bind_eq_bind, bind_eq_some_iff] at type
    obtain ⟨t1, type1, rest⟩ := type
    split at rest
    · simp only [Exp.free, mem_append, mem_filter] at known
      obtain ⟨d, value1⟩ := ih1 type1 (fun y m => known y (Or.inl m))
      have inner (y : Var) (member : y ∈ e2.free)
          : (update env x (some d) y).isSome = true := by
        by_cases same : y = x
        · simp [same]
        · rw [update_of_ne same]
          exact known y (Or.inr ⟨member, by simpa using same⟩)
      obtain ⟨v, value2⟩ := ih2 rest inner
      exact ⟨v, by simp [eval, value1, value2]⟩
    · cases rest
  | ite ce te fe ih1 ih2 ih3 =>
    simp only [Exp.typeOf, bind_eq_bind, bind_eq_some_iff] at type
    obtain ⟨tc, typeC, t1, type1, t2, type2, _⟩ := type
    simp only [Exp.free, mem_append] at known
    obtain ⟨c, valueC⟩ := ih1 typeC (fun x m => known x (Or.inl (Or.inl m)))
    obtain ⟨v1, value1⟩ := ih2 type1 (fun x m => known x (Or.inl (Or.inr m)))
    obtain ⟨v2, value2⟩ := ih3 type2 (fun x m => known x (Or.inr m))
    by_cases chosen : boolOfConst c = true
    · exact ⟨v1, by simp [eval, valueC, chosen, value1]⟩
    · exact ⟨v2, by simp [eval, valueC, chosen, value2]⟩
  | unsupported => cases type

end FastPokeEmu.Vine
