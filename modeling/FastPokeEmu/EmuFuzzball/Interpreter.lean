import FastPokeEmu.Library.Folds
import FastPokeEmu.Vine.Expressions

/-! The concrete interpreter for path conditions (`interpreter.ml`).
Its global hash table becomes an explicit context; `none` stands for any exception, be it
a missing variable, a variable defined twice or an operator that does not fold.
-/

namespace FastPokeEmu.Interpreter

open FastPokeEmu.Vine List Folds

/-- The interpreter's table from variable names to concrete values. -/
abbrev Ctx := String → Option I64

def startsWith (str pat : String) : Bool :=
  let n := min pat.toList.length str.toList.length
  str.toList.take n == pat.toList

/-- Only names that are not input names are made unique by their id. -/
def mkvar (v : Var) : String :=
  if startsWith v.name "in_" || startsWith v.name "mem_" then v.name
  else v.name ++ "_" ++ toString v.id

/-- Printf's `%08Lx`. -/
def hex08 (i : I64) : String :=
  let digits := Nat.toDigits 16 i.toNat
  String.ofList (replicate (8 - digits.length) '0' ++ digits)

def memByteName (i : I64) : String := "mem_byte_0x" ++ hex08 i

/-- `ctx_set` asserts that the variable is new. -/
def ctxSet (ctx : Ctx) (variable_ : String) (value : I64) : Option Ctx :=
  if (ctx variable_).isSome then none
  else some (fun name => if name = variable_ then some value else ctx name)

def ctxInit (vv : List (String × I64)) : Option Ctx :=
  vv.foldlM (fun ctx binding => ctxSet ctx binding.1 binding.2) (fun _ => none)

/-- `eval_var` on a memory cell supports literal addresses only. -/
def evalMem (addr : Exp) (ctx : Ctx) : Option I64 :=
  match addr with
  | .const _ i => ctx (memByteName i)
  | _ => none

/-- The recursive part of `eval_exp`. OCaml evaluates constructor arguments from right to
left, so a `Let` in a right operand is in force while the left one is evaluated.
-/
def loop : Exp → Ctx → Option (Value × Ctx)
  | .binOp op e1 e2, ctx => do
      let (c2, ctx) ← loop e2 ctx
      let (c1, ctx) ← loop e1 ctx
      let c ← foldBinOp op c1 c2
      some (c, ctx)
  | .unOp op e1, ctx => do
      let (c1, ctx) ← loop e1 ctx
      some (foldUnOp op c1, ctx)
  | .cast op ty e1, ctx => do
      let (c1, ctx) ← loop e1 ctx
      some (foldCast op ty c1, ctx)
  | .ite ce te fe, ctx => do
      let (f, ctx) ← loop fe ctx
      let (t, ctx) ← loop te ctx
      let (c, ctx) ← loop ce ctx
      some (if boolOfConst c then t else f, ctx)
  | .const ty value, ctx => some (⟨ty, value⟩, ctx)
  | .mem _ addr ty, ctx => (evalMem addr ctx).map (fun v => (⟨ty, v⟩, ctx))
  | .temp v, ctx => (ctx (mkvar v)).map (fun value => (⟨v.typ, value⟩, ctx))
  | .letTemp v e1 e2, ctx => do
      let (c, ctx) ← loop e1 ctx
      let ctx ← ctxSet ctx (mkvar v) c.bits
      loop e2 ctx
  | .unsupported, _ => none

/-- `eval_exp` returns the integer and leaves `Let` bindings behind in the context. -/
def evalExp (e : Exp) (ctx : Ctx) : Option (I64 × Ctx) :=
  (loop e ctx).map (fun result => (result.1.bits, result.2))

def evalAssgn (ctx : Ctx) (v : Var) (e : Exp) : Option Ctx := do
  let (value, ctx) ← evalExp e ctx
  ctxSet ctx (mkvar v) value

def evalAssgns (vvee : List (Var × Exp)) (ctx : Ctx) : Option Ctx :=
  vvee.foldlM (fun ctx assgn => evalAssgn ctx assgn.1 assgn.2) ctx

def divides : BinOpType → Bool
  | .divide | .sdivide | .mod | .smod => true
  | _ => false

/-- The context names read for a memory cell. -/
def memNames : Exp → List String
  | .const _ i => [memByteName i]
  | _ => []

/-- The context names an evaluation of the expression may look up or define. -/
def names : Exp → List String
  | .binOp _ e1 e2 => names e1 ++ names e2
  | .unOp _ e1 => names e1
  | .cast _ _ e1 => names e1
  | .ite ce te fe => names ce ++ names te ++ names fe
  | .const _ _ => []
  | .mem _ addr _ => memNames addr
  | .temp v => [mkvar v]
  | .letTemp v e1 e2 => mkvar v :: (names e1 ++ names e2)
  | .unsupported => []

/-- No operator of the expression can raise `Division_by_zero`. -/
def NoDivision : Exp → Prop
  | .binOp op e1 e2 => divides op = false ∧ NoDivision e1 ∧ NoDivision e2
  | .unOp _ e1 | .cast _ _ e1 => NoDivision e1
  | .ite ce te fe => NoDivision ce ∧ NoDivision te ∧ NoDivision fe
  | .letTemp _ e1 e2 => NoDivision e1 ∧ NoDivision e2
  | .const _ _ | .temp _ | .mem _ _ _ | .unsupported => True

theorem foldBinOp_isSome {op : BinOpType} (whole : divides op = false) (v1 v2 : Value)
    : ∃ v, foldBinOp op v1 v2 = some v := by
  cases op <;> first | exact ⟨_, rfl⟩ | cases whole

/-! Two evaluations of one expression, in contexts that bind the same names, or that also give
them the same values
-/

section

variable {exact : Prop} {scope : String → Prop} {left right : Ctx}

/-- Two values are equal, if that is asked for. -/
def Same {α : Type} (exact : Prop) (a b : α) : Prop := exact → a = b

def Agree (exact : Prop) (scope : String → Prop) (left right : Ctx) : Prop :=
  ∀ name, scope name → Option.Rel (Same exact) (left name) (right name)

/-- Results of an evaluation, with the contexts that it leaves. -/
def SameResult {α : Type} (exact : Prop) (scope : String → Prop) (a b : α × Ctx) : Prop :=
  Same exact a.1 b.1 ∧ Agree exact scope a.2 b.2

theorem Same.rel {α : Type} {x y : Option α} (same : Same exact x y)
    (defined : x.isSome = y.isSome)
    : Option.Rel (Same exact) x y := by
  cases x with
  | none =>
    cases y with
    | none => exact .none
    | some => cases defined
  | some =>
    cases y with
    | none => cases defined
    | some => exact .some (fun holds => Option.some.inj (same holds))

theorem Same.eq {α : Type} {x y : Option α} (same : Option.Rel (Same True) x y) : x = y := by
  cases same with
  | none => rfl
  | some same => rw [same trivial]

theorem isSome_of_rel {α β : Type} {R : α → β → Prop} {x : Option α} {y : Option β}
    (related : Option.Rel R x y)
    : x.isSome = y.isSome := by
  cases related <;> rfl

theorem Same.foldBinOp {op : BinOpType} (whole : exact ∨ divides op = false) {a1 a2 b1 b2 : Value}
    (same1 : Same exact a1 b1) (same2 : Same exact a2 b2)
    : Option.Rel (Same exact) (foldBinOp op a1 a2) (foldBinOp op b1 b2) := by
  refine Same.rel (fun holds => by rw [same1 holds, same2 holds]) ?_
  rcases whole with holds | whole
  · rw [same1 holds, same2 holds]
  · obtain ⟨a, folded⟩ := foldBinOp_isSome whole a1 a2
    obtain ⟨b, folded'⟩ := foldBinOp_isSome whole b1 b2
    rw [folded, folded']
    rfl

theorem ctxSet_agree {name : String} {a b : I64} (agree : Agree exact scope left right)
    (mem : scope name) (same : Same exact a b)
    : Option.Rel (Agree exact scope) (ctxSet left name a) (ctxSet right name b) := by
  unfold ctxSet
  rw [isSome_of_rel (agree name mem)]
  by_cases defined : (right name).isSome
  · rw [if_pos defined, if_pos defined]
    exact .none
  · rw [if_neg defined, if_neg defined]
    refine .some (fun other inScope => ?_)
    by_cases here : other = name
    · simpa [here] using Option.Rel.some same
    · simpa [here] using agree other inScope

theorem evalMem_agree (addr : Exp) (covers : ∀ name ∈ memNames addr, scope name)
    (agree : Agree exact scope left right)
    : Option.Rel (Same exact) (evalMem addr left) (evalMem addr right) := by
  cases addr with
  | const ty i => exact agree _ (covers _ (mem_singleton_self _))
  | _ => exact .none

theorem lookup_agree {x y : Option I64} (ty : Typ) (found : Option.Rel (Same exact) x y)
    (agree : Agree exact scope left right)
    : Option.Rel (SameResult exact scope) (x.map (fun v => ((⟨ty, v⟩ : Value), left)))
        (y.map (fun v => ((⟨ty, v⟩ : Value), right))) := by
  cases found with
  | none => exact .none
  | some same => exact .some ⟨fun holds => by rw [same holds], agree⟩

/-- Agreement on an expression's own names determines its evaluation; without divisions, the
names alone determine whether it succeeds.
Witness: induction on the expression; the scope is fixed and merely contains its names,
so that the context left by one operand can be handed to the next.
-/
theorem loop_agree (e : Exp) (whole : exact ∨ NoDivision e)
    (covers : ∀ name ∈ names e, scope name) (agree : Agree exact scope left right)
    : Option.Rel (SameResult exact scope) (loop e left) (loop e right) := by
  induction e generalizing left right with
  | binOp op e1 e2 ih1 ih2 =>
    refine rel_bind (ih2 (whole.imp_right (·.2.2)) (fun name member =>
      covers name (mem_append_right _ member)) agree) (fun r2 s2 second => ?_)
    refine rel_bind (ih1 (whole.imp_right (·.2.1)) (fun name member =>
      covers name (mem_append_left _ member)) second.2) (fun r1 s1 first => ?_)
    exact rel_bind (first.1.foldBinOp (whole.imp_right (·.1)) second.1)
      (fun _ _ same => .some ⟨same, first.2⟩)
  | unOp op e1 ih | cast op ty e1 ih =>
    refine rel_bind (ih whole covers agree) (fun _ _ first => ?_)
    exact .some ⟨fun holds => by rw [first.1 holds], first.2⟩
  | ite ce te fe ihc iht ihf =>
    refine rel_bind (ihf (whole.imp_right (·.2.2)) (fun name member =>
      covers name (by simp [names, member])) agree) (fun _ _ third => ?_)
    refine rel_bind (iht (whole.imp_right (·.2.1)) (fun name member =>
      covers name (by simp [names, member])) third.2) (fun _ _ second => ?_)
    refine rel_bind (ihc (whole.imp_right (·.1)) (fun name member =>
      covers name (by simp [names, member])) second.2) (fun _ _ first => ?_)
    exact .some ⟨fun holds => by rw [first.1 holds, second.1 holds, third.1 holds], first.2⟩
  | const ty value => exact .some ⟨fun _ => rfl, agree⟩
  | temp v => exact lookup_agree v.typ (agree _ (covers _ (mem_singleton_self _))) agree
  | mem v addr ty _ => exact lookup_agree ty (evalMem_agree addr covers agree) agree
  | letTemp v e1 e2 ih1 ih2 =>
    refine rel_bind (ih1 (whole.imp_right (·.1)) (fun name member =>
      covers name (by simp [names, member])) agree) (fun r1 s1 first => ?_)
    refine rel_bind (ctxSet_agree first.2 (covers (mkvar v) mem_cons_self)
      (fun holds => by rw [first.1 holds])) (fun left right agree => ?_)
    exact ih2 (whole.imp_right (·.2)) (fun name member => covers name (by simp [names, member]))
      agree
  | unsupported => exact .none

theorem evalExp_agree (e : Exp) (whole : exact ∨ NoDivision e)
    (covers : ∀ name ∈ names e, scope name) (agree : Agree exact scope left right)
    : Option.Rel (SameResult exact scope) (evalExp e left) (evalExp e right) := by
  unfold evalExp
  have evaluated := loop_agree e whole covers agree
  generalize loop e left = x at evaluated ⊢
  generalize loop e right = y at evaluated ⊢
  cases evaluated with
  | none => exact .none
  | some res => exact .some ⟨fun holds => congrArg Value.bits (res.1 holds), res.2⟩

/-- The context names touched by a list of temporaries. -/
def assgnNames (temps : List (Var × Exp)) : List String :=
  temps.flatMap (fun assgn => mkvar assgn.1 :: names assgn.2)

theorem evalAssgns_agree (temps : List (Var × Exp))
    (whole : ∀ assgn ∈ temps, exact ∨ NoDivision assgn.2)
    (covers : ∀ name ∈ assgnNames temps, scope name) (agree : Agree exact scope left right)
    : Option.Rel (Agree exact scope) (evalAssgns temps left) (evalAssgns temps right) := by
  refine rel_foldlM temps (fun assgn mem left right agree => ?_) agree
  have covered (name : String) (inside : name ∈ mkvar assgn.1 :: names assgn.2) : scope name :=
    covers name (mem_flatMap.mpr ⟨assgn, mem, inside⟩)
  refine rel_bind (evalExp_agree assgn.2 (whole assgn mem)
    (fun name inside => covered name (mem_cons_of_mem _ inside)) agree) ?_
  intro r s evaluated
  exact ctxSet_agree evaluated.2 (covered _ mem_cons_self) evaluated.1

end

end FastPokeEmu.Interpreter
