import FastPokeEmu.EmuFuzzball.Interpreter
import FastPokeEmu.Vine.Semantics
import Mathlib.Data.List.Nodup

/-! The interpreter against lexically scoped evaluation.
The interpreter keeps one table for the whole traversal, never removes a binding and refuses to
define a name twice. It agrees with lexical scoping exactly if no name is defined twice and no
operator divides by zero, in a branch that is not chosen, either.
-/

namespace FastPokeEmu.Interpreter

open FastPokeEmu.Vine List Option

/-- Values of the variables and memory bytes that are visible at an expression. -/
structure Scope where
  var : Var → Option I64
  byte : I64 → Option I64

/-- The scope of the body of a `Let`; the variable may shadow an outer one. -/
def Scope.define (scope : Scope) (v : Var) (value : I64) : Scope :=
  { scope with var := Function.update scope.var v (some value) }

def Scope.mem (scope : Scope) : Exp → Option I64
  | .const _ i => scope.byte i
  | _ => none

/-- The value of an expression in a scope: a definition is visible in the body of its `Let`
only, and a conditional has the value of the branch that is chosen.
-/
def lexicalValue : Exp → Scope → Option Value
  | .binOp op e1 e2, scope => do
      let v1 ← lexicalValue e1 scope
      let v2 ← lexicalValue e2 scope
      foldBinOp op v1 v2
  | .unOp op e1, scope => (lexicalValue e1 scope).map (foldUnOp op)
  | .cast op ty e1, scope => (lexicalValue e1 scope).map (foldCast op ty)
  | .ite ce te fe, scope => do
      let c ← lexicalValue ce scope
      if boolOfConst c then lexicalValue te scope else lexicalValue fe scope
  | .const ty value, _ => some ⟨ty, value⟩
  | .mem _ addr ty, scope => (scope.mem addr).map (fun value => ⟨ty, value⟩)
  | .temp v, scope => (scope.var v).map (fun value => ⟨v.typ, value⟩)
  | .letTemp v e1 e2, scope => do
      let d ← lexicalValue e1 scope
      lexicalValue e2 (scope.define v d.bits)
  | .unsupported, _ => none

/-- The expression lies in the supported fragment, and none of its subexpressions divides by
zero, whether or not its value is needed.
-/
def Safe : Exp → Scope → Prop
  | .binOp op e1 e2, scope =>
    Safe e1 scope
    ∧ Safe e2 scope
    ∧ ∀ v1 ∈ lexicalValue e1 scope,
        ∀ v2 ∈ lexicalValue e2 scope, (foldBinOp op v1 v2).isSome = true
  | .unOp _ e1, scope | .cast _ _ e1, scope => Safe e1 scope
  | .ite ce te fe, scope => Safe ce scope ∧ Safe te scope ∧ Safe fe scope
  | .const _ _, _ | .temp _, _ => True
  | .mem _ addr _, _ => ∃ ty i, addr = .const ty i
  | .letTemp v e1 e2, scope =>
    Safe e1 scope ∧ ∀ d ∈ lexicalValue e1 scope, Safe e2 (scope.define v d.bits)
  | .unsupported, _ => False

/-- The scope that a context stands for. -/
def Ctx.scope (ctx : Ctx) : Scope where
  var v := ctx (mkvar v)
  byte i := ctx (memByteName i)

/-- The memory bytes that an expression reads. -/
def bytes : Exp → List I64
  | .binOp _ e1 e2 => bytes e1 ++ bytes e2
  | .unOp _ e1 | .cast _ _ e1 => bytes e1
  | .ite ce te fe => bytes ce ++ bytes te ++ bytes fe
  | .letTemp _ e1 e2 => bytes e1 ++ bytes e2
  | .mem _ (.const _ i) _ => [i]
  | .mem _ _ _ | .const _ _ | .temp _ | .unsupported => []

/-- The names that `Let`s of an expression define, each as often as it is defined. -/
def binders : Exp → List String
  | .binOp _ e1 e2 => binders e2 ++ binders e1
  | .unOp _ e1 | .cast _ _ e1 => binders e1
  | .ite ce te fe => binders fe ++ (binders te ++ binders ce)
  | .letTemp v e1 e2 => binders e1 ++ (mkvar v :: binders e2)
  | .mem _ _ _ | .const _ _ | .temp _ | .unsupported => []

/-- The context binds the free variables and the memory bytes of an expression. -/
structure Binds (ctx : Ctx) (e : Exp) : Prop where
  var : ∀ v ∈ e.free, (ctx (mkvar v)).isSome = true
  byte : ∀ i ∈ bytes e, (ctx (memByteName i)).isSome = true

/-- A context and a scope give the same values to what an expression reads. -/
structure Reads (ctx : Ctx) (scope : Scope) (e : Exp) : Prop where
  var : ∀ v ∈ e.free, ∃ x, ctx (mkvar v) = some x ∧ scope.var v = some x
  byte : ∀ i ∈ bytes e, ∃ x, ctx (memByteName i) = some x ∧ scope.byte i = some x

/-- Definitions that can be added to a context one after the other. -/
structure Fresh (ctx : Ctx) (names : List String) : Prop where
  distinct : names.Nodup
  absent : ∀ name ∈ names, ctx name = none

/-- A later context defines some more names. -/
structure Adds (names : List String) (ctx after : Ctx) : Prop where
  kept : ∀ name, name ∉ names → after name = ctx name
  bound : ∀ name ∈ names, (after name).isSome = true

theorem Reads.mono {ctx : Ctx} {scope : Scope} {e part : Exp} (reads : Reads ctx scope e)
    (var : ∀ v ∈ part.free, v ∈ e.free) (byte : ∀ i ∈ bytes part, i ∈ bytes e)
    : Reads ctx scope part :=
  ⟨fun v mem => reads.var v (var v mem), fun i mem => reads.byte i (byte i mem)⟩

/-- Definitions of new names do not disturb what an expression reads. -/
theorem Reads.after {ctx after : Ctx} {scope : Scope} {e : Exp} {names : List String}
    (reads : Reads ctx scope e) (fresh : Fresh ctx names) (adds : Adds names ctx after)
    : Reads after scope e := by
  have kept {name : String} {x : I64} (bound : ctx name = some x) : after name = some x := by
    rw [adds.kept name (fun mem => ?_), bound]
    rw [fresh.absent name mem] at bound
    cases bound
  constructor
  · intro v mem
    obtain ⟨x, bound, value⟩ := reads.var v mem
    exact ⟨x, kept bound, value⟩
  · intro i mem
    obtain ⟨x, bound, value⟩ := reads.byte i mem
    exact ⟨x, kept bound, value⟩

theorem Fresh.left {ctx : Ctx} {first second : List String}
    (fresh : Fresh ctx (first ++ second))
    : Fresh ctx first :=
  ⟨(nodup_append.mp fresh.distinct).1,
    fun name mem => fresh.absent name (mem_append_left _ mem)⟩

theorem Fresh.right {ctx after : Ctx} {first second : List String}
    (fresh : Fresh ctx (first ++ second)) (adds : Adds first ctx after)
    : Fresh after second := by
  obtain ⟨_, distinct, disjoint⟩ := nodup_append.mp fresh.distinct
  refine ⟨distinct, fun name mem => ?_⟩
  rw [adds.kept name (fun earlier => disjoint name earlier name mem rfl)]
  exact fresh.absent name (mem_append_right _ mem)

theorem Fresh.append {ctx after : Ctx} {first second : List String} (fresh : Fresh ctx first)
    (adds : Adds first ctx after) (later : Fresh after second)
    : Fresh ctx (first ++ second) := by
  have ne : ∀ name ∈ second, name ∉ first := by
    intro name mem earlier
    have bound := adds.bound name earlier
    rw [later.absent name mem] at bound
    cases bound
  constructor
  · apply nodup_append.mpr
    refine ⟨fresh.distinct, later.distinct, fun name earlier other mem same => ?_⟩
    exact ne other mem (same ▸ earlier)
  · intro name mem
    rcases mem_append.mp mem with earlier | mem
    · exact fresh.absent name earlier
    · rw [← adds.kept name (ne name mem)]
      exact later.absent name mem

theorem Adds.nil (ctx : Ctx) : Adds [] ctx ctx := ⟨fun _ _ => rfl, forall_mem_nil _⟩

theorem Adds.append {ctx middle after : Ctx} {first second : List String}
    (earlier : Adds first ctx middle) (later : Adds second middle after)
    : Adds (first ++ second) ctx after := by
  constructor
  · intro name outside
    rw [mem_append, not_or] at outside
    rw [later.kept name outside.2, earlier.kept name outside.1]
  · intro name mem
    by_cases last : name ∈ second
    · exact later.bound name last
    · rw [later.kept name last]
      exact earlier.bound name ((mem_append.mp mem).resolve_right last)

theorem ctxSet_of_fresh {ctx : Ctx} {name : String} (absent : ctx name = none) (value : I64)
    : ∃ after, ctxSet ctx name value = some after
        ∧ after name = some value
        ∧ Adds [name] ctx after := by
  refine ⟨_, if_neg (by simp [absent]), if_pos rfl, ?_, ?_⟩
  · intro other outside
    exact if_neg (fun same => outside (mem_singleton.mpr same))
  · intro other mem
    rw [mem_singleton.mp mem]
    exact congrArg Option.isSome (if_pos rfl)

theorem fresh_of_ctxSet {ctx after : Ctx} {name : String} {value : I64}
    (defined : ctxSet ctx name value = some after)
    : Fresh ctx [name] ∧ Adds [name] ctx after := by
  have absent : ctx name = none := by
    by_contra bound
    rw [ctxSet, if_pos (isSome_iff_ne_none.mpr bound)] at defined
    cases defined
  obtain ⟨_, same, _, adds⟩ := ctxSet_of_fresh absent value
  cases defined.symm.trans same
  refine ⟨⟨nodup_singleton name, fun other mem => ?_⟩, adds⟩
  rw [mem_singleton.mp mem]
  exact absent

/-- An evaluation that succeeds has defined every binder, and each of them was new.
Witness: induction on the expression, in the order of the traversal.
-/
theorem loop_defines (e : Exp) {ctx after : Ctx} {value : Value}
    (returned : loop e ctx = some (value, after))
    : Fresh ctx (binders e) ∧ Adds (binders e) ctx after := by
  induction e generalizing ctx after value with
  | binOp op e1 e2 ih1 ih2 =>
    simp only [loop, bind_eq_bind, bind_eq_some_iff] at returned
    obtain ⟨⟨v2, middle⟩, second, ⟨v1, last⟩, first, _, _, final⟩ := returned
    cases final
    obtain ⟨fresh2, adds2⟩ := ih2 second
    obtain ⟨fresh1, adds1⟩ := ih1 first
    exact ⟨fresh2.append adds2 fresh1, adds2.append adds1⟩
  | unOp op e1 ih | cast op ty e1 ih =>
    simp only [loop, bind_eq_bind, bind_eq_some_iff] at returned
    obtain ⟨⟨v1, last⟩, first, final⟩ := returned
    cases final
    exact ih first
  | ite ce te fe ihc iht ihf =>
    simp only [loop, bind_eq_bind, bind_eq_some_iff] at returned
    obtain ⟨⟨f, ctx1⟩, third, ⟨t, ctx2⟩, second, ⟨c, ctx3⟩, first, final⟩ := returned
    cases final
    obtain ⟨freshF, addsF⟩ := ihf third
    obtain ⟨freshT, addsT⟩ := iht second
    obtain ⟨freshC, addsC⟩ := ihc first
    exact ⟨freshF.append addsF (freshT.append addsT freshC), addsF.append (addsT.append addsC)⟩
  | letTemp v e1 e2 ih1 ih2 =>
    simp only [loop, bind_eq_bind, bind_eq_some_iff] at returned
    obtain ⟨⟨d, ctx1⟩, first, ctx2, defined, second⟩ := returned
    obtain ⟨fresh1, adds1⟩ := ih1 first
    obtain ⟨fresh, adds⟩ := fresh_of_ctxSet defined
    obtain ⟨fresh2, adds2⟩ := ih2 second
    exact ⟨fresh1.append adds1 (fresh.append adds fresh2), adds1.append (adds.append adds2)⟩
  | mem | temp =>
    obtain ⟨_, _, final⟩ := map_eq_some_iff.mp returned
    cases final
    exact ⟨⟨nodup_nil, forall_mem_nil _⟩, Adds.nil ctx⟩
  | const ty value =>
    cases returned
    exact ⟨⟨nodup_nil, forall_mem_nil _⟩, Adds.nil ctx⟩
  | unsupported => cases returned

/-- The body of a `Let` reads the new value, and what was visible outside. -/
theorem Reads.define {ctx middle after : Ctx} {scope : Scope} {v : Var} {e1 e2 : Exp}
    {value : I64} {names : List String} (reads : Reads ctx scope (.letTemp v e1 e2))
    (fresh : Fresh ctx names) (adds : Adds names ctx middle)
    (absent : ctx (mkvar v) = none) (here : after (mkvar v) = some value)
    (defined : Adds [mkvar v] middle after)
    : Reads after (scope.define v value) e2 := by
  have kept {name : String} {x : I64} (bound : ctx name = some x) : after name = some x := by
    have other : name ∉ [mkvar v] := by
      intro same
      rw [mem_singleton.mp same, absent] at bound
      cases bound
    have outside : name ∉ names := by
      intro mem
      rw [fresh.absent name mem] at bound
      cases bound
    rw [defined.kept name other, adds.kept name outside, bound]
  constructor
  · intro w mem
    by_cases same : w = v
    · exact ⟨value, same ▸ here, same ▸ Function.update_self v _ _⟩
    · have outer : w ∈ (Exp.letTemp v e1 e2).free := by
        simp only [Exp.free, mem_append, mem_filter]
        exact .inr ⟨mem, by simpa using same⟩
      obtain ⟨x, bound, visible⟩ := reads.var w outer
      exact ⟨x, kept bound, (Function.update_of_ne same _ _).trans visible⟩
  · intro i mem
    obtain ⟨x, bound, visible⟩ := reads.byte i (mem_append_right _ mem)
    exact ⟨x, kept bound, visible⟩

/-- The interpreter returns the value of a safe expression, and raises an exception otherwise. -/
def Computes (safe : Prop) (ran : Option (Value × Ctx)) (value : Option Value) : Prop :=
  (safe ∧ ∃ v after, value = some v ∧ ran = some (v, after)) ∨ (¬ safe ∧ ran = none)

theorem Computes.bind {part safe : Prop} {ran : Option (Value × Ctx)} {inner outer : Option Value}
    {f : Value × Ctx → Option (Value × Ctx)} (first : Computes part ran inner)
    (needs : safe → part)
    (next
      : ∀ v after, part → inner = some v → ran = some (v, after)
          → Computes safe (f (v, after)) outer)
    : Computes safe (ran.bind f) outer := by
  rcases first with ⟨holds, v, after, value, rfl⟩ | ⟨not, rfl⟩
  · exact next v after holds value rfl
  · exact .inr ⟨fun safe => not (needs safe), rfl⟩

/-- If all binders are new, then the interpreter returns the lexical value, or it raises an
exception because some subexpression has no value.
Witness: induction on the expression. Operands are visited from right to left; the binders that
are left behind do not disturb the next one.
-/
theorem loop_lexical (e : Exp) {ctx : Ctx} {scope : Scope} (reads : Reads ctx scope e)
    (fresh : Fresh ctx (binders e))
    : Computes (Safe e scope) (loop e ctx) (lexicalValue e scope) := by
  induction e generalizing ctx scope with
  | binOp op e1 e2 ih1 ih2 =>
    have reads1 : Reads ctx scope e1 :=
      reads.mono (fun _ => mem_append_left _) (fun _ => mem_append_left _)
    have reads2 : Reads ctx scope e2 :=
      reads.mono (fun _ => mem_append_right _) (fun _ => mem_append_right _)
    refine (ih2 reads2 fresh.left).bind (·.2.1) (fun v2 middle safe2 value2 ran2 => ?_)
    have adds := (loop_defines e2 ran2).2
    refine (ih1 (reads1.after fresh.left adds) (fresh.right adds)).bind (·.1)
      (fun v1 after safe1 value1 _ => ?_)
    cases folded : foldBinOp op v1 v2 with
    | none =>
      refine .inr ⟨fun safe => ?_, by simp [folded]⟩
      have divides := safe.2.2 v1 value1 v2 value2
      rw [folded] at divides
      cases divides
    | some v =>
      refine .inl ⟨⟨safe1, safe2, ?_⟩, v, after, ?_, by simp [folded]⟩
      · intro w1 other1 w2 other2
        cases value1.symm.trans other1
        cases value2.symm.trans other2
        rw [folded]
        rfl
      · simp [lexicalValue, value1, value2, folded]
  | unOp op e1 ih =>
    refine (ih (reads.mono (fun _ => id) (fun _ => id)) fresh).bind id ?_
    intro v after safe value _
    exact .inl ⟨safe, foldUnOp op v, after, by simp [lexicalValue, value], rfl⟩
  | cast op ty e1 ih =>
    refine (ih (reads.mono (fun _ => id) (fun _ => id)) fresh).bind id ?_
    intro v after safe value _
    exact .inl ⟨safe, foldCast op ty v, after, by simp [lexicalValue, value], rfl⟩
  | ite ce te fe ihc iht ihf =>
    have readsC : Reads ctx scope ce :=
      reads.mono (fun _ member => mem_append_left _ (mem_append_left _ member))
        (fun _ member => mem_append_left _ (mem_append_left _ member))
    have readsT : Reads ctx scope te :=
      reads.mono (fun _ member => mem_append_left _ (mem_append_right _ member))
        (fun _ member => mem_append_left _ (mem_append_right _ member))
    have readsF : Reads ctx scope fe :=
      reads.mono (fun _ => mem_append_right _) (fun _ => mem_append_right _)
    refine (ihf readsF fresh.left).bind (·.2.2) (fun f ctx1 safeF valueF ranF => ?_)
    have addsF := (loop_defines fe ranF).2
    have fresh1 := fresh.right addsF
    refine (iht (readsT.after fresh.left addsF) fresh1.left).bind (·.2.1)
      (fun t ctx2 safeT valueT ranT => ?_)
    have addsT := (loop_defines te ranT).2
    refine (ihc ((readsC.after fresh.left addsF).after fresh1.left addsT)
      (fresh1.right addsT)).bind (·.1) (fun c ctx3 safeC valueC _ => ?_)
    refine .inl ⟨⟨safeC, safeT, safeF⟩, if boolOfConst c then t else f, ctx3, ?_, rfl⟩
    cases chosen : boolOfConst c with
    | true => simp [lexicalValue, valueC, chosen, valueT]
    | false => simp [lexicalValue, valueC, chosen, valueF]
  | const ty value => exact .inl ⟨trivial, _, ctx, rfl, rfl⟩
  | temp v =>
    obtain ⟨x, bound, visible⟩ := reads.var v (mem_singleton.mpr rfl)
    exact .inl ⟨trivial, ⟨v.typ, x⟩, ctx, by simp [lexicalValue, visible], by simp [loop, bound]⟩
  | mem v addr ty _ =>
    cases addr with
    | const addrTy i =>
      obtain ⟨x, bound, visible⟩ := reads.byte i (mem_singleton.mpr rfl)
      exact .inl ⟨⟨addrTy, i, rfl⟩, ⟨ty, x⟩, ctx, by simp [lexicalValue, Scope.mem, visible],
        by simp [loop, evalMem, bound]⟩
    | binOp | unOp | cast | ite | temp | mem | letTemp | unsupported =>
      refine .inr ⟨fun safe => ?_, rfl⟩
      obtain ⟨_, _, same⟩ := safe
      cases same
  | letTemp v e1 e2 ih1 ih2 =>
    have reads1 : Reads ctx scope e1 :=
      reads.mono (fun _ => mem_append_left _) (fun _ => mem_append_left _)
    refine (ih1 reads1 fresh.left).bind (·.1) (fun d middle safe1 value1 ran1 => ?_)
    have adds := (loop_defines e1 ran1).2
    have fresh1 : Fresh middle ([mkvar v] ++ binders e2) := fresh.right adds
    have absent : middle (mkvar v) = none := fresh1.absent _ mem_cons_self
    obtain ⟨after, set, here, defined⟩ := ctxSet_of_fresh absent d.bits
    have reads2 : Reads after (scope.define v d.bits) e2 :=
      reads.define fresh.left adds
        (fresh.absent _ (mem_append_right _ mem_cons_self)) here defined
    simp only [set]
    rcases ih2 reads2 (fresh1.right defined) with
      ⟨safe2, value, last, value2, ran2⟩ | ⟨not2, raised⟩
    · refine .inl ⟨⟨safe1, fun other same => ?_⟩, value, last,
        by simp [lexicalValue, value1, value2], ran2⟩
      cases value1.symm.trans same
      exact safe2
    · exact .inr ⟨fun safe => not2 (safe.2 d value1), raised⟩
  | unsupported => exact .inr ⟨id, rfl⟩

/-- For every expression and every context that binds its free variables and memory bytes: the
interpreter returns the lexical value and leaves all bound names as they were, exactly if no
subexpression divides by zero, no two `Let`s define the same name, and none defines a name that
is bound already.
-/
theorem evalExp_lexical_iff (e : Exp) {ctx : Ctx} (binds : Binds ctx e)
    : (∃ value after,
        lexicalValue e ctx.scope = some value
        ∧ evalExp e ctx = some (value.bits, after)
        ∧ ∀ name, (ctx name).isSome = true → after name = ctx name)
      ↔ Safe e ctx.scope ∧ (binders e).Nodup ∧ ∀ name ∈ binders e, ctx name = none := by
  have reads : Reads ctx ctx.scope e := by
    constructor
    · intro v member
      obtain ⟨x, bound⟩ := isSome_iff_exists.mp (binds.var v member)
      exact ⟨x, bound, bound⟩
    · intro i member
      obtain ⟨x, bound⟩ := isSome_iff_exists.mp (binds.byte i member)
      exact ⟨x, bound, bound⟩
  constructor
  · intro agrees
    obtain ⟨value, after, _, returned, _⟩ := agrees
    obtain ⟨⟨result, last⟩, ran, _⟩ := map_eq_some_iff.mp returned
    have fresh := (loop_defines e ran).1
    rcases loop_lexical e reads fresh with ⟨safe, _⟩ | ⟨_, raised⟩
    · exact ⟨safe, fresh.distinct, fresh.absent⟩
    · rw [raised] at ran
      cases ran
  · intro fits
    obtain ⟨safe, distinct, absent⟩ := fits
    rcases loop_lexical e reads ⟨distinct, absent⟩ with
      ⟨_, value, after, lexical, ran⟩ | ⟨not, _⟩
    · refine ⟨value, after, lexical, by rw [evalExp, ran]; rfl, fun name bound => ?_⟩
      apply (loop_defines e ran).2.kept name
      intro member
      rw [absent name member] at bound
      cases bound
    · exact (not safe).elim

/-- The supported fragment without divisions. -/
def Supported : Exp → Prop
  | .binOp op e1 e2 => divides op = false ∧ Supported e1 ∧ Supported e2
  | .unOp _ e1 | .cast _ _ e1 => Supported e1
  | .ite ce te fe => Supported ce ∧ Supported te ∧ Supported fe
  | .letTemp _ e1 e2 => Supported e1 ∧ Supported e2
  | .mem _ addr _ => ∃ ty i, addr = .const ty i
  | .const _ _ | .temp _ => True
  | .unsupported => False

theorem safe_of_supported {e : Exp} (supported : Supported e) (scope : Scope) : Safe e scope := by
  induction e generalizing scope with
  | binOp op e1 e2 ih1 ih2 =>
    refine ⟨ih1 supported.2.1 scope, ih2 supported.2.2 scope, fun v1 _ v2 _ => ?_⟩
    exact isSome_iff_exists.mpr (foldBinOp_isSome supported.1 v1 v2)
  | unOp op e1 ih | cast op ty e1 ih => exact ih supported scope
  | ite ce te fe ihc iht ihf =>
    exact ⟨ihc supported.1 scope, iht supported.2.1 scope, ihf supported.2.2 scope⟩
  | letTemp v e1 e2 ih1 ih2 => exact ⟨ih1 supported.1 scope, fun _ _ => ih2 supported.2 _⟩
  | mem | unsupported => exact supported
  | const | temp => exact trivial

/-- `Let` of a temporary whose body is the temporary. -/
def defineT (id : Nat) (value : I64) : Exp :=
  .letTemp ⟨id, "t", .reg32⟩ (.const .reg32 value) (.temp ⟨id, "t", .reg32⟩)

/-- Two `Let`s of different variables. -/
theorem evalExp_lexical_iff_distinct
    : ∃ value after,
        lexicalValue (.binOp .plus (defineT 1 1) (defineT 2 2)) (Ctx.scope fun _ => none)
          = some value
        ∧ evalExp (.binOp .plus (defineT 1 1) (defineT 2 2)) (fun _ => none)
          = some (value.bits, after)
        ∧ ∀ name, ((fun _ => none : Ctx) name).isSome = true → after name = none := by
  have supported : Supported (.binOp .plus (defineT 1 1) (defineT 2 2)) :=
    ⟨rfl, ⟨trivial, trivial⟩, trivial, trivial⟩
  have closed : (Exp.binOp .plus (defineT 1 1) (defineT 2 2)).free = [] := by decide
  have distinct : (binders (.binOp .plus (defineT 1 1) (defineT 2 2))).Nodup := by
    decide +kernel
  refine (evalExp_lexical_iff _ ⟨?_, forall_mem_nil _⟩).mpr
    ⟨safe_of_supported supported _, distinct, fun _ _ => rfl⟩
  rw [closed]
  exact forall_mem_nil _

/-- The sum of two `Let`s of one variable is well typed, closed and has a value; the interpreter
raises an exception.
-/
theorem evalExp_same_variable_raises
    : let e := Exp.binOp .plus (defineT 1 1) (defineT 1 2)
      e.typeOf = some .reg32
      ∧ e.free = []
      ∧ (lexicalValue e (Ctx.scope fun _ => none)).map Value.bits = some 3
      ∧ (evalExp e (fun _ => none)).isNone = true := by
  decide +kernel

end FastPokeEmu.Interpreter
