import Mathlib.Data.List.Induction
import FastPokeEmu.Vine.Semantics

/-! Programs of single paths, as `multi_path.ml` and `diff_behavior.ml` read them: names of
declared variables, renaming of inputs, and the masks that select an output by a path
condition.
-/

namespace FastPokeEmu.Paths

open Vine List

variable {env : Env} {v : Value} {pcOut : List (Var × Var)}

/-- `Str.split` at underscores, given the part read so far; an empty part at the end is
dropped.
-/
def splitRest (current : List Char) : List Char → List (List Char)
  | [] => if current = [] then [] else [current.reverse]
  | c :: rest =>
    if c = '_' then current.reverse :: splitRest [] rest else splitRest (c :: current) rest

/-- `Str.split (Str.regexp_string "_")`: one delimiter at the start is skipped. -/
def splitName : List Char → List (List Char)
  | '_' :: rest => splitRest [] rest
  | name => splitRest [] name

/-- `cleanup_var` and `simplify`: drop the last part of a name, the number of the variable. -/
def cleanupVar (name : String) : String :=
  String.ofList (intercalate ['_'] (splitName name.toList).dropLast)

/-- Everything but a move to a temporary is rejected. -/
inductive Stmt
  | move (v : Var) (e : Exp)
  | unsupported
  deriving DecidableEq, Repr

def toStmt (s : Var × Exp) : Stmt := .move s.1 s.2

/-- New variables by the names of old ones. -/
abbrev Renaming := List (String × Var)

/-- `V.newvar`, given the identifiers that its calls hand out. -/
def newvar (supply : Nat → Nat) (calls : Nat) (name : String) (typ : Typ) : Var :=
  ⟨supply calls, name, typ⟩

def renameVar (map : Renaming) (oldvar : Var) : Var := (map.lookup oldvar.name).getD oldvar

/-- The loop of `rename_var_in_stmt`. Conditional expressions are returned as they are. -/
def renameExp (map : Renaming) : Exp → Exp
  | .binOp op e1 e2 => .binOp op (renameExp map e1) (renameExp map e2)
  | .unOp op e1 => .unOp op (renameExp map e1)
  | .cast op ty e1 => .cast op ty (renameExp map e1)
  | .temp v => .temp (renameVar map v)
  | .mem v addr ty => .mem v (renameExp map addr) ty
  | .letTemp v e1 e2 => .letTemp (renameVar map v) (renameExp map e1) (renameExp map e2)
  | e => e

def renameVarInStmt (map : Renaming) : Stmt → Stmt
  | .move v e => .move (renameVar map v) (renameExp map e)
  | .unsupported => .unsupported

/-- A step of the loop that turns statements into local definitions. -/
def wrapStep (acc : Exp) : Stmt → Option Exp
  | .move v e => some (.letTemp v e acc)
  | .unsupported => none

/-- `ite`: a mask of the path condition selects the output or the rest. -/
def select (pc out : Var) (rest : Exp) : Exp :=
  let c := Exp.cast .signed .reg8 (.temp pc)
  .binOp .bitor (.binOp .bitand c (.temp out)) (.binOp .bitand (.unOp .not c) rest)

def foldexp (pcOut : List (Var × Var)) (base : Exp) : Exp :=
  pcOut.foldl (fun res pair => select pair.1 pair.2 res) base

/-- `fill_map`: a later output goes to the front of the list of its name. -/
def fillMap (map : List (String × List (Var × Var))) (pair : Var × Var)
    : List (String × List (Var × Var)) :=
  let m := cleanupVar pair.2.name
  if (map.lookup m).isSome then
    map.map (fun entry => if entry.1 = m then (m, pair :: entry.2) else entry)
  else map ++ [(m, [pair])]

/-- Path conditions with outputs, for all paths. -/
def pcOutPairs (paths : List (Var × List Var)) : List (Var × Var) :=
  paths.flatMap (fun path => path.2.map (fun out => (path.1, out)))

/-- The table that `pair_pc_outs` fills. -/
def pcOuts (paths : List (Var × List Var)) : List (String × List (Var × Var)) :=
  (pcOutPairs paths).foldl fillMap []

theorem lookup_replace {β : Type} (map : List (String × β)) (m key : String) (f : β → β)
    : (map.map (fun entry => if entry.1 = m then (m, f entry.2) else entry)).lookup key
      = if key = m then (map.lookup key).map f else map.lookup key := by
  induction map with
  | nil => simp
  | cons entry rest ih =>
    obtain ⟨k, value⟩ := entry
    rw [map_cons, lookup_cons]
    by_cases same : key = k
    · subst same
      by_cases isKey : key = m
      · simp [isKey]
      · simp [isKey]
    · have other : (key == k) = false := beq_eq_false_iff_ne.mpr same
      by_cases isKey : k = m
      · have notKey : key ≠ m := isKey ▸ same
        have differs : (key == m) = false := beq_eq_false_iff_ne.mpr notKey
        simp [lookup_cons, isKey, notKey, differs, ih]
      · simp [lookup_cons, isKey, other, ih]

/-- Outputs of one name, the last one first. -/
def pairsOf (m : String) (pairs : List (Var × Var)) : List (Var × Var) :=
  (pairs.filter (fun pair => cleanupVar pair.2.name = m)).reverse

theorem pairsOf_append (m : String) (pairs : List (Var × Var)) (pair : Var × Var)
    : pairsOf m (pairs ++ [pair])
      = if cleanupVar pair.2.name = m then pair :: pairsOf m pairs else pairsOf m pairs := by
  by_cases same : cleanupVar pair.2.name = m
  · simp [pairsOf, filter_append, same]
  · simp [pairsOf, filter_append, same]

theorem lookup_foldl_fillMap (pairs : List (Var × Var)) (m : String)
    : (pairs.foldl fillMap []).lookup m
      = if pairsOf m pairs = [] then none else some (pairsOf m pairs) := by
  induction pairs using reverseRecOn generalizing m with
  | nil => simp [pairsOf]
  | append_singleton pairs pair ih =>
    rw [foldl_append, foldl_cons, foldl_nil, fillMap, pairsOf_append, ih]
    by_cases empty : pairsOf (cleanupVar pair.2.name) pairs = []
    · rw [if_pos empty, if_neg (by simp), lookup_append, ih]
      by_cases same : cleanupVar pair.2.name = m
      · simp [← same, empty]
      · simp [lookup_cons, same, beq_false_of_ne (Ne.symm same)]
    · rw [if_neg empty, if_pos (by simp),
        lookup_replace _ (cleanupVar pair.2.name) m (pair :: ·), ih]
      by_cases same : cleanupVar pair.2.name = m
      · simp [← same, empty]
      · simp [same, Ne.symm same]

/-- The entries of the table. -/
theorem mem_foldl_fillMap {pairs : List (Var × Var)} {m : String} {v : List (Var × Var)}
    : (m, v) ∈ pairs.foldl fillMap [] ↔ pairsOf m pairs ≠ [] ∧ v = pairsOf m pairs := by
  induction pairs using reverseRecOn generalizing m v with
  | nil => simp [pairsOf]
  | append_singleton pairs pair ih =>
    rw [foldl_append, foldl_cons, foldl_nil, fillMap, pairsOf_append, lookup_foldl_fillMap]
    by_cases empty : pairsOf (cleanupVar pair.2.name) pairs = []
    · rw [if_pos empty, if_neg (by simp), mem_append, ih]
      by_cases same : cleanupVar pair.2.name = m
      · simp [← same, empty]
      · simp [same, Ne.symm same]
    · rw [if_neg empty, if_pos (by simp), mem_map]
      by_cases same : cleanupVar pair.2.name = m
      · simp only [Prod.exists, ih, same, if_true]
        grind
      · simp only [Prod.exists, ih, same, if_false]
        grind

theorem bool_of_reg1 (isBool : v.Of .reg1) : ∃ b, v = expBool b := by
  obtain ⟨t, x⟩ := v
  obtain ⟨rfl, bits⟩ := isBool
  rw [to64_eq] at bits
  have mask : Typ.reg1.mask = 1 := by decide
  simp only [mask] at bits
  have single := BitVec.and_one_eq_setWidth_ofBool_getLsbD (x := x)
  rw [show (1#64 : I64) = 1 from rfl, bits] at single
  cases bit : x.getLsbD 0 with
  | false => exact ⟨false, by rw [single, bit]; rfl⟩
  | true => exact ⟨true, by rw [single, bit]; rfl⟩

theorem byte_mask (isByte : v.Of .reg8) : to64 v &&& 0xff = to64 v := by
  have mask : v.ty.mask = 0xff := by rw [isByte.ty]; decide
  rw [to64_eq, mask, BitVec.and_assoc, BitVec.and_self]

theorem toVal_to64 (isByte : v.Of .reg8) : toVal .reg8 (to64 v) = v := by
  have mask : Typ.reg8.mask = 0xff := by decide
  have same : toVal .reg8 (to64 v) = ⟨.reg8, Typ.reg8.mask &&& to64 v⟩ := rfl
  rw [same, mask, BitVec.and_comm, byte_mask isByte, isByte.bits, ← isByte.ty]

/-- A mask selects the output if the path condition holds, and the rest otherwise. -/
theorem eval_select {M : Meaning} {pc out : Var} {rest : Exp} {b : Bool} {o r : Value}
    (cond : env pc = some (expBool b)) (output : env out = some o) (isByte : o.Of .reg8)
    (other : eval M env rest = some r) (isByte' : r.Of .reg8)
    : eval M env (select pc out rest) = some (if b then o else r) := by
  simp only [select, eval, cond, output, other, Option.map_some, Option.bind_eq_bind,
    Option.bind_some, Option.some.injEq]
  have both (mask : Value) (v : Value)
      : M.binOp .bitand mask v = toVal mask.ty (to64 mask &&& to64 v) := rfl
  have either (v w : Value) : M.binOp .bitor v w = toVal v.ty (to64 v ||| to64 w) := rfl
  have ones : to64 ⟨.reg8, 0xff⟩ = 0xff := by decide
  have zeros : to64 ⟨.reg8, 0⟩ = 0#64 := by decide
  have nothing : toVal .reg8 0#64 = ⟨.reg8, 0⟩ := by decide
  cases b with
  | true =>
    have mask : foldCast .signed .reg8 (expBool true) = ⟨.reg8, 0xff⟩ := by decide
    have inverse : foldUnOp .not ⟨.reg8, 0xff⟩ = ⟨.reg8, 0⟩ := by decide
    rw [mask, inverse, both, both, ones, zeros, BitVec.and_comm, byte_mask isByte,
      toVal_to64 isByte, BitVec.zero_and, either, nothing, zeros, BitVec.or_zero, isByte.ty,
      toVal_to64 isByte]
    rfl
  | false =>
    have mask : foldCast .signed .reg8 (expBool false) = ⟨.reg8, 0⟩ := by decide
    have inverse : foldUnOp .not ⟨.reg8, 0⟩ = ⟨.reg8, 0xff⟩ := by decide
    rw [mask, inverse, both, both, ones, zeros, BitVec.zero_and, nothing, either, zeros,
      BitVec.zero_or, BitVec.and_comm, byte_mask isByte', toVal_to64 isByte', toVal_to64 isByte']
    rfl

/-- What the masks select: the last output whose path condition holds, or the base. -/
def selected (env : Env) (pcOut : List (Var × Var)) (base : Value) : Value :=
  pcOut.foldl
    (fun res pair => if env pair.1 = some (expBool true) then (env pair.2).getD res else res)
    base

/-- Path conditions and outputs have values of their types. -/
def Evaluated (env : Env) (pcOut : List (Var × Var)) : Prop :=
  ∀ pair ∈ pcOut,
    (∃ b, env pair.1 = some (expBool b)) ∧ ∃ o, env pair.2 = some o ∧ o.Of .reg8

theorem eval_foldexp {M : Meaning} (evaluated : Evaluated env pcOut) {base : Exp} {value : Value}
    (start : eval M env base = some value) (isByte : value.Of .reg8)
    : eval M env (foldexp pcOut base) = some (selected env pcOut value)
      ∧ (selected env pcOut value).Of .reg8 := by
  induction pcOut generalizing base value with
  | nil => exact ⟨start, isByte⟩
  | cons pair rest ih =>
    obtain ⟨⟨b, cond⟩, o, output, isOutput⟩ := evaluated pair mem_cons_self
    have step := eval_select cond output isOutput start isByte
    have next : (if env pair.1 = some (expBool true) then (env pair.2).getD value else value)
        = if b then o else value := by
      cases b with
      | true => simp [cond, output]
      | false => simp [cond, expBool]
    have isNext : (if b then o else value).Of .reg8 := by
      split
      · exact isOutput
      · exact isByte
    have later := ih (fun pair' mem => evaluated pair' (mem_cons_of_mem _ mem)) step isNext
    simpa only [foldexp, selected, foldl_cons, next] using later

theorem selected_base (base : Value) (none : ∀ pair ∈ pcOut, env pair.1 ≠ some (expBool true))
    : selected env pcOut base = base := by
  induction pcOut with
  | nil => rfl
  | cons pair rest ih =>
    rw [selected, foldl_cons, if_neg (none pair mem_cons_self)]
    exact ih (fun pair' mem => none pair' (mem_cons_of_mem _ mem))

/-- If the paths that are taken give one value, it is selected. -/
theorem selected_value (base : Value)
    (alike : ∀ pair ∈ pcOut, env pair.1 = some (expBool true) → env pair.2 = some v)
    (taken : ∃ pair ∈ pcOut, env pair.1 = some (expBool true))
    : selected env pcOut base = v := by
  induction pcOut generalizing base with
  | nil =>
    obtain ⟨_, none, _⟩ := taken
    cases none
  | cons pair rest ih =>
    rw [selected, foldl_cons]
    by_cases later : ∃ pair' ∈ rest, env pair'.1 = some (expBool true)
    · exact ih _ (fun pair' mem => alike pair' (mem_cons_of_mem _ mem)) later
    · have here : env pair.1 = some (expBool true) := by
        obtain ⟨pair', mem, holds⟩ := taken
        rcases mem_cons.mp mem with rfl | inRest
        · exact holds
        · exact absurd ⟨pair', inRest, holds⟩ later
      rw [if_pos here, alike pair mem_cons_self here]
      exact selected_base v (fun pair' mem holds => later ⟨pair', mem, holds⟩)

theorem free_foldexp {base : Exp} {x : Var}
    : x ∈ (foldexp pcOut base).free ↔ x ∈ base.free ∨ ∃ pair ∈ pcOut, x = pair.1 ∨ x = pair.2 := by
  induction pcOut generalizing base with
  | nil => simp [foldexp]
  | cons pair rest ih =>
    simp only [foldexp, foldl_cons] at ih ⊢
    rw [ih]
    simp only [select, Exp.free, mem_append, mem_cons, not_mem_nil, or_false, exists_eq_or_imp]
    grind

end FastPokeEmu.Paths
