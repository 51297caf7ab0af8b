import Mathlib.Data.List.Basic

/-! Vine expressions as the path-condition interpreter meets them.
Only the integer fragment is spelled out; every other constructor of `Vine.exp` is one
`unsupported` node, because the interpreter rejects all of them alike.
-/

namespace FastPokeEmu.Vine

/-- OCaml's `int64`. -/
abbrev I64 := BitVec 64

/-- The register types of `Vine.typ`. -/
inductive Typ
  | reg1 | reg8 | reg16 | reg32 | reg64
  deriving DecidableEq, Repr

def bitsOfWidth : Typ → Nat
  | .reg1 => 1
  | .reg8 => 8
  | .reg16 => 16
  | .reg32 => 32
  | .reg64 => 64

/-- `Vine.var`: a unique integer, a readable name and a type. -/
structure Var where
  id : Nat
  name : String
  typ : Typ
  deriving DecidableEq, Repr

inductive BinOpType
  | plus | minus | times | divide | sdivide | mod | smod
  | lshift | rshift | arshift | bitand | bitor | xor
  | eq | neq | lt | le | slt | sle
  deriving DecidableEq, Repr

inductive UnOpType
  | neg | not
  deriving DecidableEq, Repr

inductive CastType
  | unsigned | signed | high | low
  deriving DecidableEq, Repr

/-- `V.Lval` is split into its two lvalues, a temporary and a memory cell. -/
inductive Exp
  | binOp (op : BinOpType) (e1 e2 : Exp)
  | unOp (op : UnOpType) (e1 : Exp)
  | const (ty : Typ) (value : I64)
  | temp (v : Var)
  | mem (v : Var) (addr : Exp) (ty : Typ)
  | cast (op : CastType) (ty : Typ) (e1 : Exp)
  | letTemp (v : Var) (e1 e2 : Exp)
  | ite (ce te fe : Exp)
  | unsupported
  deriving DecidableEq, Repr

/-- A constant as `V.Constant(V.Int(ty, v))` carries it. -/
structure Value where
  ty : Typ
  bits : I64
  deriving DecidableEq, Repr

def expTrue : Exp := .const .reg1 1

def expBool (c : Bool) : Value := ⟨.reg1, if c then 1 else 0⟩

/-- `Int64.shift_left` and its two siblings leave counts of 64 and more unspecified; the
host processor reduces them modulo 64.
-/
def shiftLeft (x : I64) (n : Nat) : I64 := x <<< (n % 64)

@[inherit_doc shiftLeft]
def shiftRightLogical (x : I64) (n : Nat) : I64 := x >>> (n % 64)

@[inherit_doc shiftLeft]
def shiftRight (x : I64) (n : Nat) : I64 := x.sshiftRight (n % 64)

/-- Drop the bits above the value's width. -/
def to64 (v : Value) : I64 :=
  let bits := 64 - bitsOfWidth v.ty
  shiftRightLogical (shiftLeft v.bits bits) bits

/-- Sign extend a value from its width. -/
def tos64 (v : Value) : I64 :=
  let bits := 64 - bitsOfWidth v.ty
  shiftRight (shiftLeft v.bits bits) bits

/-- Counts outside `0 .. max` behave like `max`. -/
def toshift (max : Nat) (v : Value) : Nat :=
  let i := (to64 v).toInt
  if i ≤ max ∧ 0 ≤ i then i.toNat else max

def toVal (t : Typ) (v : I64) : Value :=
  let mask := shiftRightLogical (-1) (64 - bitsOfWidth t)
  ⟨t, mask &&& v⟩

def int64Udiv (x y : I64) : Option I64 := if y = 0 then none else some (x.udiv y)

def int64Urem (x y : I64) : Option I64 := (int64Udiv x y).map (fun q => x - y * q)

def int64Div (x y : I64) : Option I64 := if y = 0 then none else some (x.sdiv y)

def int64Rem (x y : I64) : Option I64 := if y = 0 then none else some (x.srem y)

def foldUnOp (op : UnOpType) (v : Value) : Value :=
  match op with
  | .neg => toVal v.ty (-(to64 v))
  | .not => toVal v.ty (~~~(to64 v))

/-- `constant_fold` on a binary operator whose operands are both constants. `none` is
`Division_by_zero`. The result takes the type of the left operand, as in the source.
-/
def foldBinOp (op : BinOpType) (v1 v2 : Value) : Option Value :=
  let t := v1.ty
  match op with
  -- MINUS is rewritten to the addition of the folded negation before anything else
  | .minus => some (toVal t (to64 v1 + to64 (foldUnOp .neg v2)))
  | .plus => some (toVal t (to64 v1 + to64 v2))
  | .times => some (toVal t (to64 v1 * to64 v2))
  | .bitand => some (toVal t (to64 v1 &&& to64 v2))
  | .bitor => some (toVal t (to64 v1 ||| to64 v2))
  | .xor => some (toVal t (to64 v1 ^^^ to64 v2))
  | .eq => some (expBool (to64 v1 == to64 v2))
  | .neq => some (expBool (to64 v1 != to64 v2))
  | .lshift => some (toVal t (shiftLeft (to64 v1) (toshift (bitsOfWidth t) v2)))
  | .rshift => some (toVal t (shiftRightLogical (to64 v1) (toshift (bitsOfWidth t) v2)))
  | .arshift => some (toVal t (shiftRight (tos64 v1) (toshift (bitsOfWidth t) v2)))
  | .divide => (int64Udiv (tos64 v1) (tos64 v2)).map (toVal t)
  | .sdivide => (int64Div (tos64 v1) (tos64 v2)).map (toVal t)
  | .mod => (int64Urem (tos64 v1) (tos64 v2)).map (toVal t)
  | .smod => (int64Rem (tos64 v1) (tos64 v2)).map (toVal t)
  | .slt => some (expBool ((tos64 v1).slt (tos64 v2)))
  | .sle => some (expBool ((tos64 v1).sle (tos64 v2)))
  | .lt => some (expBool ((to64 v1).ult (to64 v2)))
  | .le => some (expBool ((to64 v1).ule (to64 v2)))

def foldCast (op : CastType) (t2 : Typ) (v : Value) : Value :=
  let bits1 := bitsOfWidth v.ty
  let bits := bitsOfWidth t2
  match op with
  | .unsigned => toVal t2 (to64 v)
  | .signed => toVal t2 (tos64 v)
  | .high => toVal t2 (shiftRight (to64 v &&& shiftLeft (-1) (bits1 - bits)) (bits1 - bits))
  | .low => toVal t2 (to64 v &&& ~~~(shiftLeft (-1) bits))

/-- `bool_of_const` matches any integer constant, whatever its type: the name `bool_t` in
its pattern binds instead of comparing.
-/
def boolOfConst (v : Value) : Bool := v.bits != 0

/-- `Formula_manager.conjoin`: a left-nested conjunction, true when empty. -/
def conjoin : List Exp → Exp
  | [] => expTrue
  | e :: el => el.foldl (fun a b => .binOp .bitand a b) e

end FastPokeEmu.Vine
