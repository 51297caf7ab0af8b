import FastPokeEmu.Floppy.Root

/-! Explicit operands of an instruction (`get_explicit_op` of `gen_floppy_image.py`).
The loop variable has the name of the parameter, so the number asked for is never read.
-/

namespace FastPokeEmu.Floppy.ExplicitOperands

inductive Visibility
  | explicit | implicit | suppressed
  deriving DecidableEq

inductive Kind
  /-- A register, by its name in `reg_map`. -/
  | register (name : String)
  /-- `XED_OPERAND_AGEN`, `XED_OPERAND_MEM0` or `XED_OPERAND_MEM1`. -/
  | memory
  | other
  deriving DecidableEq

/-- What pyxed reports of an operand. -/
structure Listed where
  kind : Kind
  len : Nat
  visibility : Visibility
  deriving DecidableEq

inductive OpText
  | reg (name : String)
  | mem (m : MemOp)
  deriving DecidableEq

/-- `(op_str, op_len, is_mem)` -/
abbrev Description := Option OpText × Nat × Bool

/-- `(None, 0, False)` -/
def nothing : Description := (none, 0, false)

def isExplicit (op : Listed) : Bool := op.visibility = .explicit

/-- `get_reg_op` -/
def getRegOp (name : String) (len : Nat) : String × Nat :=
  (if name = "gdtr" then "" else name, len)

/-- The loop; `i` is the position of the first operand that is left. -/
def explicitLoop (inst : Inst) : List Listed → (i count : Nat) → Description
  | [], _, _ => nothing
  | op :: rest, i, count =>
    if isExplicit op then
      if count = i then
        match op.kind with
        | .register name =>
          let reg := getRegOp name op.len
          if reg.1 = "" ∨ reg.2 = 0 then nothing else (some (.reg reg.1), reg.2, false)
        | .memory => (some (.mem (getMemOp inst 0).1), op.len, true)
        -- neither returned nor counted
        | .other => explicitLoop inst rest (i + 1) count
      else explicitLoop inst rest (i + 1) (count + 1)
    else explicitLoop inst rest (i + 1) count

def getExplicitOp (inst : Inst) (operands : List Listed) (_i : Nat) : Description :=
  explicitLoop inst operands 0 0

/-- Registers with a name and memory operands have a description. -/
def Kind.text (inst : Inst) : Kind → Option OpText
  | .register name => if name = "" ∨ name = "gdtr" then none else some (.reg name)
  | .memory => some (.mem (getMemOp inst 0).1)
  | .other => none

def describe (inst : Inst) (op : Listed) : Description :=
  (op.kind.text inst).elim nothing (fun text => (some text, op.len, op.kind = .memory))

def explicitOps (operands : List Listed) : List Listed := operands.filter isExplicit

/-- The description of the explicit operand number `n`. -/
def explicitOp (inst : Inst) (operands : List Listed) (n : Nat) : Description :=
  ((explicitOps operands)[n]?).elim nothing (describe inst)

section

variable {inst : Inst} {operands : List Listed} {op other : Listed} {n i count : Nat}

theorem describe_fst : (describe inst op).1 = op.kind.text inst := by
  unfold describe
  cases op.kind.text inst <;> rfl

theorem describe_eq_nothing_iff : describe inst op = nothing ↔ op.kind.text inst = none := by
  unfold describe
  cases op.kind.text inst <;> simp [nothing]

theorem Kind.text_inj {kind kind' : Kind} (named : (kind.text inst).isSome)
    (same : kind.text inst = kind'.text inst)
    : kind = kind' := by
  cases kind <;> cases kind' <;> grind [text]

theorem describe_eq_iff (named : (op.kind.text inst).isSome)
    : describe inst op = describe inst other ↔ op.kind = other.kind ∧ op.len = other.len := by
  constructor
  · intro same
    have kinds : op.kind = other.kind :=
      Kind.text_inj named (by rw [← describe_fst, same, describe_fst])
    obtain ⟨text, found⟩ := Option.isSome_iff_exists.mp named
    simp only [describe, ← kinds, found, Option.elim_some, Prod.mk.injEq, and_true, true_and]
      at same
    exact ⟨kinds, same⟩
  · rintro ⟨kinds, lengths⟩
    rw [describe, describe, kinds, lengths]

theorem explicitOp_eq_nothing_iff
    : explicitOp inst operands n = nothing
      ↔ (explicitOps operands).length ≤ n
        ∨ ∃ op, (explicitOps operands)[n]? = some op ∧ op.kind.text inst = none := by
  cases found : (explicitOps operands)[n]? with
  | none => simp [explicitOp, List.getElem?_eq_none_iff.mp found]
  | some op =>
    have inside := (List.getElem?_eq_some_iff.mp found).1
    simp [explicitOp, found, describe_eq_nothing_iff, Nat.not_le.mpr inside]

theorem explicitLoop_behind (behind : count < i)
    : explicitLoop inst operands i count = nothing := by
  induction operands generalizing i count with
  | nil => rfl
  | cons op rest ih =>
    rw [explicitLoop]
    by_cases explicit : isExplicit op = true
    · rw [if_pos explicit, if_neg (Nat.ne_of_lt behind)]
      exact ih (Nat.succ_lt_succ behind)
    · rw [if_neg explicit]
      exact ih (Nat.lt_succ_of_lt behind)

/-- Operands the loop returns if they come first. -/
def Listed.handled (inst : Inst) (op : Listed) : Bool :=
  isExplicit op && (op.kind.text inst).isSome && (op.kind = .memory || op.len ≠ 0)

def firstOp (inst : Inst) (operands : List Listed) : Option Listed :=
  operands.head?.filter (Listed.handled inst)

/-- Whatever number is asked for, only the first operand of all counts. -/
theorem getExplicitOp_eq
    : getExplicitOp inst operands n = (firstOp inst operands).elim nothing (describe inst) := by
  cases operands with
  | nil => rfl
  | cons op rest =>
    have later : explicitLoop inst rest 1 0 = nothing := explicitLoop_behind Nat.zero_lt_one
    rw [getExplicitOp, explicitLoop, firstOp, List.head?_cons, Option.filter_some]
    obtain ⟨kind, len, visibility⟩ := op
    by_cases explicit : visibility = .explicit
    · cases kind with
      | register name =>
        by_cases named : name = "" ∨ name = "gdtr"
        · rcases named with rfl | rfl <;>
            simp [isExplicit, explicit, Listed.handled, getRegOp, Kind.text]
        · obtain ⟨filled, other⟩ := not_or.mp named
          by_cases empty : len = 0 <;>
            simp [isExplicit, explicit, Listed.handled, getRegOp, Kind.text, describe, filled,
              other, empty]
      | memory => simp [isExplicit, explicit, Listed.handled, Kind.text, describe]
      | other => simp [isExplicit, explicit, Listed.handled, Kind.text, later]
    · simp [isExplicit, explicit, Listed.handled, later]

end

/-- The function returns what is asked for exactly if the operand asked for is like the first
operand of all, or neither can be returned.
-/
theorem getExplicitOp_selects_iff (inst : Inst) (operands : List Listed) (n : Nat)
    : getExplicitOp inst operands n = explicitOp inst operands n
      ↔ (∃ op nth,
          firstOp inst operands = some op
          ∧ (explicitOps operands)[n]? = some nth
          ∧ op.kind = nth.kind
          ∧ op.len = nth.len)
        ∨ (firstOp inst operands = none
          ∧ ((explicitOps operands).length ≤ n
            ∨ ∃ nth, (explicitOps operands)[n]? = some nth ∧ nth.kind.text inst = none)) := by
  rw [getExplicitOp_eq, ← explicitOp_eq_nothing_iff]
  cases first : firstOp inst operands with
  | none => simp [eq_comm]
  | some op =>
    have handled := (Option.filter_eq_some_iff.mp first).2
    simp only [Listed.handled, Bool.and_eq_true] at handled
    have named := handled.1.2
    cases found : (explicitOps operands)[n]? with
    | none =>
      simp [explicitOp, found, describe_eq_nothing_iff, Option.isSome_iff_ne_none.mp named]
    | some nth => simp [explicitOp, found, describe_eq_iff named]

/-- Of two registers, the first is returned for the second. -/
theorem first_register_for_second
    : let operands : List Listed :=
        [⟨.register "eax", 4, .explicit⟩, ⟨.register "ecx", 4, .explicit⟩]
      ∀ inst,
        explicitOp inst operands 1 = (some (.reg "ecx"), 4, false)
        ∧ getExplicitOp inst operands 1 = (some (.reg "eax"), 4, false) := by
  intro operands inst
  exact ⟨rfl, rfl⟩

end FastPokeEmu.Floppy.ExplicitOperands
