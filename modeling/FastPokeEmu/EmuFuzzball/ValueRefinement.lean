import FastPokeEmu.EmuFuzzball.TestcaseSoundness
import FastPokeEmu.Library.BitDescent

/-! What the refinement of one value returns.
Its bits are those of the current or of the preferred value and it satisfies the path
condition, if evaluating the path condition raises nothing on the way. Bits are visited once,
so a bit that was rejected may have become acceptable in the end.
-/

namespace FastPokeEmu.EmuFuzzball

open FastPokeEmu.Vine List
open FastPokeEmu.Interpreter

/-- The path condition is evaluated, and satisfied. -/
def satisfies (test : I64 → Option Bool) (value : I64) : Bool := test value == some true

theorem satisfies_iff {test : I64 → Option Bool} {value : I64}
    : satisfies test value = true ↔ test value = some true := by
  simp [satisfies]

/-- The value of the variable before bit `i` is visited. -/
def valueAt (test : I64 → Option Bool) (curval prefval : I64) (i : Nat) : I64 :=
  BitDescent.turn (satisfies test) curval prefval i

/-- Nothing that the function evaluates raises an exception: not the path condition with the
preferred value, nor with a value that is tried because the preferred one does not satisfy it.
-/
def Evaluates (test : I64 → Option Bool) (curval prefval : I64) : Prop :=
  (test prefval).isSome = true
  ∧ (test prefval = some true
    ∨ ∀ i < 8,
        (curval ^^^ prefval).getLsbD i = true
        → (test (valueAt test curval prefval i ^^^ bitMask i)).isSome = true)

section

variable {test : I64 → Option Bool} {curval prefval : I64}

theorem bitMask_eq (i : Nat) : bitMask i = .twoPow 64 i := by
  apply BitVec.eq_of_toNat_eq
  simp [bitMask, Nat.one_shiftLeft]

theorem bitMask_and_eq_zero_iff (diff : I64) {i : Nat} (inside : i < 64)
    : bitMask i &&& diff = 0 ↔ diff.getLsbD i = false := by
  have nonzero : BitVec.twoPow 64 i ≠ 0 := by
    intro zero
    have bit := congrArg (BitVec.getLsbD · i) zero
    simp [inside] at bit
  rw [bitMask_eq, BitVec.and_comm, BitVec.and_twoPow]
  cases diff.getLsbD i with
  | false => simp
  | true => simpa using nonzero

theorem refineBit_visited {diff current : I64} {i : Nat} (inside : i < 64)
    (differs : diff.getLsbD i = true)
    : refineBit test diff current i
      = (test (current ^^^ bitMask i)).map
          (fun feasible => if feasible then current ^^^ bitMask i else current) := by
  have visited : ¬ bitMask i &&& diff = 0 := by
    intro zero
    have same := (bitMask_and_eq_zero_iff diff inside).mp zero
    rw [differs] at same
    cases same
  simp only [refineBit, if_neg visited, BitVec.xor_assoc, BitVec.xor_self, BitVec.xor_zero,
    Option.map_eq_bind]
  rfl

/-- One turn of the loop, if the path condition can be evaluated. -/
theorem refineBit_eq {i : Nat} (inside : i < 64)
    (evaluates
      : (curval ^^^ prefval).getLsbD i = true
        → (test (valueAt test curval prefval i ^^^ bitMask i)).isSome = true)
    : refineBit test (curval ^^^ prefval) (valueAt test curval prefval i) i
      = some (valueAt test curval prefval (i + 1)) := by
  have next : valueAt test curval prefval (i + 1)
      = if (curval ^^^ prefval).getLsbD i
            && satisfies test (valueAt test curval prefval i ^^^ bitMask i) then
          valueAt test curval prefval i ^^^ bitMask i
        else valueAt test curval prefval i := by
    rw [bitMask_eq]
    rfl
  rw [next]
  by_cases skipped : (curval ^^^ prefval).getLsbD i = false
  · rw [refineBit, if_pos ((bitMask_and_eq_zero_iff _ inside).mpr skipped), skipped]
    rfl
  · have differs := (Bool.not_eq_false _).mp skipped
    obtain ⟨feasible, tested⟩ := Option.isSome_iff_exists.mp (evaluates differs)
    rw [refineBit_visited inside differs, differs, Bool.true_and, satisfies, tested]
    cases feasible with
    | true => rfl
    | false => rfl

theorem refineBit_none {i : Nat} (inside : i < 64)
    (differs : (curval ^^^ prefval).getLsbD i = true)
    (raises : test (valueAt test curval prefval i ^^^ bitMask i) = none)
    : refineBit test (curval ^^^ prefval) (valueAt test curval prefval i) i = none := by
  rw [refineBit_visited inside differs, raises, Option.map_none]

/-- The loop returns exactly if every evaluation succeeds, with the value of the descent. -/
theorem refineBits_eq_some_iff (test : I64 → Option Bool) (curval prefval newval : I64)
    {n : Nat} (inside : n ≤ 64)
    : (List.range n).foldlM (refineBit test (curval ^^^ prefval)) curval = some newval
      ↔ (∀ i < n,
          (curval ^^^ prefval).getLsbD i = true
          → (test (valueAt test curval prefval i ^^^ bitMask i)).isSome = true)
        ∧ newval = valueAt test curval prefval n := by
  induction n generalizing newval with
  | zero =>
    refine ⟨fun looped => ⟨fun i small => (Nat.not_lt_zero i small).elim, ?_⟩, fun given => ?_⟩
    · exact (Option.some.inj looped).symm
    · rw [given.2]
      rfl
  | succ n ih =>
    have earlier (value : I64) := ih value (Nat.le_of_succ_le inside)
    rw [range_succ, foldlM_append, Option.bind_eq_bind, Option.bind_eq_some_iff]
    simp only [foldlM_cons, foldlM_nil, bind_pure]
    constructor
    · intro looped
      obtain ⟨value, before, turned⟩ := looped
      obtain ⟨evaluates, rfl⟩ := (earlier value).mp before
      have here : (curval ^^^ prefval).getLsbD n = true
          → (test (valueAt test curval prefval n ^^^ bitMask n)).isSome = true := by
        intro differs
        by_contra raises
        rw [Bool.not_eq_true, Option.isSome_eq_false_iff, Option.isNone_iff_eq_none] at raises
        rw [refineBit_none inside differs raises] at turned
        cases turned
      rw [refineBit_eq inside here] at turned
      refine ⟨fun i small => ?_, (Option.some.inj turned).symm⟩
      rcases Nat.lt_succ_iff_lt_or_eq.mp small with less | rfl
      · exact evaluates i less
      · exact here
    · intro given
      obtain ⟨evaluates, rfl⟩ := given
      refine ⟨valueAt test curval prefval n, (earlier _).mpr ⟨?_, rfl⟩, ?_⟩
      · exact fun i small => evaluates i (Nat.lt_succ_of_lt small)
      · exact refineBit_eq inside (evaluates n n.lt_succ_self)

end

theorem ctxInit_agree (missing items : List (String × I64)) (change : String → I64 → I64)
    : Option.Rel (Agree False (fun _ => True)) (ctxInit (missing ++ items))
        (ctxInit (missing ++ items.map (fun item => (item.1, change item.1 item.2)))) := by
  simp only [ctxInit, foldlM_append, foldlM_map]
  cases missing.foldlM (fun ctx binding => ctxSet ctx binding.1 binding.2)
      (fun _ => none : Ctx) with
  | none => exact .none
  | some ctx =>
    refine Folds.rel_foldlM items (fun item _ left right agree => ?_)
      (fun name _ => Same.rel False.elim rfl)
    exact ctxSet_agree agree trivial False.elim

theorem noDivision_conjoin {pc : List Exp} (whole : ∀ e ∈ pc, NoDivision e)
    : NoDivision (conjoin pc) := by
  cases pc with
  | nil => exact trivial
  | cons first rest =>
    have firstWhole := whole first mem_cons_self
    replace whole : ∀ e ∈ rest, NoDivision e :=
      fun e mem => whole e (mem_cons_of_mem _ mem)
    -- the conjunction is built in an accumulator
    induction rest generalizing first with
    | nil => exact firstWhole
    | cons e rest ih =>
      exact ih (.binOp .bitand first e) ⟨rfl, firstWhole, whole e mem_cons_self⟩
        (fun e mem => whole e (mem_cons_of_mem _ mem))

/-- A path condition without divisions can be evaluated for all values, or for none. -/
theorem testSatisfiability_mapValues_isSome {temps : List (Var × Exp)} {pc : List Exp}
    (wholeTemps : ∀ assgn ∈ temps, NoDivision assgn.2) (whole : ∀ e ∈ pc, NoDivision e)
    (decls : List Var) (ctx : Table) (change : String → I64 → I64)
    : (testSatisfiability decls temps pc (ctx.mapValues change)).isSome
      = (testSatisfiability decls temps pc ctx).isSome := by
  have keys : (ctx.mapValues change).keys = ctx.keys := by
    simp [Table.keys, Table.mapValues]
  have inputs
      : (ctx.mapValues change).items.filter
          (fun item => startsWith item.1 "in_" || startsWith item.1 "mem_byte_")
        = (ctx.items.filter
            (fun item => startsWith item.1 "in_" || startsWith item.1 "mem_byte_")).map
              (fun item => (item.1, change item.1 item.2)) := by
    rw [Table.mapValues, filter_map]
    rfl
  simp only [testSatisfiability, keys, inputs, Option.bind_eq_bind]
  generalize ctx.items.filter _ = given
  generalize List.reverse _ = missing
  refine (isSome_of_rel (R := Same False) (Folds.rel_bind
    (ctxInit_agree missing given change) ?_)).symm
  intro left right agree
  exact conjoin_agree (fun assgn mem => .inr (wholeTemps assgn mem))
    (.inr (noDivision_conjoin whole)) (fun _ _ => trivial) agree

/-- Every bit of the value is that of the current or that of the preferred value. -/
def Mixed (curval prefval value : I64) : Prop :=
  ∀ i, value.getLsbD i = curval.getLsbD i ∨ value.getLsbD i = prefval.getLsbD i

/-- What refining a value is expected to return. -/
structure Refined (test : I64 → Option Bool) (curval prefval newval : I64) : Prop where
  satisfied : test newval = some true
  bits : Mixed curval prefval newval
  immediate : test prefval = some true → newval = prefval
  /-- Conditions on some bits that both values satisfy, in the path condition or not. -/
  pinned : ∀ m c, curval &&& m = c → prefval &&& m = c → newval &&& m = c

theorem Mixed.and_eq {curval prefval newval m c : I64} (bits : Mixed curval prefval newval)
    (left : curval &&& m = c) (right : prefval &&& m = c)
    : newval &&& m = c := by
  apply BitVec.eq_of_getLsbD_eq
  intro i _
  rw [BitVec.getLsbD_and]
  rcases bits i with same | same
  · rw [same, ← BitVec.getLsbD_and, left]
  · rw [same, ← BitVec.getLsbD_and, right]

theorem lt_of_getLsbD {value : I64} {n : Nat} (high : ∀ i, n ≤ i → value.getLsbD i = false)
    : value.toNat < 2 ^ n :=
  Nat.lt_pow_two_of_testBit _ high

theorem Mixed.isByte {curval prefval value : I64} (bits : Mixed curval prefval value)
    (current : IsByte curval) (preferred : IsByte prefval)
    : IsByte value := by
  refine lt_of_getLsbD (n := 8) fun i high => ?_
  have zero {v : I64} (small : IsByte v) : v.getLsbD i = false :=
    Nat.testBit_lt_two_pow (small.trans_le (Nat.pow_le_pow_right Nat.two_pos high))
  rcases bits i with same | same
  · rw [same, zero current]
  · rw [same, zero preferred]

theorem mixed_valueAt (test : I64 → Option Bool) (curval prefval : I64) (n : Nat)
    : Mixed curval prefval (valueAt test curval prefval n) :=
  BitDescent.getLsbD_turn_or (satisfies test) curval prefval n

theorem mixed_flip {curval prefval value : I64} {i : Nat} (bits : Mixed curval prefval value)
    (differs : (curval ^^^ prefval).getLsbD i = true)
    : Mixed curval prefval (value ^^^ bitMask i) := by
  intro j
  rw [bitMask_eq, BitDescent.getLsbD_flip _ _ _ (BitVec.lt_of_getLsbD differs)]
  split
  next same =>
    -- the other one of two different bits
    subst same
    rw [BitVec.getLsbD_xor] at differs
    rcases bits i with old | old
    · exact .inr (by rw [old, BitDescent.not_eq_of_xor differs])
    · rw [Bool.xor_comm] at differs
      exact .inl (by rw [old, BitDescent.not_eq_of_xor differs])
  next => exact bits j

theorem Evaluates.of_mixed {test : I64 → Option Bool} {curval prefval : I64}
    (evaluates : ∀ value, Mixed curval prefval value → (test value).isSome = true)
    : Evaluates test curval prefval :=
  ⟨evaluates prefval fun _ => .inr rfl,
    .inr fun i _ differs => evaluates _ (mixed_flip (mixed_valueAt _ _ _ i) differs)⟩

/-- The test of the refinement: the path condition with another value of the variable. -/
def testWith (decls : List Var) (temps : List (Var × Exp)) (pc : List Exp) (ctx : Table)
    (var : String) (value : I64)
    : Option Bool :=
  testSatisfiability decls temps pc (ctx.replace var value)

section

variable {decls : List Var} {temps : List (Var × Exp)} {pc : List Exp} {ctx : Table}
  {var : String} {curval prefval newval : I64}

/-- A value is returned exactly if no evaluation raises an exception. -/
theorem computePreferredValue_eq_some_iff
    (satisfied : testSatisfiability decls temps pc ctx = some true)
    (found : ctx.find? var = some curval)
    : computePreferredValue decls temps pc ctx var curval prefval = some newval
      ↔ Evaluates (testWith decls temps pc ctx var) curval prefval
        ∧ newval
          = if testWith decls temps pc ctx var prefval = some true then prefval
            else valueAt (testWith decls temps pc ctx var) curval prefval 8 := by
  rw [computePreferredValue_eq satisfied found, Evaluates]
  have looped := refineBits_eq_some_iff (testWith decls temps pc ctx var) curval prefval newval
    (n := 8) (by omega)
  rw [show testSatisfiability decls temps pc (ctx.replace var prefval)
    = testWith decls temps pc ctx var prefval from rfl]
  cases tested : testWith decls temps pc ctx var prefval with
  | none => simp
  | some immediately =>
    cases immediately with
    | true =>
      simp only [Option.bind_some, if_true, Option.isSome_some, true_or, true_and,
        Option.some.injEq]
      exact eq_comm
    | false =>
      simp only [Option.bind_some, Bool.false_eq_true, if_false, Option.isSome_some,
        Option.some.injEq, false_or, true_and]
      exact looped

theorem accepted_of_computePreferredValue
    (returned : computePreferredValue decls temps pc ctx var curval prefval = some newval)
    : testSatisfiability decls temps pc ctx = some true ∧ ctx.find? var = some curval := by
  obtain ⟨satisfied, tested, returned⟩ := Option.bind_eq_some_iff.mp returned
  obtain ⟨_, first, returned⟩ := Option.bind_eq_some_iff.mp returned
  obtain ⟨_, second, _⟩ := Option.bind_eq_some_iff.mp returned
  refine ⟨?_, (Option.guard_eq_some' _).mp second⟩
  rw [tested, (Option.guard_eq_some' _).mp first]

theorem testWith_isSome_of_noDivision
    (satisfied : testSatisfiability decls temps pc ctx = some true)
    (found : ctx.find? var = some curval)
    (wholeTemps : ∀ assgn ∈ temps, NoDivision assgn.2) (whole : ∀ e ∈ pc, NoDivision e)
    (value : I64)
    : (testWith decls temps pc ctx var value).isSome = true := by
  have bound : var ∈ ctx.keys :=
    mem_map.mpr ⟨_, (Assoc.lookup_eq_some_iff_mem ctx.unique).mp found, rfl⟩
  rw [testWith, Table.replace, dif_pos bound,
    testSatisfiability_mapValues_isSome wholeTemps whole, satisfied]
  rfl

section

variable (satisfied : testSatisfiability decls temps pc ctx = some true)
  (found : ctx.find? var = some curval)

include satisfied found

theorem testWith_self : testWith decls temps pc ctx var curval = some true := by
  rw [testWith, Table.replace_self found]
  exact satisfied

theorem refined_of_evaluates
    (evaluates : Evaluates (testWith decls temps pc ctx var) curval prefval)
    : ∃ newval,
        computePreferredValue decls temps pc ctx var curval prefval = some newval
        ∧ Refined (testWith decls temps pc ctx var) curval prefval newval := by
  refine ⟨_, (computePreferredValue_eq_some_iff satisfied found).mpr ⟨evaluates, rfl⟩, ?_⟩
  by_cases immediate : testWith decls temps pc ctx var prefval = some true
  · rw [if_pos immediate]
    exact ⟨immediate, fun _ => .inr rfl, fun _ => rfl, fun _ _ _ right => right⟩
  · rw [if_neg immediate]
    have current := satisfies_iff.mpr (testWith_self satisfied found)
    have bits := mixed_valueAt (testWith decls temps pc ctx var) curval prefval 8
    refine ⟨satisfies_iff.mp (BitDescent.holds_turn current 8), bits, ?_, ?_⟩
    · exact fun holds => (immediate holds).elim
    · exact fun m c left right => bits.and_eq left right

end

/-- For every path condition, context and variable, and a current value that satisfies the path
condition: the refined value satisfies it, too, and mixes the bits of both values, if the path
condition can be evaluated at all mixtures of both. All preferred values of 8 bits are refined
exactly if it can be evaluated at all values of 8 bits.
-/
theorem computePreferredValue_refined
    (satisfied : testSatisfiability decls temps pc ctx = some true)
    (found : ctx.find? var = some curval)
    : (∀ prefval,
        (∀ value, Mixed curval prefval value
          → (testWith decls temps pc ctx var value).isSome = true)
        → ∃ newval,
            computePreferredValue decls temps pc ctx var curval prefval = some newval
            ∧ Refined (testWith decls temps pc ctx var) curval prefval newval)
      ∧ (IsByte curval
        → ((∀ prefval, IsByte prefval
              → ∃ newval,
                  computePreferredValue decls temps pc ctx var curval prefval = some newval
                  ∧ Refined (testWith decls temps pc ctx var) curval prefval newval)
          ↔ ∀ value, IsByte value
              → (testWith decls temps pc ctx var value).isSome = true)) := by
  refine ⟨fun prefval evaluates => refined_of_evaluates satisfied found (.of_mixed evaluates),
    fun current => ⟨fun returns value small => ?_, fun evaluates prefval small => ?_⟩⟩
  · obtain ⟨newval, returned, _⟩ := returns value small
    exact ((computePreferredValue_eq_some_iff satisfied found).mp returned).1.1
  · exact refined_of_evaluates satisfied found
      (.of_mixed fun value bits => evaluates value (bits.isByte current small))

/-- A context that binds one input. -/
def xTable (value : I64) : Table := ⟨[("in_x", value)], nodup_singleton _⟩

/-- Comparisons of the input with a constant. -/
def compareX (op : BinOpType) (value : I64) : Exp := .binOp op (.temp inX) (.const .reg8 value)

theorem computePreferredValue_refined_below
    : ∃ newval,
        computePreferredValue [inX] [] [compareX .lt 5] (xTable 2) "in_x" 2 7 = some newval
        ∧ Refined (testWith [inX] [] [compareX .lt 5] (xTable 2) "in_x") 2 7 newval := by
  have satisfied : testSatisfiability [inX] [] [compareX .lt 5] (xTable 2) = some true := by
    decide +kernel
  have found : (xTable 2).find? "in_x" = some 2 := by decide +kernel
  refine (computePreferredValue_refined satisfied found).1 7 fun value _ => ?_
  exact testWith_isSome_of_noDivision satisfied found (by simp)
    (by simp [compareX, NoDivision, divides]) value

/-- The path condition `16 / x = 8` holds for two, and cannot be evaluated for zero. -/
theorem computePreferredValue_raises
    : let pc := [Exp.binOp .eq (.binOp .divide (.const .reg8 16) (.temp inX)) (.const .reg8 8)]
      testSatisfiability [inX] [] pc (xTable 2) = some true
      ∧ (xTable 2).find? "in_x" = some 2
      ∧ computePreferredValue [inX] [] pc (xTable 2) "in_x" 2 0 = none := by
  decide +kernel

/-- A bit that is rejected while all later bits are the current ones stays rejected when later
bits are changed.
-/
def Persistent (test : I64 → Option Bool) (curval prefval : I64) : Prop :=
  ∀ i v w,
    (curval ^^^ prefval).getLsbD i = true
    → Mixed curval prefval v → Mixed curval prefval w
    → test v = some true → test w = some true
    → (∀ j < i, v.getLsbD j = w.getLsbD j)
    → (∀ j, i ≤ j → v.getLsbD j = curval.getLsbD j)
    → w.getLsbD i = curval.getLsbD i
    → test (v ^^^ bitMask i) ≠ some true
    → test (w ^^^ bitMask i) ≠ some true

/-- For everything that the refinement accepts and returns a value for: no bit in which the
result differs from the preferred value can be changed, if the preferred value is returned, or
the two values differ in visited bits only and rejected bits stay rejected.
-/
theorem computePreferredValue_minimal
    (returned : computePreferredValue decls temps pc ctx var curval prefval = some newval)
    (stable
      : testWith decls temps pc ctx var prefval = some true
        ∨ (∀ i, 8 ≤ i → curval.getLsbD i = prefval.getLsbD i)
          ∧ Persistent (testWith decls temps pc ctx var) curval prefval)
    : ∀ i,
        newval.getLsbD i ≠ prefval.getLsbD i
        → testWith decls temps pc ctx var (newval ^^^ bitMask i) ≠ some true := by
  obtain ⟨satisfied, found⟩ := accepted_of_computePreferredValue returned
  obtain ⟨_, value⟩ := (computePreferredValue_eq_some_iff satisfied found).mp returned
  intro i differs
  by_cases immediate : testWith decls temps pc ctx var prefval = some true
  · rw [if_pos immediate] at value
    exact absurd (congrArg (·.getLsbD i) value) differs
  · obtain ⟨visited, persistent⟩ := stable.resolve_left immediate
    rw [if_neg immediate] at value
    subst value
    have current := satisfies_iff.mpr (testWith_self satisfied found)
    have mixed (n : Nat) := mixed_valueAt (testWith decls temps pc ctx var) curval prefval n
    have holds (n : Nat)
        : testWith decls temps pc ctx var
            (valueAt (testWith decls temps pc ctx var) curval prefval n) = some true :=
      satisfies_iff.mp (BitDescent.holds_turn current n)
    obtain ⟨visible, left⟩ := (BitDescent.getLsbD_turn_ne_iff 8 i).mp differs
    have inside : i < 8 := by
      by_contra high
      rw [BitVec.getLsbD_xor, visited i (Nat.not_lt.mp high), Bool.xor_self] at visible
      cases visible
    have rejected := left.resolve_left (Nat.not_le.mpr inside)
    rw [← Bool.not_eq_true, satisfies_iff, ← bitMask_eq] at rejected
    -- The value at the bit's turn and the result agree up to the bit.
    refine persistent i _ _ visible (mixed i) (mixed 8) (holds i) (holds 8) ?_ ?_ ?_ rejected
    · intro j earlier
      simp only [valueAt, BitDescent.getLsbD_turn]
      simp only [earlier, earlier.trans inside, true_and]
    · intro j later
      rw [valueAt, BitDescent.getLsbD_turn, if_neg fun both => Nat.not_le.mpr both.1 later]
    · exact (mixed 8 i).resolve_right differs

/-- Two bits are changed, and the third one is rejected for good. -/
theorem computePreferredValue_minimal_below
    : computePreferredValue [inX] [] [compareX .lt 4] (xTable 0) "in_x" 0 7 = some 3
      ∧ ∀ i,
          (3 : I64).getLsbD i ≠ (7 : I64).getLsbD i
          → testWith [inX] [] [compareX .lt 4] (xTable 0) "in_x" (3 ^^^ bitMask i)
            ≠ some true := by
  have returned : computePreferredValue [inX] [] [compareX .lt 4] (xTable 0) "in_x" 0 7
      = some 3 := by decide +kernel
  have high (i : Nat) (later : 3 ≤ i) : (7 : I64).getLsbD i = false :=
    Nat.testBit_lt_two_pow (show 7 < 2 ^ i from Nat.pow_le_pow_right Nat.two_pos later)
  have small {v : I64} (mixed : Mixed 0 7 v) : v.toNat < 8 := by
    refine lt_of_getLsbD (n := 3) fun i later => ?_
    rcases mixed i with same | same
    · simp [same]
    · rw [same, high i later]
  have every : ∀ (i : Fin 3) (v w : Fin 8),
      testWith [inX] [] [compareX .lt 4] (xTable 0) "in_x" (.ofNat 64 v) = some true
      → w.val.testBit i = false
      → testWith [inX] [] [compareX .lt 4] (xTable 0) "in_x" (.ofNat 64 v ^^^ bitMask i)
        ≠ some true
      → testWith [inX] [] [compareX .lt 4] (xTable 0) "in_x" (.ofNat 64 w ^^^ bitMask i)
        ≠ some true := by
    decide +kernel
  refine ⟨returned, computePreferredValue_minimal returned (.inr ⟨fun i later => ?_, ?_⟩)⟩
  · rw [high i (by omega)]
    simp
  · intro i v w differs mixed mixed' holds _ _ _ unchanged rejected
    have inside : i < 3 := by
      by_contra later
      rw [BitVec.getLsbD_xor, high i (Nat.not_lt.mp later), Bool.xor_false] at differs
      simp at differs
    have := every ⟨i, inside⟩ ⟨v.toNat, small mixed⟩ ⟨w.toNat, small mixed'⟩
    simp only [BitVec.ofNat_toNat, BitVec.setWidth_eq] at this
    exact this holds (unchanged.trans BitVec.getLsbD_zero) rejected

/-- With the path condition `x < 4 ∧ x ≠ 1` the lowest bit is rejected before the next one is
changed, although both can be changed.
-/
theorem computePreferredValue_not_minimal
    : let pc := [compareX .lt 4, compareX .neq 1]
      computePreferredValue [inX] [] pc (xTable 0) "in_x" 0 7 = some 2
      ∧ (2 : I64).getLsbD 0 ≠ (7 : I64).getLsbD 0
      ∧ testWith [inX] [] pc (xTable 0) "in_x" (2 ^^^ bitMask 0) = some true := by
  decide +kernel

end

end FastPokeEmu.EmuFuzzball
