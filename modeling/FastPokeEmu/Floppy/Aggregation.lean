import FastPokeEmu.Floppy.FlatMachine

/-! Rounds of many test cases, one after the other: the blocks aggregate what every round
has recorded.
-/

namespace FastPokeEmu.Floppy

open List

variable {inst : Inst} {choices choices' : Choices} {mode : Nat}

/-- A run of rounds, of any test cases of one instruction and any number of iterations. Blocks
are left alone between two rounds.
-/
structure Chain (setting : Setting) (rounds : Nat) (run : Nat → Round inst choices mode)
    : Prop where
  regular : ∀ k < rounds, (run k).Regular setting
  recordable : ∀ k < rounds, (run k).Recordable
  between
    : ∀ k,
        k + 1 < rounds
        → ∀ a ∈ (run k).st.feistelL ++ (run k).st.feistelR,
            dataWord setting.τ (run (k + 1)).start a = dataWord setting.τ ((run k).final setting) a

namespace Chain

variable {setting : Setting} {rounds : Nat} {run : Nat → Round inst choices mode}

/-- Blocks at the start of a round, or at the end of the last one. -/
def blocks (setting : Setting) (rounds : Nat) (run : Nat → Round inst choices mode) (k : Nat)
    : Feistel.Blocks (Fin inst.blocks) 32 :=
  if k < rounds then (run k).blocks setting (run k).start
  else (run (rounds - 1)).blocks setting ((run (rounds - 1)).final setting)

theorem blocks_next (chain : Chain setting rounds run) (scope : inst.InScope) {k : Nat}
    (next : k + 1 < rounds)
    : (run (k + 1)).blocks setting (run (k + 1)).start
      = (run k).blocks setting ((run k).final setting) := by
  obtain ⟨right, _, left⟩ := generate_blocks scope.decoded (run k).made (run (k + 1)).made
  obtain ⟨_, _, _, generated⟩ := generate_generated scope.decoded (run k).made
  have between := chain.between k next
  refine Feistel.Blocks.ext (funext fun i => ?_) (funext fun i => ?_)
  · simp only [Round.blocks, left]
    exact between _ (mem_append_left _ (mem_of_getElem? (generated.sized.columns i.isLt).1))
  · simp only [Round.blocks, right]
    exact between _ (mem_append_right _ (mem_of_getElem? (generated.sized.columns i.isLt).2.1))

/-- The run as a run of Feistel rounds. -/
def feistel (chain : Chain setting rounds run) (scope : inst.InScope)
    : Feistel.Run (Fin inst.blocks) 32 rounds where
  blocks := blocks setting rounds run
  recorded k := (run k).recorded setting
  follows k inside := by
    have round := Round.blocks_final scope (chain.regular k inside) (chain.recordable k inside)
    rw [blocks, blocks, if_pos inside]
    split
    next next =>
      rw [chain.blocks_next scope next, round]
    · have last : rounds - 1 = k := by omega
      rw [last, round]

end Chain

/-- `mov %ebx,(base,index,1)` -/
def storeEbx (base : Gpr) (index : Option Gpr) : Inst where
  operands := [⟨.mem 0, 4, .write⟩, ⟨.reg (some Gpr.ebx.name), 4, .read⟩]
  memory _ := ⟨some .ds, 0, 0, some ⟨base, .full⟩, index.map (⟨·, .full⟩), 1, false, true⟩
  xlat := false
  ltr := false
  popCategory := false

theorem storeEbx_items (base : Gpr) (index : Option Gpr)
    : (storeEbx base index).loads ++ (storeEbx base index).stores
      = [.reg Gpr.ebx.name 4, .block 0] := rfl

theorem storeEbx_inScope (base : Gpr) (index : Option Gpr)
    : (storeEbx base index).InScope where
  decoded op mem n kind := by
    simp only [storeEbx, mem_cons, not_mem_nil, or_false] at mem
    rcases mem with rfl | rfl
    · simp
    · cases kind
  simple item mem := by
    rw [mem_singleton.mp (show item ∈ [Item.block 0] from mem)]
    trivial
  sizable r len mem := by
    rw [storeEbx_items] at mem
    simp only [mem_cons, Item.reg.injEq, not_mem_nil, or_false, reduceCtorEq,
      Gpr.name, RegName.gpr.injEq] at mem
    rw [mem.1]
    exact Or.inl rfl
  once i j output _ := by
    have mem := mem_of_getElem? output
    cases (show Recorded.eflags ∈ [Recorded.block 0, .exception edataAddr,
      .exception (edataAddr + 4)] from mem) with
    | tail _ later =>
      cases later with
      | tail _ later =>
        cases later with
        | tail _ later => cases later

/-- The stack is low, and the address register points to the operand. -/
def storeRegs (base : Gpr) (b : Nat) : Gpr → Word := fun r =>
  if r = .esp then 0x400000 else if r = base then BitVec.ofNat 32 b else 0

/-- A round that starts with some words in memory, and stores a value. -/
def storeRound (base : Gpr) (index : Option Gpr) (test b : Nat) (words : List (Nat × Word))
    (value : Word) (succeeds : (testLists (storeEbx base index) .insertion test).isSome = true)
    : Round (storeEbx base index) fixedChoices 2 :=
  flatRound (storeEbx base index) .insertion test b (flatState (storeRegs base b) words)
    (fun s =>
      { s with
        gpr := storeRegs base b
        mem := ByteMemory.write s.mem (lowOperand b 0) value 4 })
    (storeRegs base b) succeeds

theorem testLists_storeEbx_edi
    : (testLists (storeEbx .edi none) .insertion 0).isSome = true
      ∧ (testLists (storeEbx .edi none) .insertion 1).isSome = true := by
  decide +kernel

theorem testLists_storeEbx_eax
    : (testLists (storeEbx .eax (some .ecx)) .insertion 0).isSome = true := by
  decide +kernel

/-- Two test cases of `mov %ebx,(%edi)`, with the operand at different addresses. The first L
block holds 0x100, and the first R block what the first round has made of it.
-/
def ediRounds (value : Word) : Nat → Round (storeEbx .edi none) fixedChoices 2
  | 0 => storeRound .edi none 0 0x500000 [(0x128d024, 0x100)] value testLists_storeEbx_edi.1
  | _ =>
    storeRound .edi none 1 0x540000 [(0x128d018, 0x100 ^^^ value)] 7 testLists_storeEbx_edi.2

/-- Rounds of `mov %ebx,(%eax,%ecx,1)`. -/
abbrev eaxRound (value : Word) :=
  storeRound .eax (some .ecx) 0 0x500000 [(0x128d024, 0x100)] value testLists_storeEbx_eax

theorem recordable_storeEbx_edi (round : Round (storeEbx .edi none) fixedChoices 2)
    : round.Recordable where
  legible idx mem := by
    rw [storeEbx_items] at mem
    simp only [mem_cons, not_mem_nil, or_false, reduceCtorEq, false_or, Item.block.injEq] at mem
    rw [mem]
    decide
  carrier _ := by decide
  anchored _ r mem disturbed := by
    rw [mem_singleton.mp (show r ∈ [Gpr.edi] from mem)] at disturbed
    rcases disturbed with isEax | ⟨restores, _⟩
    · cases isEax
    · exact absurd restores (by decide)
  hidden name len mem r touched := by
    rw [storeEbx_items] at mem
    simp only [mem_cons, Item.reg.injEq, not_mem_nil, or_false, reduceCtorEq]
      at mem
    rw [mem.1] at touched
    cases touched

theorem chain_ediRounds {value : Word} (first : (ediRounds value 0).Regular flatSetting)
    (second : (ediRounds value 1).Regular flatSetting)
    (between
      : ∀ a ∈ (ediRounds value 0).st.feistelL ++ (ediRounds value 0).st.feistelR,
          dataWord flat (ediRounds value 1).start a
            = dataWord flat ((ediRounds value 0).final flatSetting) a)
    : Chain flatSetting 2 (ediRounds value) where
  regular k small := by
    rcases Nat.lt_succ_iff_lt_or_eq.mp small with isFirst | rfl
    · rw [Nat.lt_one_iff.mp isFirst]
      exact first
    · exact second
  recordable k _ := recordable_storeEbx_edi _
  between k next := by
    rw [Nat.lt_one_iff.mp (Nat.lt_of_succ_lt_succ next)]
    exact between

theorem chain_ediRounds_one : Chain flatSetting 2 (ediRounds 1) := by
  refine chain_ediRounds (regular_of_checks rfl (by decide) ?_ ?_ ?_ ?_ ?_)
    (regular_of_checks rfl (by decide) ?_ ?_ ?_ ?_ ?_) ?_ <;> decide +kernel

theorem chain_ediRounds_two : Chain flatSetting 2 (ediRounds 2) := by
  refine chain_ediRounds (regular_of_checks rfl (by decide) ?_ ?_ ?_ ?_ ?_)
    (regular_of_checks rfl (by decide) ?_ ?_ ?_ ?_ ?_) ?_ <;> decide +kernel

end FastPokeEmu.Floppy
