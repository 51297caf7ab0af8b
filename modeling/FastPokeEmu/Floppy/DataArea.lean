import FastPokeEmu.Floppy.SimpleCopies

/-! All words that the generator keeps in its lists lie in the data area, whatever the
instruction and the mode.
-/

namespace FastPokeEmu.Floppy

open List Option

/-- The area from which `get_addr` allocates. -/
def InArea (a : Nat) : Prop := startAddr ≤ a ∧ a ≤ endAddr

/-- The allocation pointer and the five lists are in the data area. -/
structure GenState.InRange (st : GenState) : Prop where
  next : InArea st.nextAddr
  words : ∀ a ∈ st.batch.words, InArea a

theorem GenState.inRange_start : GenState.start.InRange where
  next := by
    constructor <;> decide
  words := by simp [GenState.start, GenState.batch, Batch.words]

namespace GenState.InRange

variable {st st' : GenState}

theorem same (range : st.InRange) (next : st'.nextAddr = st.nextAddr)
    (lists : st'.batch = st.batch)
    : st'.InRange :=
  ⟨next ▸ range.next, lists ▸ range.words⟩

theorem add (range : st.InRange) (new : Batch) (next : st'.nextAddr = st.nextAddr)
    (lists : st'.batch = st.batch.append new) (inside : ∀ a ∈ new.words, InArea a)
    : st'.InRange := by
  refine ⟨next ▸ range.next, fun a mem => ?_⟩
  rw [lists] at mem
  rcases mem_append.mp ((Batch.words_append _ _).mem_iff.mpr mem) with old | fresh
  · exact range.words a old
  · exact inside a fresh

end GenState.InRange

section

variable {inst : Inst} {choices : Choices} {isInit : Bool} {op : Operand} {st st' : GenState}
  {e : Emitted}

theorem Allocates.inRange {k : Nat} {new : Batch} (allocates : Allocates k new st st')
    (inside : ∀ a ∈ new.words, st.nextAddr ≤ a ∧ a ≤ st.nextAddr + 4 * k) (range : st.InRange)
    : st'.InRange := by
  have low := range.next.1
  have fits := allocates.fits
  refine ⟨?_, fun a mem => ?_⟩
  · rw [allocates.next]
    exact ⟨by omega, fits⟩
  · rw [allocates.lists] at mem
    rcases mem_append.mp ((Batch.words_append _ _).mem_iff.mpr mem) with old | fresh
    · exact range.words a old
    · have bounds := inside a fresh
      exact ⟨by omega, by omega⟩

theorem mem_consecutive_max {a w x : Nat} (mem : x ∈ consecutive a (max w 1))
    : a ≤ x ∧ x ≤ a + 4 * w := by
  obtain ⟨i, small, rfl⟩ := mem_consecutive.mp mem
  omega

theorem Batch.mem_input {a s x : Nat} (mem : x ∈ (Batch.input a s).words)
    : a ≤ x ∧ x ≤ a + 4 * (3 * ((s + 3) / 4)) := by
  simp only [words, input, append_nil, mem_append] at mem
  rcases mem with (here | here) | here
  · have := mem_consecutive_max here
    omega
  · have := mem_consecutive_max here
    omega
  · have := mem_consecutive_max here
    omega

theorem whenInit_inRange {add : GenState → Option GenState}
    (res : whenInit isInit add st = some st') (range : st.InRange)
    (adds : ∀ {st'}, st.InRange → add st = some st' → st'.InRange)
    : st'.InRange := by
  cases isInit with
  | true => exact adds range res
  | false =>
    cases res
    exact range

theorem addInput_inRange {name : RegName} {len : Nat} (range : st.InRange)
    (res : addInput name len st = some st')
    : st'.InRange :=
  (addInput_allocates res).inRange (fun _ => Batch.mem_input) range

theorem padR_inRange {upTo : Nat} (range : st.InRange) (res : padR upTo st = some st')
    : st'.InRange :=
  padR_induction (P := fun _ st => st.InRange) range
    (fun _ _ _ sofar step => step.inRange (fun _ => Batch.mem_input) sofar) res

theorem addOutput_inRange {len : Nat} (range : st.InRange)
    (res : addOutput choices len st = some st')
    : st'.InRange := by
  refine (addOutput_allocates res).inRange (fun a mem => ?_) range
  simp only [Batch.words, Batch.output, nil_append, append_nil, mem_append] at mem
  rcases mem with here | here
  · have := mem_consecutive_max here
    omega
  · have := mem_consecutive_max here
    omega

theorem addExceptionBlocks_inRange (range : st.InRange)
    (res : addExceptionBlocks choices st = some st')
    : st'.InRange := by
  refine addExceptionBlocks_induction (P := fun _ st => st.InRange) (fun st1 first => ?_)
    (fun _ st1 st2 sofar step => ?_) res
  · refine first.inRange (fun a mem => ?_) range
    simp only [Batch.words, nil_append, append_nil] at mem
    obtain ⟨i, small, rfl⟩ := mem_consecutive.mp mem
    omega
  · refine step.inRange (fun a mem => ?_) sofar
    simp only [Batch.words, append_nil, mem_append, mem_consecutive] at mem
    rcases mem with ⟨i, small, rfl⟩ | ⟨i, small, rfl⟩
    · omega
    · omega

theorem padL_inRange (range : st.InRange) (res : padL choices st = some st') : st'.InRange := by
  refine padL_induction (P := fun _ st => st.InRange) range (fun _ st1 st2 sofar step => ?_) res
  refine step.inRange (fun a mem => ?_) sofar
  simp only [Batch.words, nil_append, append_nil] at mem
  obtain ⟨i, small, rfl⟩ := mem_consecutive.mp mem
  omega

theorem handleRegRead_inRange {name : Option RegName} (range : st.InRange)
    (res : handleRegRead inst isInit op name st = some (e, st'))
    : st'.InRange := by
  cases handleRegRead_cases res with
  | skipped => exact range.same rfl rfl
  | handled _ _ added =>
    exact (whenInit_inRange added (range.same rfl rfl) addInput_inRange).same rfl rfl

theorem handleRegWrite_inRange (inst : Inst) {name : Option RegName} (range : st.InRange)
    (res : handleRegWrite choices isInit op name st = some (e, st'))
    : st'.InRange := by
  cases handleRegWrite_cases inst res with
  | skipped => exact range.same rfl rfl
  | handled _ _ added padded =>
    have range1 := whenInit_inRange added (range.same rfl rfl) addOutput_inRange
    exact (padR_inRange range1 padded).same rfl rfl

theorem handleMemReadBlock_inRange {idx val rBak bak : Nat} (range : st.InRange)
    (inside : InArea val ∧ InArea rBak ∧ InArea bak)
    (res : handleMemReadBlock inst isInit idx val rBak bak st = some (e, st'))
    : st'.InRange := by
  obtain ⟨next, lists⟩ := handleMemReadBlock_adds res
  refine range.add _ next lists (fun a mem => ?_)
  cases isInit with
  | false => cases mem
  | true =>
    simp only [if_true, Batch.words, append_nil, mem_append, mem_singleton]
      at mem
    rcases mem with (rfl | rfl) | rfl
    · exact inside.1
    · exact inside.2.1
    · exact inside.2.2

theorem handleMemRead_inRange (range : st.InRange)
    (res : handleMemRead inst isInit op st = some (e, st'))
    : st'.InRange := by
  have known : { st with inToReg := { st.inToReg with
      mems := getMemOp inst 0 :: st.inToReg.mems } }.InRange := range.same rfl rfl
  have low := range.next.1
  have parts := handleMemRead_cases
    (P := fun _ _ st1 =>
      st1.InRange ∧ st.nextAddr + 4 * (3 * ((op.len + 3) / 4)) ≤ endAddr)
    res ?_ ?_
  · rcases parts with ⟨_, rfl, _⟩ | ⟨_, rfl, _⟩ | ⟨_, last, _⟩
    · exact range
    · exact known
    · exact last.1
  · intro st1 allocates
    exact ⟨allocates.inRange (by simp [Batch.words, Batch.empty]) known, allocates.fits⟩
  · rintro k _ st1 _ st2 small ⟨sofar, fits⟩ block
    refine ⟨handleMemReadBlock_inRange sofar ⟨?_, ?_, ?_⟩ block, fits⟩
    · constructor <;> omega
    · constructor <;> omega
    · constructor <;> omega

theorem handleMemWrite_inRange (range : st.InRange)
    (res : handleMemWrite inst choices isInit op st = some (e, st'))
    : st'.InRange := by
  rcases handleMemWrite_cases res with
    ⟨_, rfl, _⟩ | ⟨st1, st2, st3, added, padded, looped, rfl, _⟩
  · exact range.same rfl rfl
  · have range1 := whenInit_inRange added (range.same rfl rfl) addOutput_inRange
    have same := handleMemWriteBlocks_same looped
    exact (padR_inRange range1 padded).same same.next same.batch

theorem handleOp_keeps {P : GenState → Prop}
    {handleMem : Operand → GenState → Option (Emitted × GenState)}
    {handleReg : Operand → Option RegName → GenState → Option (Emitted × GenState)}
    (reg : ∀ {op name st e st'}, P st → handleReg op name st = some (e, st') → P st')
    (mem : ∀ {op st e st'}, P st → handleMem op st = some (e, st') → P st') (start : P st)
    (res : handleOp handleMem handleReg inst.operands st = some (e, st'))
    : P st' :=
  handleOp_induction (P := fun _ _ st => P st) start
    (fun _ _ _ _ _ _ _ _ _ here handled => reg here handled)
    (fun _ _ _ _ _ _ _ _ _ here handled => mem here handled) res

theorem genRoot_inRange {mode : Nat} {root : Root} (range : st.InRange)
    (res : genRoot inst choices mode isInit st = some (root, st'))
    : st'.InRange := by
  simp only [genRoot, bind_eq_bind, bind_eq_some_iff, Prod.exists] at res
  obtain ⟨_, st1, first, _, st2, second, st3, exceptions, _, _, _, _, st4, padded, _, _, final⟩ :=
    res
  have range1 := handleOp_keeps handleRegRead_inRange handleMemRead_inRange range first
  have range2 := handleOp_keeps (handleRegWrite_inRange inst) handleMemWrite_inRange range1 second
  have range3 := whenInit_inRange exceptions range2 addExceptionBlocks_inRange
  have range4 := whenInit_inRange padded range3 padL_inRange
  cases final
  exact range4.same rfl rfl

/-- Simple aggregation allocates nothing. -/
theorem genSimpleRoot_inRange {output : List Gadget} (range : st.InRange)
    (res : genSimpleRoot inst choices st = some (output, st'))
    : st'.InRange := by
  simp only [genSimpleRoot, bind_eq_bind, bind_eq_some_iff, Prod.exists]
    at res
  obtain ⟨_, st1, drawn, _, st2, handled, final⟩ := res
  cases final
  have random {s : Nat} {l : List Nat} {st st' : GenState} (range : st.InRange)
      (drawn : getAddrRandom choices s st = some (l, st'))
      : st'.InRange := by
    obtain ⟨_, _, rfl⟩ := getAddrRandom_spec drawn
    exact range.same rfl rfl
  refine handleOp_keeps ?_ ?_ (random range drawn) handled
  · intro op name st e st' range res
    cases name with
    | none =>
      cases res
      exact range
    | some name =>
      simp only [copyRegWrite, bind_eq_bind] at res
      split at res
      · cases res
        exact range
      · split at res
        · cases res
          exact range
        · simp only [bind_eq_some_iff, Prod.exists] at res
          obtain ⟨_, next, drawn, _, _, _, _, final⟩ := res
          cases final
          exact random range drawn
  · intro op st e st' range res
    simp only [copyMemWrite, bind_eq_bind] at res
    split at res
    · simp only [bind_eq_some_iff, Prod.exists] at res
      obtain ⟨_, next, drawn, final⟩ := res
      cases final
      exact random range drawn
    · cases res
      exact range

end

end FastPokeEmu.Floppy
