import FastPokeEmu.Floppy.Handlers

/-! Words handed out by `get_addr`: which lists they join, and that no word is handed out
twice.
-/

namespace FastPokeEmu.Floppy

open List

/-- Addresses of distinct words between two values of the allocation pointer. -/
structure Fresh (a b : Nat) (f : List Nat) : Prop where
  le : a ≤ b
  bounded : a ≤ endAddr → b ≤ endAddr
  aligned : a % 4 = 0 → b % 4 = 0 ∧ ∀ x ∈ f, x % 4 = 0
  nodup : f.Nodup
  inside : ∀ x ∈ f, a ≤ x ∧ x + 4 ≤ b

namespace Fresh

variable {a b c : Nat} {f g : List Nat}

theorem nil (a : Nat) : Fresh a a [] := ⟨le_refl a, id, by simp, .nil, by simp⟩

/-- Words of later requests are different from those of earlier ones. -/
theorem append (first : Fresh a b f) (second : Fresh b c g) : Fresh a c (f ++ g) where
  le := first.le.trans second.le
  bounded h := second.bounded (first.bounded h)
  aligned h := by
    obtain ⟨middle, left⟩ := first.aligned h
    obtain ⟨last, right⟩ := second.aligned middle
    refine ⟨last, fun x mem => ?_⟩
    rcases mem_append.mp mem with here | there
    · exact left x here
    · exact right x there
  nodup := by
    refine nodup_append.mpr ⟨first.nodup, second.nodup, ?_⟩
    intro x here y there same
    have := first.inside x here
    have := second.inside y there
    omega
  inside x mem := by
    rcases mem_append.mp mem with here | there
    · have := first.inside x here
      have := second.le
      omega
    · have := second.inside x there
      have := first.le
      omega

theorem perm (fresh : Fresh a b f) (same : f.Perm g) : Fresh a b g where
  le := fresh.le
  bounded := fresh.bounded
  aligned h := ⟨(fresh.aligned h).1, fun x mem =>
    (fresh.aligned h).2 x (same.mem_iff.mpr mem)⟩
  nodup := same.nodup_iff.mp fresh.nodup
  inside x mem := fresh.inside x (same.mem_iff.mpr mem)

theorem unused (fresh : Fresh a b f) : Fresh a b [] :=
  ⟨fresh.le, fresh.bounded, fun h => ⟨(fresh.aligned h).1, by simp⟩, .nil, by simp⟩

end Fresh

theorem Fresh.consecutive (a n : Nat) (fits : a + 4 * n ≤ endAddr)
    : Fresh a (a + 4 * n) (consecutive a n) where
  le := Nat.le_add_right _ _
  bounded _ := fits
  aligned whole := by
    refine ⟨by omega, fun x mem => ?_⟩
    obtain ⟨i, _, rfl⟩ := mem_consecutive.mp mem
    omega
  nodup := by
    refine List.Nodup.map_on ?_ nodup_range
    intro i _ j _ same
    omega
  inside x mem := by
    obtain ⟨i, small, rfl⟩ := mem_consecutive.mp mem
    omega

theorem width_max {s : Nat} (pos : s ≠ 0) : max ((s + 3) / 4) 1 = (s + 3) / 4 := by omega

/-- Nothing is allocated. -/
structure GenState.SameLists (st st' : GenState) : Prop where
  batch : st'.batch = st.batch
  next : st'.nextAddr = st.nextAddr

/-- New words at the end of the five lists. -/
structure Adds (st st' : GenState) (new : Batch) : Prop where
  lists : st'.batch = st.batch.append new
  fresh : Fresh st.nextAddr st'.nextAddr new.words

namespace Adds

variable {st st' st'' : GenState} {new new' : Batch}

theorem trans (first : Adds st st' new) (second : Adds st' st'' new')
    : Adds st st'' (new.append new') :=
  ⟨by rw [second.lists, first.lists, Batch.append_assoc],
    (first.fresh.append second.fresh).perm (Batch.words_append _ _)⟩

theorem none (same : st.SameLists st') : Adds st st' .empty :=
  ⟨by simp [same.batch], by rw [same.next]; exact .nil _⟩

theorem same {st0 st1 : GenState} (adds : Adds st0 st1 new) (before : st.SameLists st0)
    (after : st1.SameLists st')
    : Adds st st' new :=
  ⟨by rw [after.batch, adds.lists, before.batch],
    by rw [after.next, ← before.next]; exact adds.fresh⟩

theorem allocated (adds : Adds st st' new) {start : Nat}
    (before : Fresh start st.nextAddr st.batch.words)
    : Fresh start st'.nextAddr st'.batch.words := by
  rw [adds.lists]
  exact (before.append adds.fresh).perm (Batch.words_append _ _)

end Adds

section

variable {choices : Choices} {name : RegName} {len k : Nat} {st st' : GenState} {new : Batch}

theorem Adds.of_allocates (allocates : Allocates k new st st')
    (fresh : Fresh st.nextAddr (st.nextAddr + 4 * k) new.words)
    : Adds st st' new :=
  ⟨allocates.lists, allocates.next ▸ fresh⟩

theorem Fresh.input {a : Nat} (pos : len ≠ 0)
    (fits : a + 4 * (3 * ((len + 3) / 4)) ≤ endAddr)
    : Fresh a (a + 4 * (3 * ((len + 3) / 4))) (Batch.input a len).words := by
  have first := Fresh.consecutive a ((len + 3) / 4) (by omega)
  have second := Fresh.consecutive (a + 4 * ((len + 3) / 4)) ((len + 3) / 4) (by omega)
  have third := Fresh.consecutive (a + 4 * ((len + 3) / 4) + 4 * ((len + 3) / 4))
    ((len + 3) / 4) (by omega)
  have all := (first.append second).append third
  have last : a + 4 * ((len + 3) / 4) + 4 * ((len + 3) / 4) + 4 * ((len + 3) / 4)
      = a + 4 * (3 * ((len + 3) / 4)) := by omega
  simpa only [Batch.words, Batch.input, width_max pos, append_nil, last] using all

theorem padR_adds {upTo : Nat} (res : padR upTo st = some st')
    : ∃ r rBak bak,
        Adds st st' ⟨r, rBak, [], bak, []⟩
        ∧ r.length = upTo - st.feistelR.length
        ∧ rBak.length = upTo - st.feistelR.length
        ∧ bak.length = upTo - st.feistelR.length := by
  refine padR_induction
    (P := fun k st' => ∃ r rBak bak,
      Adds st st' ⟨r, rBak, [], bak, []⟩ ∧ r.length = k ∧ rBak.length = k ∧ bak.length = k)
    ⟨[], [], [], .none ⟨rfl, rfl⟩, rfl, rfl, rfl⟩ ?_ res
  rintro k st1 st2 ⟨r, rBak, bak, sofar, length1, length2, length3⟩ step
  have adds := Adds.of_allocates step (.input (by decide : 4 ≠ 0) step.fits)
  exact ⟨_, _, _, sofar.trans adds, by simp [Batch.input, length1],
    by simp [Batch.input, length2], by simp [Batch.input, length3]⟩

theorem addOutput_adds (pos : len ≠ 0) (res : addOutput choices len st = some st')
    : Adds st st' (.output st.nextAddr len) := by
  have allocates := addOutput_allocates res
  have fits := allocates.fits
  have first := Fresh.consecutive st.nextAddr ((len + 3) / 4) (by omega)
  have second := Fresh.consecutive (st.nextAddr + 4 * ((len + 3) / 4)) ((len + 3) / 4) (by omega)
  have last : st.nextAddr + 4 * ((len + 3) / 4) + 4 * ((len + 3) / 4)
      = st.nextAddr + 4 * (2 * ((len + 3) / 4)) := by omega
  refine .of_allocates allocates ?_
  simpa [Batch.words, Batch.output, width_max pos, last] using first.append second

/-- Two L blocks for exception data, and R blocks until there are as many. -/
theorem addExceptionBlocks_adds (res : addExceptionBlocks choices st = some st')
    : ∃ r rBak l,
        Adds st st' ⟨r, rBak, l, [], []⟩
        ∧ l.length = 2
        ∧ r.length = st.feistelL.length + 2 - st.feistelR.length
        ∧ rBak.length = st.feistelL.length + 2 - st.feistelR.length := by
  refine addExceptionBlocks_induction
    (P := fun k st' => ∃ r rBak l,
      Adds st st' ⟨r, rBak, l, [], []⟩ ∧ l.length = 2 ∧ r.length = k ∧ rBak.length = k)
    (fun st1 first => ?_) ?_ res
  · exact ⟨[], [], _, .of_allocates first (.consecutive _ 2 first.fits), by simp, rfl, rfl⟩
  · rintro k st1 st2 ⟨r, rBak, l, sofar, two, length1, length2⟩ step
    have fits := step.fits
    have fresh := (Fresh.consecutive st1.nextAddr 1 (by omega)).append
      (Fresh.consecutive (st1.nextAddr + 4) 1 (by omega))
    have adds := Adds.of_allocates step (by simpa [Batch.words] using fresh)
    have all := sofar.trans adds
    simp only [Batch.append, append_nil] at all
    exact ⟨_, _, l, all, two, by simp [length1], by simp [length2]⟩

theorem padL_adds (res : padL choices st = some st')
    : ∃ l,
        Adds st st' ⟨[], [], l, [], []⟩ ∧ l.length = st.feistelR.length - st.feistelL.length := by
  refine padL_induction
    (P := fun k st' => ∃ l, Adds st st' ⟨[], [], l, [], []⟩ ∧ l.length = k)
    ⟨[], .none ⟨rfl, rfl⟩, rfl⟩ ?_ res
  rintro k st1 st2 ⟨l, sofar, length⟩ step
  have adds := Adds.of_allocates step (by simpa [Batch.words] using .consecutive _ 1 step.fits)
  exact ⟨_, sofar.trans adds, by simp [length]⟩

end

/-- Words for the given inputs are added for the first test case, and none later. -/
structure AddsInputs (isInit : Bool) (st st' : GenState) (items : List Item) (new : Batch)
    : Prop where
  adds : Adds st st' new
  l : new.l = []
  outs : new.outs = []
  r : new.r.length = (if isInit then totalWidth items else 0)
  rBak : new.rBak.length = (if isInit then totalWidth items else 0)
  ins : new.ins.length = (if isInit then totalWidth items else 0)
  inputs : isInit = true → Contiguous items new.r ∧ Contiguous items new.ins

theorem AddsInputs.zero {isInit : Bool} {st st' : GenState} (same : st.SameLists st')
    : AddsInputs isInit st st' [] .empty :=
  ⟨.none same, rfl, rfl, by simp [Batch.empty, totalWidth],
    by simp [Batch.empty, totalWidth], by simp [Batch.empty, totalWidth],
    fun _ => ⟨.nil _, .nil _⟩⟩

theorem AddsInputs.trans {isInit : Bool} {st st' st'' : GenState} {items more : List Item}
    {new new' : Batch} (first : AddsInputs isInit st st' items new)
    (second : AddsInputs isInit st' st'' more new')
    : AddsInputs isInit st st'' (items ++ more) (new.append new') where
  adds := first.adds.trans second.adds
  l := by simp [Batch.append, first.l, second.l]
  outs := by simp [Batch.append, first.outs, second.outs]
  r := by
    cases isInit <;> simp [Batch.append, first.r, second.r, totalWidth_append]
  rBak := by
    cases isInit <;> simp [Batch.append, first.rBak, second.rBak, totalWidth_append]
  ins := by
    cases isInit <;> simp [Batch.append, first.ins, second.ins, totalWidth_append]
  inputs isFirst := by
    obtain ⟨r, ins⟩ := first.inputs isFirst
    obtain ⟨r', ins'⟩ := second.inputs isFirst
    exact ⟨r.append (by simp [first.r, isFirst]) r', ins.append (by simp [first.ins, isFirst]) ins'⟩

section

variable {inst : Inst} {isInit : Bool} {op : Operand} {st st' : GenState} {e : Emitted}

/-- What an operand that is read adds to the lists. -/
inductive LoadLists (inst : Inst) (op : Operand) (st st' : GenState) : Bool → Prop
  | nothing {isInit : Bool} (items : inst.loadItems op = []) (same : st.SameLists st')
    : LoadLists inst op st st' isInit
  | kept (lists : st'.batch = st.batch) (unused : Fresh st.nextAddr st'.nextAddr [])
    : LoadLists inst op st st' false
  | added (positive : op.len ≠ 0) (width : totalWidth (inst.loadItems op) = (op.len + 3) / 4)
      (whole : ∀ a, Contiguous (inst.loadItems op) (consecutive a ((op.len + 3) / 4)))
      (lists : st'.batch = st.batch.append (.input st.nextAddr op.len))
      (next : st'.nextAddr = st.nextAddr + 4 * (3 * ((op.len + 3) / 4)))
      (fits : st.nextAddr + 4 * (3 * ((op.len + 3) / 4)) ≤ endAddr)
    : LoadLists inst op st st' true

theorem handleRegRead_lists {name : Option RegName} (kind : op.kind = .reg name)
    (res : handleRegRead inst isInit op name st = some (e, st'))
    : LoadLists inst op st st' isInit := by
  cases handleRegRead_cases res with
  | skipped regs items => exact .nothing (items kind) ⟨rfl, rfl⟩
  | handled items pos added =>
    cases isInit with
    | false =>
      cases added
      exact .kept rfl (.nil _)
    | true =>
      have allocates := addInput_allocates added
      exact .added pos (by rw [items kind]; rfl)
        (fun a => by rw [items kind]; exact .single _ a (Nat.le_refl _))
        allocates.lists allocates.next allocates.fits

theorem handleMemReadBlock_adds {idx val rBak bak : Nat}
    (res : handleMemReadBlock inst isInit idx val rBak bak st = some (e, st'))
    : st'.nextAddr = st.nextAddr
      ∧ st'.batch = st.batch.append
          (if isInit then ⟨[val], [rBak], [], [bak], []⟩ else .empty) := by
  obtain ⟨st1, _, _, added, _, _, _, rfl⟩ := handleMemReadBlock_cases res
  cases isInit with
  | false =>
    cases added
    exact ⟨rfl, by simp [GenState.batch]⟩
  | true =>
    obtain ⟨r, _, final⟩ := Option.bind_eq_some_iff.mp added
    cases final
    simp [GenState.batch, Batch.append]

/-- The blocks of a memory operand get the words that were allocated for it. -/
theorem handleMemRead_lists {n : Nat} (kind : op.kind = .mem n) (pos : op.len ≠ 0)
    (res : handleMemRead inst isInit op st = some (e, st'))
    : LoadLists inst op st st' isInit := by
  -- after `k` blocks the first `k` words of each list have been added
  have parts := handleMemRead_cases
    (P := fun k _ st1 =>
      st1.nextAddr = st.nextAddr + 4 * (3 * ((op.len + 3) / 4))
      ∧ st.nextAddr + 4 * (3 * ((op.len + 3) / 4)) ≤ endAddr
      ∧ st1.batch = st.batch.append
          (if isInit then
            ⟨consecutive st.nextAddr k, consecutive (st.nextAddr + 4 * ((op.len + 3) / 4)) k, [],
              consecutive
                (st.nextAddr + 4 * ((op.len + 3) / 4) + 4 * ((op.len + 3) / 4)) k, []⟩
          else .empty))
    res ?_ ?_
  · rcases parts with ⟨_, rfl, pop⟩ | ⟨_, rfl, items⟩ | ⟨_, ⟨next, fits, lists⟩, items⟩
    · exact .nothing (by simp [Inst.loadItems, kind, pop]) ⟨rfl, rfl⟩
    · exact .nothing (items n kind) ⟨rfl, rfl⟩
    · rw [width_max pos] at lists items
      cases isInit with
      | false =>
        have moves : st.nextAddr ≤ st'.nextAddr := by omega
        exact .kept (by simpa using lists)
          ⟨moves, fun _ => next ▸ fits, fun whole => ⟨by omega, by simp⟩, .nil, by simp⟩
      | true =>
        refine .added pos ?_ ?_ ?_ next fits
        · rw [items n kind, totalWidth_blocks, length_range]
        · exact fun a => items n kind ▸ .blocks (by simp)
        · simpa [Batch.input, width_max pos] using lists
  · intro st1 allocates
    refine ⟨allocates.next, allocates.fits, ?_⟩
    have lists : st1.batch = st.batch := allocates.lists.trans (Batch.append_empty _)
    cases isInit <;> simp [lists, Batch.append, Batch.empty, consecutive_zero]
  · rintro k _ st1 _ st2 _ ⟨next, fits, lists⟩ block
    obtain ⟨next', lists'⟩ := handleMemReadBlock_adds block
    refine ⟨next'.trans next, fits, ?_⟩
    rw [lists', lists, Batch.append_assoc]
    cases isInit with
    | false => simp
    | true => simp [Batch.append, consecutive, range_succ]

theorem LoadLists.adds (lists : LoadLists inst op st st' isInit)
    : ∃ new, AddsInputs isInit st st' (inst.loadItems op) new := by
  cases lists with
  | nothing items same =>
    rw [items]
    exact ⟨_, .zero same⟩
  | kept lists unused => exact ⟨.empty, ⟨by simp [lists], unused⟩, rfl, rfl, rfl, rfl, rfl, by simp⟩
  | added pos width whole lists next fits =>
    refine ⟨_, ⟨lists, next ▸ .input pos fits⟩, rfl, rfl, ?_, ?_, ?_, fun _ => ?_⟩
    · simp [Batch.input, width, width_max pos]
    · simp [Batch.input, width, width_max pos]
    · simp [Batch.input, width, width_max pos]
    · rw [Batch.input, width_max pos]
      exact ⟨whole _, whole _⟩

theorem firstPass_adds (decoded : inst.Decoded)
    (res
      : handleOp (handleMemRead inst isInit) (handleRegRead inst isInit) inst.operands st
        = some (e, st'))
    : ∃ new, AddsInputs isInit st st' inst.loads new := by
  refine handleOp_induction
    (P := fun done _ st' => ∃ new, AddsInputs isInit st st' (done.flatMap inst.loadItems) new)
    ⟨_, .zero ⟨rfl, rfl⟩⟩ ?_ ?_ res
  · rintro done op name _ st1 _ st2 _ kind ⟨_, sofar⟩ handled
    obtain ⟨_, step⟩ := (handleRegRead_lists kind handled).adds
    exact ⟨_, by simpa using sofar.trans step⟩
  · rintro done op n _ st1 _ st2 mem kind ⟨_, sofar⟩ handled
    have pos := decoded op (Inst.mem_of_arranged mem) n kind
    obtain ⟨_, step⟩ := (handleMemRead_lists kind pos handled).adds
    exact ⟨_, by simpa using sofar.trans step⟩

end

/-- Words for the given outputs are added for the first test case; there are always enough
R blocks for them.
-/
structure AddsOutputs (isInit : Bool) (st st' : GenState) (items : List Item) (new : Batch)
    : Prop where
  adds : Adds st st' new
  l : new.l.length = (if isInit then totalWidth items else 0)
  outs : new.outs.length = (if isInit then totalWidth items else 0)
  r : new.r.length = st.countL + totalWidth items - st.feistelR.length
  rBak : new.rBak.length = st.countL + totalWidth items - st.feistelR.length
  ins : new.ins.length = st.countL + totalWidth items - st.feistelR.length
  outputs : isInit = true → Contiguous items new.outs

section

variable {inst : Inst} {choices : Choices} {isInit : Bool} {op : Operand}
  {st st' : GenState} {e : Emitted} {items more : List Item} {new new' : Batch}

theorem AddsOutputs.zero (enough : st.countL ≤ st.feistelR.length) (same : st.SameLists st')
    : AddsOutputs isInit st st' [] .empty where
  adds := .none same
  l := by simp [Batch.empty, totalWidth]
  outs := by simp [Batch.empty, totalWidth]
  r := by simp [Batch.empty, totalWidth]; omega
  rBak := by simp [Batch.empty, totalWidth]; omega
  ins := by simp [Batch.empty, totalWidth]; omega
  outputs _ := .nil _

theorem AddsOutputs.longer (adds : AddsOutputs isInit st st' items new)
    : st'.feistelR = st.feistelR ++ new.r :=
  congrArg Batch.r adds.adds.lists

theorem AddsOutputs.enough (adds : AddsOutputs isInit st st' items new)
    : st.countL + totalWidth items ≤ st'.feistelR.length := by
  have length := adds.r
  rw [adds.longer, length_append]
  omega

theorem AddsOutputs.trans {st'' : GenState} (first : AddsOutputs isInit st st' items new)
    (count : st'.countL = st.countL + totalWidth items)
    (second : AddsOutputs isInit st' st'' more new')
    : AddsOutputs isInit st st'' (items ++ more) (new.append new') := by
  have r := second.r
  have rBak := second.rBak
  have ins := second.ins
  rw [first.longer, length_append, count] at r rBak ins
  have firstR := first.r
  have firstRBak := first.rBak
  have firstIns := first.ins
  exact {
    adds := first.adds.trans second.adds
    l := by cases isInit <;> simp [Batch.append, first.l, second.l, totalWidth_append]
    outs := by cases isInit <;> simp [Batch.append, first.outs, second.outs, totalWidth_append]
    r := by
      simp only [Batch.append, length_append, totalWidth_append]
      omega
    rBak := by
      simp only [Batch.append, length_append, totalWidth_append]
      omega
    ins := by
      simp only [Batch.append, length_append, totalWidth_append]
      omega
    outputs := fun isFirst =>
      (first.outputs isFirst).append (by simp [first.outs, isFirst]) (second.outputs isFirst) }

/-- L blocks for an output, then R blocks until there are enough. -/
theorem addOutput_padR_adds {st1 st2 : GenState} (pos : op.len ≠ 0)
    (width : totalWidth items = (op.len + 3) / 4)
    (added : whenInit isInit (addOutput choices op.len) st = some st1)
    (padded : padR (st1.countL + (op.len + 3) / 4) st1 = some st2)
    (shape
      : (∃ name, items = [.reg name op.len]) ∨ items = (List.range ((op.len + 3) / 4)).map .block)
    : ∃ new, AddsOutputs isInit st st2 items new := by
  obtain ⟨r, rBak, bak, pads, length1, length2, length3⟩ := padR_adds padded
  have count : st1.countL = st.countL := (whenInit_grown addOutput_grown added).countL
  rw [← width] at length1 length2 length3
  cases isInit with
  | false =>
    cases added
    exact ⟨_, pads, by simp, by simp, length1, length2, length3, by simp⟩
  | true =>
    have adds := addOutput_adds pos added
    have sameR : st1.feistelR = st.feistelR := by
      simpa [GenState.batch, Batch.append, Batch.output] using congrArg Batch.r adds.lists
    refine ⟨_, adds.trans pads, ?_, ?_, ?_, ?_, ?_, fun _ => ?_⟩
    · simp [Batch.append, Batch.output, width_max pos, width]
    · simp [Batch.append, Batch.output, width_max pos, width]
    · simp [Batch.append, Batch.output, length1, count, sameR]
    · simp [Batch.append, Batch.output, length2, count, sameR]
    · simp [Batch.append, Batch.output, length3, count, sameR]
    · simp only [Batch.append, Batch.output, append_nil, width_max pos]
      rcases shape with ⟨name, rfl⟩ | rfl
      · exact .single _ _ (Nat.le_refl _)
      · exact .blocks (by simp)

/-- What an operand that is written adds to the lists. -/
def StoreLists (inst : Inst) (choices : Choices) (isInit : Bool) (op : Operand)
    (st st' : GenState)
    : Prop :=
  (inst.storeItems op = [] ∧ st.SameLists st')
  ∨ ∃ st0 st1 st2,
      ((∃ name, inst.storeItems op = [.reg name op.len])
        ∨ inst.storeItems op = (List.range ((op.len + 3) / 4)).map .block)
      ∧ op.len ≠ 0
      ∧ st.SameLists st0
      ∧ st0.countL = st.countL
      ∧ whenInit isInit (addOutput choices op.len) st0 = some st1
      ∧ padR (st1.countL + (op.len + 3) / 4) st1 = some st2
      ∧ st2.SameLists st'

theorem handleRegWrite_lists (inst : Inst) {name : Option RegName} (kind : op.kind = .reg name)
    (res : handleRegWrite choices isInit op name st = some (e, st'))
    : StoreLists inst choices isInit op st st' := by
  cases handleRegWrite_cases inst res with
  | skipped regs items => exact .inl ⟨items kind, rfl, rfl⟩
  | handled items pos added padded =>
    refine .inr ⟨_, _, _, .inl ⟨_, items kind⟩, pos, ?_, ?_, added, padded, rfl, rfl⟩
    · exact ⟨rfl, rfl⟩
    · rfl

theorem handleMemWriteBlocks_same {r : Nat}
    (looped : handleMemWriteBlocks inst choices r st = some (e, st'))
    : st.SameLists st' := by
  refine handleMemWriteBlocks_induction (P := fun _ _ st' => st.SameLists st') ⟨rfl, rfl⟩ ?_ looped
  intro _ _ st1 _ st2 sofar block
  obtain ⟨_, _, _, _, _, _, _, _, _, rfl⟩ := handleMemWriteBlock_cases block
  exact ⟨sofar.batch, sofar.next⟩

theorem handleMemWrite_lists {n : Nat} (kind : op.kind = .mem n) (pos : op.len ≠ 0)
    (res : handleMemWrite inst choices isInit op st = some (e, st'))
    : StoreLists inst choices isInit op st st' := by
  rcases handleMemWrite_cases res with
    ⟨_, rfl, items⟩ | ⟨st1, st2, st3, added, padded, looped, rfl, items⟩
  · exact .inl ⟨items n kind, rfl, rfl⟩
  · have same := handleMemWriteBlocks_same looped
    refine .inr ⟨_, st1, st2, .inr (items n kind), pos, ?_, ?_, added, padded, same.batch,
      same.next⟩
    · exact ⟨rfl, rfl⟩
    · rfl

/-- Words for the outputs of an operand, and R blocks until there are enough. -/
theorem StoreLists.adds (lists : StoreLists inst choices isInit op st st')
    (enough : st.countL ≤ st.feistelR.length)
    : ∃ new, AddsOutputs isInit st st' (inst.storeItems op) new := by
  rcases lists with ⟨none, same⟩ | ⟨st0, st1, st2, shape, pos, before, count, added, padded,
    after⟩
  · rw [none]
    exact ⟨_, .zero enough same⟩
  · have width : totalWidth (inst.storeItems op) = (op.len + 3) / 4 := by
      rcases shape with ⟨name, item⟩ | items
      · rw [item]
        rfl
      · simp [items, totalWidth_blocks]
    obtain ⟨new, adds, l, outs, r, rBak, ins, outputs⟩ :=
      addOutput_padR_adds pos width added padded shape
    have sameR : st0.feistelR = st.feistelR := congrArg Batch.r before.batch
    rw [count, sameR] at r rBak ins
    exact ⟨new, adds.same before after, l, outs, r, rBak, ins, outputs⟩

end

end FastPokeEmu.Floppy
