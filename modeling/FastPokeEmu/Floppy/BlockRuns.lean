import FastPokeEmu.Floppy.Generated

/-! Where the R blocks lie. An operand that is read gets consecutive R blocks, followed by their
backups; R blocks that the second pass adds are single words between those of other lists.
So two R blocks follow each other in memory only if the same operand is read from both.
-/

namespace FastPokeEmu.Floppy

open List

/-- Indices of the first words of runs of the given widths, with these widths. -/
def runsFrom (start : Nat) : List Nat → List (Nat × Nat)
  | [] => []
  | n :: rest => (start, n) :: runsFrom (start + n) rest

theorem runsFrom_append (start : Nat) (left right : List Nat)
    : runsFrom start (left ++ right)
      = runsFrom start left ++ runsFrom (start + left.sum) right := by
  induction left generalizing start with
  | nil => simp [runsFrom]
  | cons n rest ih => simp [runsFrom, ih, Nat.add_assoc]

theorem runsFrom_bounds {start : Nat} {ns : List Nat} {run : Nat × Nat}
    (mem : run ∈ runsFrom start ns)
    : start ≤ run.1 := by
  induction ns generalizing start with
  | nil => cases mem
  | cons n rest ih =>
    rcases mem_cons.mp mem with rfl | later
    · exact le_rfl
    · exact le_trans (Nat.le_add_right start n) (ih later)

/-- An index belongs to one run only. -/
theorem runsFrom_unique {start : Nat} {ns : List Nat} {run other : Nat × Nat}
    (mem : run ∈ runsFrom start ns) (mem' : other ∈ runsFrom start ns) {i : Nat}
    (inside : run.1 ≤ i ∧ i < run.1 + run.2) (inside' : other.1 ≤ i ∧ i < other.1 + other.2)
    : run = other := by
  induction ns generalizing start with
  | nil => cases mem
  | cons n rest ih =>
    rcases mem_cons.mp mem with rfl | later
    · rcases mem_cons.mp mem' with rfl | later'
      · rfl
      · have := runsFrom_bounds later'
        omega
    · rcases mem_cons.mp mem' with rfl | later'
      · have := runsFrom_bounds later
        omega
      · exact ih later later'

/-- Both an index and the next one belong to one of the runs. -/
def JoinedIn (runs : List (Nat × Nat)) (i : Nat) : Prop :=
  ∃ run ∈ runs, run.1 ≤ i ∧ i + 1 < run.1 + run.2

/-- The runs of R blocks: one for each operand that is read. -/
def Inst.runs (inst : Inst) : List (Nat × Nat) :=
  runsFrom 0 (inst.arranged.map (fun op => totalWidth (inst.loadItems op)))

/-- R blocks are in increasing order, with at least one word between those that are not
joined and behind the last one.
-/
structure Spaced (joined : Nat → Prop) (st : GenState) : Prop where
  gap : ∀ a ∈ st.feistelR, a + 8 ≤ st.nextAddr
  sorted : st.feistelR.Pairwise (fun a b => a + 4 ≤ b)
  adjacent
    : ∀ i a, st.feistelR[i]? = some a → st.feistelR[i + 1]? = some (a + 4) → joined i

namespace Spaced

variable {joined : Nat → Prop} {st st' : GenState}

theorem same (spaced : Spaced joined st) (r : st'.feistelR = st.feistelR)
    (next : st.nextAddr ≤ st'.nextAddr)
    : Spaced joined st' := by
  refine ⟨fun a mem => ?_, r ▸ spaced.sorted, r ▸ spaced.adjacent⟩
  rw [r] at mem
  exact le_trans (spaced.gap a mem) next

/-- New R blocks that follow each other, with at least one word behind them. -/
theorem add (spaced : Spaced joined st) {n : Nat} (pos : 0 < n)
    (r : st'.feistelR = st.feistelR ++ consecutive st.nextAddr n)
    (next : st.nextAddr + 4 * n + 4 ≤ st'.nextAddr)
    : Spaced
        (fun i => joined i ∨ st.feistelR.length ≤ i ∧ i + 1 < st.feistelR.length + n) st' where
  gap a mem := by
    rw [r] at mem
    rcases mem_append.mp mem with old | new
    · have := spaced.gap a old
      omega
    · obtain ⟨i, inside, rfl⟩ := mem_consecutive.mp new
      omega
  sorted := by
    rw [r, pairwise_append]
    refine ⟨spaced.sorted, ?_, ?_⟩
    · rw [consecutive, pairwise_map]
      refine pairwise_lt_range.imp ?_
      intro i j before
      omega
    · intro a old b new
      obtain ⟨i, inside, rfl⟩ := mem_consecutive.mp new
      have := spaced.gap a old
      omega
  adjacent i a here next := by
    rw [r] at here next
    by_cases old : i + 1 < st.feistelR.length
    · rw [List.getElem?_append_left (by omega)] at here
      rw [List.getElem?_append_left old] at next
      exact .inl (spaced.adjacent i a here next)
    · -- the second block is new, and if the first one is not then there is a gap
      have inside := (List.getElem?_eq_some_iff.mp next).1
      rw [length_append, length_consecutive] at inside
      rw [List.getElem?_append_right (by omega), getElem?_consecutive (by omega)] at next
      by_cases first : i < st.feistelR.length
      · rw [List.getElem?_append_left first] at here
        have := spaced.gap a (mem_of_getElem? here)
        have := Option.some.inj next
        omega
      · exact .inr ⟨by omega, by omega⟩

theorem addOne (spaced : Spaced joined st)
    (r : st'.feistelR = st.feistelR ++ consecutive st.nextAddr 1)
    (next : st.nextAddr + 8 ≤ st'.nextAddr)
    : Spaced joined st' := by
  have added := spaced.add (by decide) r (by omega)
  refine ⟨added.gap, added.sorted, fun i a here next => ?_⟩
  rcases added.adjacent i a here next with old | new
  · exact old
  · omega

end Spaced

section

variable {joined : Nat → Prop} {choices : Choices} {st st' : GenState} (spaced : Spaced joined st)

include spaced

theorem padR_spaced {upTo : Nat} (res : padR upTo st = some st') : Spaced joined st' := by
  refine padR_induction (P := fun _ st => Spaced joined st) spaced (fun _ st1 st2 sofar step => ?_)
    res
  exact sofar.addOne (congrArg Batch.r step.lists) (by rw [step.next]; omega)

theorem addExceptionBlocks_spaced (res : addExceptionBlocks choices st = some st')
    : Spaced joined st' := by
  refine addExceptionBlocks_induction (P := fun _ st => Spaced joined st) (fun st1 first => ?_)
    (fun _ st1 st2 sofar step => ?_) res
  · exact spaced.same (by simpa [GenState.batch, Batch.append] using congrArg Batch.r first.lists)
      (by rw [first.next]; omega)
  · exact sofar.addOne (congrArg Batch.r step.lists) (by rw [step.next])

theorem padL_spaced (res : padL choices st = some st') : Spaced joined st' := by
  refine padL_induction (P := fun _ st => Spaced joined st) spaced (fun _ st1 st2 sofar step => ?_)
    res
  exact sofar.same (by simpa [GenState.batch, Batch.append] using congrArg Batch.r step.lists)
    (by rw [step.next]; omega)

end

/-- An operand that is read gets R blocks, backups of these, and words for its own backup. -/
structure AddsRun (n : Nat) (st st' : GenState) : Prop where
  r : st'.feistelR = st.feistelR ++ consecutive st.nextAddr n
  rBak : st'.feistelRBak = st.feistelRBak ++ consecutive (st.nextAddr + 4 * n) n
  l : st'.feistelL = st.feistelL
  next : st'.nextAddr = st.nextAddr + 12 * n

theorem AddsRun.zero {st st' : GenState} (same : st.SameLists st') : AddsRun 0 st st' := by
  obtain ⟨lists, next⟩ := same
  simp only [GenState.batch, Batch.mk.injEq] at lists
  obtain ⟨r, rBak, l, _⟩ := lists
  exact ⟨by simp [r, consecutive_zero], by simp [rBak, consecutive_zero], l, by simp [next]⟩

theorem LoadLists.run {inst : Inst} {op : Operand} {st st' : GenState}
    (lists : LoadLists inst op st st' true)
    : AddsRun (totalWidth (inst.loadItems op)) st st' := by
  cases lists with
  | nothing items same =>
    rw [items]
    exact .zero same
  | added pos width whole lists next fits =>
    simp only [GenState.batch, Batch.append, Batch.input, width_max pos, Batch.mk.injEq,
      append_nil] at lists
    rw [width]
    exact ⟨lists.1, lists.2.1, lists.2.2.1, by omega⟩

/-- The R blocks of the operands that have been handled, and their backups. -/
structure Arrayed (runs : List (Nat × Nat)) (st : GenState) : Prop where
  spaced : Spaced (JoinedIn runs) st
  r : st.feistelR.length = (runs.map Prod.snd).sum
  rBak : st.feistelRBak.length = (runs.map Prod.snd).sum
  whole
    : ∀ run ∈ runs, ∃ a, ∀ j < run.2,
        st.feistelR[run.1 + j]? = some (a + 4 * j)
        ∧ st.feistelRBak[run.1 + j]? = some (a + 4 * run.2 + 4 * j)

theorem Arrayed.add {runs : List (Nat × Nat)} {n : Nat} {st st' : GenState}
    (arrayed : Arrayed runs st) (adds : AddsRun n st st')
    : Arrayed (runs ++ [((runs.map Prod.snd).sum, n)]) st' where
  spaced := by
    rcases Nat.eq_zero_or_pos n with rfl | pos
    · have r : st'.feistelR = st.feistelR := by simpa [consecutive_zero] using adds.r
      have same := arrayed.spaced.same r (Nat.le_of_eq (by simpa using adds.next.symm))
      refine ⟨same.gap, same.sorted, fun i a here next => ?_⟩
      obtain ⟨run, mem, bounds⟩ := same.adjacent i a here next
      exact ⟨run, mem_append_left _ mem, bounds⟩
    · have added := arrayed.spaced.add pos adds.r (by rw [adds.next]; omega)
      refine ⟨added.gap, added.sorted, fun i a here next => ?_⟩
      rcases added.adjacent i a here next with ⟨run, mem, bounds⟩ | ⟨low, high⟩
      · exact ⟨run, mem_append_left _ mem, bounds⟩
      · rw [arrayed.r] at low high
        exact ⟨_, mem_append_right _ (mem_singleton.mpr rfl), low, high⟩
  r := by simp [adds.r, arrayed.r]
  rBak := by simp [adds.rBak, arrayed.rBak]
  whole run mem := by
    rcases mem_append.mp mem with old | new
    · obtain ⟨a, each⟩ := arrayed.whole run old
      refine ⟨a, fun j small => ?_⟩
      obtain ⟨atR, atRBak⟩ := each j small
      exact ⟨getElem?_of_shorter (adds.r ▸ prefix_append _ _) atR,
        getElem?_of_shorter (adds.rBak ▸ prefix_append _ _) atRBak⟩
    · rw [mem_singleton.mp new]
      refine ⟨st.nextAddr, fun j small => ⟨?_, ?_⟩⟩
      · rw [adds.r, List.getElem?_append_right (by rw [arrayed.r]; omega), arrayed.r,
          Nat.add_sub_cancel_left, getElem?_consecutive small]
      · rw [adds.rBak, List.getElem?_append_right (by rw [arrayed.rBak]; omega), arrayed.rBak,
          Nat.add_sub_cancel_left, getElem?_consecutive small]

theorem runsFrom_snd (start : Nat) (ns : List Nat) : (runsFrom start ns).map Prod.snd = ns := by
  induction ns generalizing start with
  | nil => rfl
  | cons n rest ih => simp [runsFrom, ih]

section

variable {inst : Inst} {choices : Choices} {st st' : GenState} {e : Emitted}

/-- After the first pass over the operands of the first test case. -/
theorem firstPass_arrayed (decoded : inst.Decoded) (empty : st.batch = .empty)
    (res
      : handleOp (handleMemRead inst true) (handleRegRead inst true) inst.operands st
        = some (e, st'))
    : Arrayed inst.runs st' ∧ st'.feistelL = [] := by
  have step {done : List Operand} {op : Operand} {st1 st2 : GenState}
      (sofar
        : Arrayed (runsFrom 0 (done.map (fun op => totalWidth (inst.loadItems op)))) st1
          ∧ st1.feistelL = [])
      (adds : AddsRun (totalWidth (inst.loadItems op)) st1 st2)
      : Arrayed (runsFrom 0 ((done ++ [op]).map (fun op => totalWidth (inst.loadItems op)))) st2
        ∧ st2.feistelL = [] := by
    refine ⟨?_, adds.l.trans sofar.2⟩
    have next := sofar.1.add adds
    rw [runsFrom_snd] at next
    rw [map_append, runsFrom_append, Nat.zero_add]
    exact next
  simp only [GenState.batch, Batch.empty, Batch.mk.injEq] at empty
  obtain ⟨r, rBak, l, _⟩ := empty
  refine handleOp_induction
    (P := fun done _ st =>
      Arrayed (runsFrom 0 (done.map (fun op => totalWidth (inst.loadItems op)))) st
      ∧ st.feistelL = [])
    ⟨⟨⟨by simp [r], by simp [r], by simp [r]⟩, by simp [r, runsFrom], by simp [rBak, runsFrom],
      by simp [runsFrom]⟩, l⟩ ?_ ?_ res
  · intro done op name _ st1 _ st2 _ kind sofar handled
    exact step sofar (handleRegRead_lists kind handled).run
  · intro done op n _ st1 _ st2 mem kind sofar handled
    have pos := decoded op (Inst.mem_of_arranged mem) n kind
    exact step sofar (handleMemRead_lists kind pos handled).run

theorem padR_l {upTo : Nat} (res : padR upTo st = some st') : st'.feistelL = st.feistelL := by
  obtain ⟨r, rBak, bak, adds, _⟩ := padR_adds res
  simpa [GenState.batch, Batch.append] using congrArg Batch.l adds.lists

theorem GenState.SameLists.grows (same : st.SameLists st') : st.Extends st' := by
  have lists := same.batch
  simp only [GenState.batch, Batch.mk.injEq] at lists
  obtain ⟨r, rBak, l, ins, outs⟩ := lists
  exact .same r rBak l ins outs

theorem StoreLists.grows {op : Operand} (lists : StoreLists inst choices true op st st')
    : st.Extends st' := by
  rcases lists with ⟨_, same⟩ | ⟨st0, st1, st2, _, _, before, _, added, padded, after⟩
  · exact same.grows
  · have grown := (addOutput_grown added).trans (padR_grown padded)
    exact before.grows.trans (grown.toExtends.trans after.grows)

/-- An operand that is written gets L blocks that follow each other; new R blocks do not. -/
theorem StoreLists.placed {op : Operand} (lists : StoreLists inst choices true op st st')
    {joined : Nat → Prop} (spaced : Spaced joined st)
    : Spaced joined st'
      ∧ ∃ l,
          st'.feistelL = st.feistelL ++ l
          ∧ l.length = totalWidth (inst.storeItems op)
          ∧ Contiguous (inst.storeItems op) l := by
  rcases lists with ⟨none, same⟩ | ⟨st0, st1, st2, shape, pos, before, _, added, padded, after⟩
  · have l : st'.feistelL = st.feistelL := congrArg Batch.l same.batch
    refine ⟨spaced.same (congrArg Batch.r same.batch) (Nat.le_of_eq same.next.symm), [], ?_⟩
    rw [none]
    exact ⟨by simp [l], rfl, .nil _⟩
  · have spaced0 : Spaced joined st0 :=
      spaced.same (congrArg Batch.r before.batch) (Nat.le_of_eq before.next.symm)
    have l0 : st0.feistelL = st.feistelL := congrArg Batch.l before.batch
    have l2 : st'.feistelL = st2.feistelL := congrArg Batch.l after.batch
    have lists : Spaced joined st1
        ∧ st1.feistelL = st0.feistelL ++ consecutive st0.nextAddr ((op.len + 3) / 4) := by
      have allocates := addOutput_allocates added
      have lists := allocates.lists
      simp only [GenState.batch, Batch.append, Batch.output, width_max pos, Batch.mk.injEq,
        append_nil] at lists
      exact ⟨spaced0.same lists.1 (by rw [allocates.next]; omega), lists.2.2.1⟩
    have spaced2 := padR_spaced lists.1 padded
    refine ⟨spaced2.same (congrArg Batch.r after.batch) (Nat.le_of_eq after.next.symm),
      consecutive st0.nextAddr ((op.len + 3) / 4), ?_, ?_⟩
    · rw [l2, padR_l padded, lists.2, l0]
    · rcases shape with ⟨name, item⟩ | items
      · rw [item]
        exact ⟨by simp [totalWidth, Item.width], .single _ _ (le_refl _)⟩
      · rw [items]
        exact ⟨by simp [totalWidth_blocks], .blocks (by simp)⟩

/-- After the second pass over the operands of the first test case. -/
theorem secondPass_placed (decoded : inst.Decoded) {joined : Nat → Prop}
    (spaced : Spaced joined st) (empty : st.feistelL = [])
    (res
      : handleOp (handleMemWrite inst choices true) (handleRegWrite choices true) inst.operands st
        = some (e, st'))
    : Spaced joined st' ∧ Contiguous inst.stores st'.feistelL ∧ st.Extends st' := by
  have step {done : List Operand} {op : Operand} {st1 st2 : GenState}
      (sofar
        : Spaced joined st1
          ∧ st1.feistelL.length = totalWidth (done.flatMap inst.storeItems)
          ∧ Contiguous (done.flatMap inst.storeItems) st1.feistelL
          ∧ st.Extends st1)
      (lists : StoreLists inst choices true op st1 st2)
      : Spaced joined st2
        ∧ st2.feistelL.length = totalWidth ((done ++ [op]).flatMap inst.storeItems)
        ∧ Contiguous ((done ++ [op]).flatMap inst.storeItems) st2.feistelL
        ∧ st.Extends st2 := by
    obtain ⟨spaced1, length, contiguous, grows⟩ := sofar
    obtain ⟨spaced2, l, added, width, new⟩ := lists.placed spaced1
    refine ⟨spaced2, ?_, ?_, grows.trans lists.grows⟩
    · simp [added, length, width, totalWidth_append]
    · rw [added, flatMap_append, flatMap_singleton]
      exact contiguous.append length new
  have invariant := handleOp_induction
    (P := fun done _ st' =>
      Spaced joined st'
      ∧ st'.feistelL.length = totalWidth (done.flatMap inst.storeItems)
      ∧ Contiguous (done.flatMap inst.storeItems) st'.feistelL
      ∧ st.Extends st')
    ⟨spaced, by simp [empty, totalWidth], .nil _, .refl _⟩ ?_ ?_ res
  · exact ⟨invariant.1, invariant.2.2⟩
  · intro done op name _ st1 _ st2 _ kind sofar handled
    exact step sofar (handleRegWrite_lists inst kind handled)
  · intro done op n _ st1 _ st2 mem kind sofar handled
    have pos := decoded op (Inst.mem_of_arranged mem) n kind
    exact step sofar (handleMemWrite_lists kind pos handled)

/-- Where the blocks of an instruction lie. -/
structure Placed (inst : Inst) (st : GenState) : Prop where
  sorted : st.feistelR.Pairwise (fun a b => a + 4 ≤ b)
  adjacent
    : ∀ i a,
        st.feistelR[i]? = some a → st.feistelR[i + 1]? = some (a + 4) → JoinedIn inst.runs i
  whole
    : ∀ run ∈ inst.runs, ∃ a, ∀ j < run.2,
        st.feistelR[run.1 + j]? = some (a + 4 * j)
        ∧ st.feistelRBak[run.1 + j]? = some (a + 4 * run.2 + 4 * j)
  lefts : Contiguous inst.stores st.feistelL

/-- The first test case of an instruction. -/
theorem genRoot_placed (decoded : inst.Decoded) {mode : Nat} {root : Root}
    (res : genRoot inst choices mode true .start = some (root, st'))
    : Placed inst st' := by
  simp only [genRoot, Option.bind_eq_bind, Option.bind_eq_some_iff, Prod.exists] at res
  obtain ⟨_, st1, first, _, st2, second, st3, exceptions, _, _, _, _, st4, padded, _, _, final⟩ :=
    res
  obtain ⟨arrayed, empty⟩ := firstPass_arrayed decoded rfl first
  obtain ⟨spaced2, lefts, grows2⟩ := secondPass_placed decoded arrayed.spaced empty second
  have spaced4 := padL_spaced (addExceptionBlocks_spaced spaced2 exceptions) padded
  have grows4 : st2.Extends st4 :=
    ((addExceptionBlocks_grown exceptions).trans (padL_grown padded)).toExtends
  cases final
  refine ⟨spaced4.sorted, spaced4.adjacent, fun run mem => ?_, lefts.mono grows4.l⟩
  obtain ⟨a, each⟩ := arrayed.whole run mem
  refine ⟨a, fun j small => ?_⟩
  obtain ⟨atR, atRBak⟩ := each j small
  exact ⟨getElem?_of_shorter (grows2.trans grows4).r atR,
    getElem?_of_shorter (grows2.trans grows4).rBak atRBak⟩

theorem generate_placed (decoded : inst.Decoded) {mode k : Nat} {root : Root}
    (res : generate inst choices mode k = some (root, st))
    : Placed inst st := by
  obtain ⟨root0, st0, start⟩ := generate_first res
  have placed := genRoot_placed decoded start
  obtain ⟨r, rBak, l⟩ := generate_blocks decoded start res
  exact ⟨r ▸ placed.sorted, r ▸ placed.adjacent, r ▸ rBak ▸ placed.whole, l ▸ placed.lefts⟩

end

end FastPokeEmu.Floppy
