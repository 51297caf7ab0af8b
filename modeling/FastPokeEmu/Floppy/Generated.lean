import FastPokeEmu.Floppy.FirstPass
import FastPokeEmu.Floppy.SecondPass

/-! What `gen_root` returns: the gadgets of all inputs and outputs, and lists of blocks in
which every index is written exactly once.
-/

namespace FastPokeEmu.Floppy

open List Option

/-- Number of L blocks, and of R blocks: enough for the inputs, for the outputs and the two
words of exception data.
-/
def Inst.blocks (inst : Inst) : Nat := max (totalWidth inst.loads) (totalWidth inst.stores + 2)

/-- Numbers of blocks; operands of several words have consecutive ones. -/
structure Sized (inst : Inst) (st : GenState) : Prop where
  r : st.feistelR.length = inst.blocks
  rBak : st.feistelRBak.length = inst.blocks
  l : st.feistelL.length = inst.blocks
  inputs : Contiguous inst.loads st.feistelR
  saved : Contiguous inst.loads st.feistelIn
  outputs : Contiguous inst.stores st.feistelOut

theorem Sized.same {inst : Inst} {st st' : GenState} (sized : Sized inst st)
    (lists : st'.batch = st.batch)
    : Sized inst st' := by
  simp only [GenState.batch, Batch.mk.injEq] at lists
  obtain ⟨r, rBak, l, ins, outs⟩ := lists
  exact ⟨r ▸ sized.r, rBak ▸ sized.rBak, l ▸ sized.l, r ▸ sized.inputs, ins ▸ sized.saved,
    outs ▸ sized.outputs⟩

/-- The state between two test cases of one instruction. -/
structure Ready (inst : Inst) (isInit : Bool) (st : GenState) : Prop where
  countR : st.countR = 0
  countL : st.countL = 0
  lRestore : st.lRestore = []
  ins : st.inToReg.Tidy inst
  outs : st.outToReg.Tidy inst
  allocated : Fresh (startAddr + 4) st.nextAddr st.batch.words
  sized : if isInit then st.batch = .empty else Sized inst st

theorem ready_start (inst : Inst) : Ready inst true .start where
  countR := rfl
  countL := rfl
  lRestore := rfl
  ins := by simp [ToReg.Tidy, GenState.start]
  outs := by simp [ToReg.Tidy, GenState.start]
  allocated := .nil _
  sized := rfl

/-- Feistel gadget of one word of exception data. -/
def ExceptionGadget (inst : Inst) (fin : GenState) (index addr : Nat) (g : Gadget) : Prop :=
  ∃ tb left right,
    tb.Fits inst fin
    ∧ fin.feistelL[index]? = some left
    ∧ fin.feistelR[index]? = some right
    ∧ genFeistelCipher tb 0 left (.mem (.abs addr)) right 4 = some g

/-- Copy of a surplus L block to the R block of the same index. -/
def SurplusGadget (inst : Inst) (fin : GenState) (index : Nat) (g : Gadget) : Prop :=
  ∃ tb left right,
    tb.Fits inst fin
    ∧ fin.feistelL[index]? = some left
    ∧ fin.feistelR[index]? = some right
    ∧ g = genStoreMem tb (.abs left) (.abs right)

/-- The lists that `gen_root` returns. -/
structure Generated (inst : Inst) (choices : Choices) (fin : GenState) (root : Root)
    (loads : List Load) (stores : List Store)
    : Prop where
  sized : Sized inst fin
  allocated : Fresh (startAddr + 4) fin.nextAddr fin.batch.words
  loadIndices
    : loads.map (fun load => (load.index, load.item)) = indexed 0 inst.loads
  storeIndices
    : stores.map (fun store => (store.index, store.item)) = indexed 0 inst.stores
  loadValid : ∀ load ∈ loads, load.Valid inst fin
  storeValid : ∀ store ∈ stores, store.Valid inst choices fin
  loadFresh
    : ∀ load ∈ loads,
        ∃ first ∈ loads, first.fresh = true ∧ inst.key first.item = inst.key load.item
  storeFresh
    : ∀ store ∈ stores, ∀ name len,
        store.item = .reg name len
        → store.fresh = true
          ∨ ∃ load ∈ loads, load.fresh = true ∧ inst.key load.item = .reg name
  freshReg
    : ∀ store ∈ stores, ∀ name len,
        store.item = .reg name len
        → store.fresh = true
        → ∀ load ∈ loads, inst.key load.item ≠ .reg name
  blockFresh
    : ∀ store ∈ stores, ∀ idx,
        store.item = .block idx
        → (∃ load ∈ loads, load.fresh = true ∧ inst.key load.item = .mem (inst.text 0))
          ∨ ∃ first ∈ stores, first.fresh = true ∧ first.item = .block 0
  freshBlock
    : ∀ store ∈ stores, ∀ idx, store.item = .block idx → store.fresh = true → idx = 0
  backup
    : root.backup
      = loads.flatMap (fun load => load.emitted.backup)
        ++ stores.flatMap (fun store => store.emitted.backup)
  setinput : root.setinput = loads.flatMap (fun load => load.emitted.setinput)
  restore
    : root.restore
      = loads.flatMap (fun load => load.emitted.restore)
        ++ stores.flatMap (fun store => store.emitted.restore)
  output
    : ∃ ecpt0 ecpt1 surplus,
        root.output.Perm (stores.map Store.record ++ [ecpt0, ecpt1] ++ surplus)
        ∧ ExceptionGadget inst fin (totalWidth inst.stores) edataAddr ecpt0
        ∧ ExceptionGadget inst fin (totalWidth inst.stores + 1) (edataAddr + 4) ecpt1
        ∧ List.Forall₂
            (fun k g => SurplusGadget inst fin (totalWidth inst.stores + 2 + k) g)
            (List.range (totalWidth inst.loads - (totalWidth inst.stores + 2))) surplus
  copies
    : ∃ tb,
        tb.Fits inst fin
        ∧ root.backupR = copyBlocks tb fin.feistelR fin.feistelRBak
        ∧ root.update = copyBlocks tb fin.feistelRBak fin.feistelL

section

variable {inst : Inst} {choices : Choices} {isInit : Bool} {st st' : GenState}
  {e : Emitted}

theorem collect_stores {seen : List Key} {items : List Item} {stores : List Store}
    (stored : Stored inst choices seen st items stores)
    : (collect (stores.map Store.emitted)).feistel = stores.map Store.record
      ∧ (collect (stores.map Store.emitted)).setinput = [] := by
  have each (store : Store) (mem : store ∈ stores) :=
    (storeEmitted_cases (stored.valid store mem).emits).2
  constructor
  · simp only [collect, flatMap_map]
    rw [flatMap_congr (fun store mem => (each store mem).2)]
    exact map_eq_flatMap.symm
  · simp only [collect, flatMap_map, flatMap_eq_nil_iff]
    exact fun store mem => (each store mem).1

/-- Numbers of blocks, and that no word is used twice. -/
theorem genRoot_sized {st1 st2 st3 st4 : GenState} {new1 new2 : Batch}
    (ready : Ready inst isInit st) (first : AddsInputs isInit st st1 inst.loads new1)
    (second : AddsOutputs isInit st1 st2 inst.stores new2) (count : st1.countL = 0)
    (exceptions : whenInit isInit (addExceptionBlocks choices) st2 = some st3)
    (padded : whenInit isInit (padL choices) st3 = some st4)
    : Sized inst st4 ∧ Fresh (startAddr + 4) st4.nextAddr st4.batch.words := by
  obtain ⟨adds1, l1, outs1, r1, rBak1, _, inputs⟩ := first
  obtain ⟨adds2, l2, outs2, r2, rBak2, _, outputs⟩ := second
  have allocated2 := adds2.allocated (adds1.allocated ready.allocated)
  have lists2 := adds2.lists
  rw [adds1.lists] at lists2
  simp only [GenState.batch, Batch.append, Batch.mk.injEq] at lists2
  have inR : st1.feistelR = st.feistelR ++ new1.r := congrArg Batch.r adds1.lists
  have sized := ready.sized
  cases isInit with
  | false =>
    cases exceptions
    cases padded
    simp only [Bool.false_eq_true, if_false] at *
    have enough : totalWidth inst.stores + 2 ≤ inst.blocks := le_max_right _ _
    refine ⟨⟨?_, ?_, ?_, ?_, ?_, ?_⟩, allocated2⟩
    · simp only [lists2, length_append, sized.r, r1, r2, inR, count]
      omega
    · simp only [lists2, length_append, sized.rBak, rBak1, rBak2, inR, sized.r, r1, count]
      omega
    · simp only [lists2, length_append, sized.l, l1, l2, length_nil]
      omega
    · exact sized.inputs.mono (by simp [lists2])
    · exact sized.saved.mono (by simp [lists2])
    · exact sized.outputs.mono (by simp [lists2])
  | true =>
    obtain ⟨r, rBak, l, adds3, two, r3, rBak3⟩ := addExceptionBlocks_adds exceptions
    obtain ⟨l', adds4, l4⟩ := padL_adds padded
    simp only [if_true] at sized
    have empty : st.feistelR = [] ∧ st.feistelRBak = [] ∧ st.feistelL = []
        ∧ st.feistelIn = [] ∧ st.feistelOut = [] :=
      ⟨congrArg Batch.r sized, congrArg Batch.rBak sized, congrArg Batch.l sized,
        congrArg Batch.ins sized, congrArg Batch.outs sized⟩
    have lists4 := adds4.lists
    have lists3 := adds3.lists
    simp only [GenState.batch, Batch.append, Batch.mk.injEq] at lists3 lists4
    simp only [if_true] at *
    refine ⟨⟨?_, ?_, ?_, ?_, ?_, ?_⟩, adds4.allocated (adds3.allocated allocated2)⟩
    · simp only [lists4, lists3, lists2, empty, length_append, length_nil, r1, r2,
        r3, l1, l2, inR, count, Inst.blocks]
      omega
    · simp only [lists4, lists3, lists2, empty, length_append, length_nil, r1, r2,
        rBak1, rBak2, rBak3, l1, l2, inR, count, Inst.blocks]
      omega
    · simp only [lists4, lists3, lists2, empty, length_append, length_nil, r1, r2,
        r3, l1, l2, l4, two, inR, count, Inst.blocks]
      omega
    · exact (inputs trivial).1.mono (by simp [lists4, lists3, lists2, empty])
    · exact (inputs trivial).2.mono (by simp [lists4, lists3, lists2, empty])
    · exact (outputs trivial).mono (by simp [lists4, lists3, lists2, empty, outs1])

/-- `gen_root` keeps the state ready and returns the gadgets of all operands. -/
theorem genRoot_generated (decoded : inst.Decoded) (ready : Ready inst isInit st)
    {mode : Nat} {root : Root}
    (res : genRoot inst choices mode isInit st = some (root, st'))
    : Ready inst false st'
      ∧ st.Extends st'
      ∧ ∃ loads stores, Generated inst choices st' root loads stores := by
  simp only [genRoot, bind_eq_bind, bind_eq_some_iff, Prod.exists] at res
  obtain ⟨reads, st1, first, writes, st2, second, st3, exceptions, ecpt0, made0, ecpt1, made1,
    st4, padded, surplus, copied, final⟩ := res
  have loaded0 : Loaded inst st [] [] :=
    ⟨rfl, by simp, by simp [ready.lRestore], by simp, ready.countR, ready.ins, ready.outs⟩
  obtain ⟨loads, loaded, emittedR, extends1, countL1, known⟩ := firstPass_loaded loaded0 first
  have zero : st1.countL = 0 := countL1.trans ready.countL
  have stored0 : Stored inst choices st1.lRestore st1 [] [] :=
    ⟨rfl, by simp, by simp, by simp, by simp, by simp, loaded.ins, loaded.outs⟩
  obtain ⟨stores, stored, countL2, emittedW, extends2, countR2, ⟨_, adds2⟩, _⟩ :=
    secondPass_stored decoded stored0 zero known second
  have grown3 : st2.Grown st3 := whenInit_grown addExceptionBlocks_grown exceptions
  have grown4 : st3.Grown st4 := whenInit_grown padL_grown padded
  have grown : st2.Grown st4 := grown3.trans grown4
  obtain ⟨_, adds1⟩ := firstPass_adds decoded first
  obtain ⟨sized, allocated⟩ := genRoot_sized ready adds1 adds2 zero exceptions padded
  have fits : st4.tables.Fits inst st4 := (stored.grown grown).fits
  have countL : st3.countL = totalWidth inst.stores := grown3.countL.trans countL2
  have countR : st4.countR = totalWidth inst.loads :=
    grown.countR.trans (countR2.trans loaded.countR)
  have exception {fin : GenState} {index addr : Nat} {g : Gadget} (grows : st3.Extends fin)
      (made : exceptionGadget st3 index addr = some g)
      : ExceptionGadget inst fin index addr g := by
    simp only [exceptionGadget, bind_eq_bind, bind_eq_some_iff] at made
    obtain ⟨left, atLeft, right, atRight, cipher⟩ := made
    exact ⟨_, left, right, (stored.grown grown3).fits.mono grows,
      getElem?_of_shorter grows.l atLeft, getElem?_of_shorter grows.r atRight, cipher⟩
  cases final
  have final : st4.Extends { st4 with countL := 0, countR := 0, lRestore := [] } :=
    .same rfl rfl rfl rfl rfl
  refine ⟨?_, extends1.trans (extends2.trans (grown.toExtends.trans final)), loads, stores, ?_⟩
  · exact ⟨rfl, rfl, rfl, (stored.grown grown).ins, (stored.grown grown).outs, allocated,
      sized.same rfl⟩
  · obtain ⟨feistels, setinputs⟩ := collect_stores stored
    have quiet := collect_loads_feistel loaded
    exact {
      sized := sized.same rfl
      allocated := allocated
      loadIndices := loaded.indices
      storeIndices := stored.indices
      loadValid := fun load mem => (loaded.valid load mem).mono
        ((extends2.trans grown.toExtends).trans final)
      storeValid := fun store mem => (stored.valid store mem).mono
        (grown.toExtends.trans final)
      loadFresh := fun load mem =>
        (loaded.keys (inst.key load.item)).mp (loaded.covered load mem)
      storeFresh := by
        intro store mem name len item
        by_cases seen : Key.reg name ∈ st1.lRestore
        · exact Or.inr ((loaded.keys (.reg name)).mp seen)
        · exact Or.inl ((stored.freshReg store mem name len item).mpr seen)
      freshReg := by
        intro store mem name len item fresh load loadMember key
        have unseen := (stored.freshReg store mem name len item).mp fresh
        exact unseen (key ▸ loaded.covered load loadMember)
      blockFresh := by
        intro store mem idx item
        rcases (stored.keys _).mp (stored.covered store mem idx item) with old | new
        · exact Or.inl ((loaded.keys _).mp old)
        · exact Or.inr new.2
      freshBlock := stored.freshBlock
      backup := by
        simp [Emitted.append, emittedR, emittedW.backup, collect, flatMap_map]
      setinput := by
        simp only [Emitted.append, emittedR, emittedW.setinput, setinputs, append_nil]
        simp [collect, flatMap_map]
      restore := by
        simp [Emitted.append, emittedR, emittedW.restore, collect, flatMap_map]
      output := by
        refine ⟨ecpt0, ecpt1, surplus, ?_, ?_, ?_, ?_⟩
        · simp only [Emitted.append, emittedR, quiet, nil_append]
          rw [← feistels]
          exact (emittedW.feistel.append_right _).append_right _
        · rw [← countL]
          exact exception (grown4.toExtends.trans final) made0
        · rw [← countL]
          exact exception (grown4.toExtends.trans final) made1
        · have each := Folds.forall₂_of_mapM copied
          rw [countR, countL] at each
          refine each.imp ?_
          intro k g made
          simp only [bind_eq_some_iff] at made
          obtain ⟨left, atLeft, right, atRight, same⟩ := made
          cases same
          exact ⟨_, left, right, fits.mono final, atLeft, atRight, rfl⟩
      copies := ⟨st4.tables, fits.mono final, rfl, rfl⟩ }

/-- Lists of the `k`-th test case of one instruction, and the state it leaves. -/
def generate (inst : Inst) (choices : Choices) (mode : Nat) : Nat → Option (Root × GenState)
  | 0 => genRoot inst choices mode true .start
  | k + 1 => do
      let (_, st) ← generate inst choices mode k
      genRoot inst choices mode false st

theorem generate_generated (decoded : inst.Decoded) {mode k : Nat} {root : Root}
    (res : generate inst choices mode k = some (root, st))
    : Ready inst false st ∧ ∃ loads stores, Generated inst choices st root loads stores := by
  induction k generalizing root st with
  | zero =>
    obtain ⟨ready, _, lists⟩ := genRoot_generated decoded (ready_start inst) res
    exact ⟨ready, lists⟩
  | succ k ih =>
    simp only [generate, bind_eq_bind, bind_eq_some_iff, Prod.exists] at res
    obtain ⟨_, before, earlier, later⟩ := res
    obtain ⟨ready, _, lists⟩ := genRoot_generated decoded (ih earlier).1 later
    exact ⟨ready, lists⟩

theorem generate_first {mode k : Nat} {root : Root}
    (res : generate inst choices mode k = some (root, st))
    : ∃ root0 st0, generate inst choices mode 0 = some (root0, st0) := by
  induction k generalizing root st with
  | zero => exact ⟨_, _, res⟩
  | succ k ih =>
    simp only [generate, bind_eq_bind, bind_eq_some_iff, Prod.exists] at res
    obtain ⟨_, _, earlier, _⟩ := res
    exact ih earlier

/-- All test cases of an instruction use the same blocks. -/
theorem generate_blocks (decoded : inst.Decoded) {mode k k' : Nat} {root root' : Root}
    (res : generate inst choices mode k = some (root, st))
    (result' : generate inst choices mode k' = some (root', st'))
    : st'.feistelR = st.feistelR
      ∧ st'.feistelRBak = st.feistelRBak
      ∧ st'.feistelL = st.feistelL := by
  have same {st st' : GenState} (before : Sized inst st) (after : Sized inst st')
      (grows : st.Extends st')
      : st'.feistelR = st.feistelR
        ∧ st'.feistelRBak = st.feistelRBak
        ∧ st'.feistelL = st.feistelL :=
    ⟨(grows.r.eq_of_length (before.r.trans after.r.symm)).symm,
      (grows.rBak.eq_of_length (before.rBak.trans after.rBak.symm)).symm,
      (grows.l.eq_of_length (before.l.trans after.l.symm)).symm⟩
  -- the blocks of the first test case are kept by every later one
  have first (k : Nat) {root root0 : Root} {st st0 : GenState}
      (start : generate inst choices mode 0 = some (root0, st0))
      (res : generate inst choices mode k = some (root, st))
      : st.feistelR = st0.feistelR
        ∧ st.feistelRBak = st0.feistelRBak
        ∧ st.feistelL = st0.feistelL := by
    induction k generalizing root st with
    | zero =>
      rw [start] at res
      cases res
      exact ⟨rfl, rfl, rfl⟩
    | succ k ih =>
      simp only [generate, bind_eq_bind, bind_eq_some_iff, Prod.exists]
        at res
      obtain ⟨_, before, earlier, later⟩ := res
      obtain ⟨ready, _⟩ := generate_generated decoded earlier
      obtain ⟨ready', grows, _⟩ := genRoot_generated decoded ready later
      obtain ⟨r, rBak, l⟩ := same ready.sized ready'.sized grows
      obtain ⟨r', rBak', l'⟩ := ih earlier
      exact ⟨r.trans r', rBak.trans rBak', l.trans l'⟩
  obtain ⟨root0, st0, start⟩ := generate_first res
  obtain ⟨r, rBak, l⟩ := first k start res
  obtain ⟨r', rBak', l'⟩ := first k' start result'
  exact ⟨r'.trans r.symm, rBak'.trans rBak.symm, l'.trans l.symm⟩

/-- However many test cases of an instruction are generated, all use the same L and R blocks, as
many as the instruction needs, and no word of the data area is handed out twice. -/
theorem generate_allocates (decoded : inst.Decoded) {mode k k' : Nat} {root root' : Root}
    (res : generate inst choices mode k = some (root, st))
    (res' : generate inst choices mode k' = some (root', st'))
    : (st'.feistelR = st.feistelR ∧ st'.feistelRBak = st.feistelRBak ∧ st'.feistelL = st.feistelL)
      ∧ Sized inst st
      ∧ st.batch.words.Nodup
      ∧ ∀ a ∈ st.batch.words, a % 4 = 0 ∧ startAddr + 4 ≤ a ∧ a + 4 ≤ endAddr := by
  obtain ⟨ready, -⟩ := generate_generated decoded res
  have fresh := ready.allocated
  refine ⟨generate_blocks decoded res res', ready.sized, fresh.nodup, fun a mem => ?_⟩
  obtain ⟨above, below⟩ := fresh.inside a mem
  exact ⟨(fresh.aligned (by decide)).2 a mem, above, below.trans (fresh.bounded (by decide))⟩

end

end FastPokeEmu.Floppy
