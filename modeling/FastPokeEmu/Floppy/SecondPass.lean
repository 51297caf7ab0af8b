import FastPokeEmu.Floppy.Allocation

/-! The second pass over the operands: outputs, the gadgets that record them, and what is
backed up and restored on their behalf.
-/

namespace FastPokeEmu.Floppy

open List Option Folds

/-- An output with its words and what was emitted for it. -/
structure Store where
  item : Item
  index : Nat
  left : Nat
  right : Nat
  bak : Nat
  scratch : Nat
  fresh : Bool
  tb : Tables
  record : Gadget
  emitted : Emitted

/-- A floating point register is stored to scratch words, which are recorded one by one. -/
def RecordsWords (fin : GenState) (tb : Tables) (scratch index n len : Nat) (record : Gadget)
    : Prop :=
  ∃ save words,
    genReg2Mem tb (.st n) scratch len = some save
    ∧ List.Forall₂
        (fun j g => ∃ left right,
          fin.feistelL[index + j]? = some left
          ∧ fin.feistelR[index + j]? = some right
          ∧ genFeistelCipher tb scratch left (.mem (.abs (scratch + 4 * j))) right 4 = some g)
        (List.range ((len + 3) / 4)) words
    ∧ Gadget.merge "feistel fpu" (save :: words) = some record

theorem RecordsWords.mono {fin fin' : GenState} {tb : Tables} {scratch index n len : Nat}
    {record : Gadget} (records : RecordsWords fin tb scratch index n len record)
    (grows : fin.Extends fin')
    : RecordsWords fin' tb scratch index n len record := by
  obtain ⟨save, words, saved, each, merged⟩ := records
  refine ⟨save, words, saved, each.imp ?_, merged⟩
  intro j g made
  obtain ⟨left, right, atLeft, atRight, cipher⟩ := made
  exact ⟨left, right, getElem?_of_shorter grows.l atLeft, getElem?_of_shorter grows.r atRight,
    cipher⟩

structure Store.Valid (inst : Inst) (choices : Choices) (fin : GenState) (store : Store)
    : Prop where
  left : fin.feistelL[store.index]? = some store.left
  right : fin.feistelR[store.index]? = some store.right
  bak : fin.feistelOut[store.index]? = some store.bak
  scratch : ∃ draw, store.scratch = choices.scratch draw
  records
    : match store.item with
      | .reg name len =>
        (∀ n, name ≠ .st n)
        → genFeistelCipher store.tb store.scratch store.left (.reg name) store.right len
          = some store.record
      | .block idx =>
        genFeistelCipher store.tb store.scratch store.left (.mem (inst.text idx))
            store.right 4
          = some store.record
  emits
    : storeEmitted inst store.tb store.bak store.fresh store.record store.item = some store.emitted
  fits : store.tb.Fits inst fin
  declared
    : match store.item with
      | .reg name _ => name ∈ store.tb.outToReg.regs
      | .block _ =>
        store.tb.outToReg.mems ≠ [] ∧ (inst.popCategory = false → store.tb.inToReg.mems ≠ [])
  fpu
    : ∀ n len,
        store.item = .reg (.st n) len
        → RecordsWords fin store.tb store.scratch store.index n len store.record

theorem Store.Valid.mono {inst : Inst} {choices : Choices} {fin fin' : GenState}
    {store : Store} (valid : store.Valid inst choices fin) (grows : fin.Extends fin')
    : store.Valid inst choices fin' :=
  ⟨getElem?_of_shorter grows.l valid.left, getElem?_of_shorter grows.r valid.right,
    getElem?_of_shorter grows.outs valid.bak, valid.scratch, valid.records, valid.emits,
    valid.fits.mono grows, valid.declared, fun n len item => (valid.fpu n len item).mono grows⟩

/-- The state of the second pass after some items, except for the index of the next one;
`seen` are the keys that the first pass has left.
-/
structure Stored (inst : Inst) (choices : Choices) (seen : List Key) (st : GenState)
    (items : List Item) (stores : List Store)
    : Prop where
  indices : stores.map (fun store => (store.index, store.item)) = indexed 0 items
  valid : ∀ store ∈ stores, store.Valid inst choices st
  keys
    : ∀ k,
        k ∈ st.lRestore
        ↔ k ∈ seen
          ∨ (k = .mem (inst.text 0) ∧ ∃ store ∈ stores, store.fresh = true ∧ store.item = .block 0)
  freshReg
    : ∀ store ∈ stores, ∀ name len,
        store.item = .reg name len → (store.fresh = true ↔ .reg name ∉ seen)
  freshBlock
    : ∀ store ∈ stores, ∀ idx, store.item = .block idx → store.fresh = true → idx = 0
  covered
    : ∀ store ∈ stores, ∀ idx, store.item = .block idx → .mem (inst.text 0) ∈ st.lRestore
  ins : st.inToReg.Tidy inst
  outs : st.outToReg.Tidy inst

namespace Stored

variable {inst : Inst} {choices : Choices} {seen : List Key} {st st' : GenState}
  {items : List Item} {stores : List Store}

section

variable (stored : Stored inst choices seen st items stores)

include stored

theorem grown (grows : st.Grown st')
    : Stored inst choices seen st' items stores where
  indices := stored.indices
  valid store mem := (stored.valid store mem).mono grows.toExtends
  keys k := by rw [grows.lRestore]; exact stored.keys k
  freshReg := stored.freshReg
  freshBlock := stored.freshBlock
  covered store mem idx block := by
    rw [grows.lRestore]
    exact stored.covered store mem idx block
  ins := by rw [grows.inToReg]; exact stored.ins
  outs := by rw [grows.outToReg]; exact stored.outs

theorem fits : st.tables.Fits inst st := ⟨stored.ins, stored.outs, prefix_rfl, prefix_rfl⟩

theorem counters (countL draws : Nat)
    : Stored inst choices seen { st with countL := countL, draws := draws } items stores :=
  { stored with valid := fun store mem =>
      (stored.valid store mem).mono (.same rfl rfl rfl rfl rfl) }

/-- One more register. -/
theorem snoc_reg (store : Store) {name : RegName} {len : Nat} (item : store.item = .reg name len)
    (index : store.index = totalWidth items) (valid : store.Valid inst choices st)
    (fresh : store.fresh = true ↔ .reg name ∉ st.lRestore)
    : Stored inst choices seen st (items ++ [store.item]) (stores ++ [store]) where
  indices := by simp [stored.indices, indexed_append, indexed, index]
  valid := forall_mem_snoc stored.valid valid
  keys k := by
    rw [stored.keys k]
    simp only [mem_append, mem_singleton]
    refine or_congr_right (and_congr_right fun _ => ?_)
    constructor
    · rintro ⟨other, old, rest⟩
      exact ⟨other, Or.inl old, rest⟩
    · rintro ⟨other, old | rfl, freshOther, block⟩
      · exact ⟨other, old, freshOther, block⟩
      · rw [item] at block
        cases block
  freshReg := forall_mem_snoc stored.freshReg (fun name' len' same => by
    cases item.symm.trans same
    rw [fresh, stored.keys]
    simp)
  freshBlock := forall_mem_snoc stored.freshBlock
    (fun idx block => by cases item.symm.trans block)
  covered := forall_mem_snoc stored.covered (fun idx block => by cases item.symm.trans block)
  ins := stored.ins
  outs := stored.outs

/-- One more block. Only the first block of an operand can be fresh. -/
theorem snoc_block (store : Store) {idx : Nat} (item : store.item = .block idx)
    (index : store.index = totalWidth items) (valid : store.Valid inst choices st)
    (fresh : store.fresh = true ↔ .mem (inst.text 0) ∉ st.lRestore)
    (first : store.fresh = true → idx = 0)
    : Stored inst choices seen
        { st with
          lRestore :=
            if store.fresh then st.lRestore ++ [.mem (inst.text 0)] else st.lRestore }
        (items ++ [store.item]) (stores ++ [store]) where
  indices := by simp [stored.indices, indexed_append, indexed, index]
  valid := forall_mem_snoc
    (fun other old => (stored.valid other old).mono (.same rfl rfl rfl rfl rfl))
    (valid.mono (.same rfl rfl rfl rfl rfl))
  keys k := by
    cases isFresh : store.fresh with
    | false => simp [stored.keys k, isFresh, or_and_right, exists_or]
    | true =>
      have zero : store.item = .block 0 := by rw [item, first isFresh]
      simp only [if_true, mem_append, mem_singleton, stored.keys k]
      constructor
      · rintro ((old | ⟨rfl, other, old, rest⟩) | rfl)
        · exact Or.inl old
        · exact Or.inr ⟨rfl, other, Or.inl old, rest⟩
        · exact Or.inr ⟨rfl, store, Or.inr rfl, isFresh, zero⟩
      · rintro (old | ⟨rfl, _⟩)
        · exact Or.inl (Or.inl old)
        · exact Or.inr rfl
  freshReg := forall_mem_snoc stored.freshReg
    (fun name len same => by cases item.symm.trans same)
  freshBlock := forall_mem_snoc stored.freshBlock (fun idx' block => by
    cases item.symm.trans block
    exact first)
  covered other mem idx' block := by
    cases isFresh : store.fresh with
    | true => simp
    | false =>
      simp only [Bool.false_eq_true, if_false]
      simpa [isFresh] using fresh
  ins := stored.ins
  outs := stored.outs

end

end Stored

/-- The emitted lists up to the order of the recording gadgets. -/
structure Emitted.Collects (e : Emitted) (es : List Emitted) : Prop where
  backup : e.backup = (collect es).backup
  setinput : e.setinput = (collect es).setinput
  feistel : e.feistel.Perm (collect es).feistel
  restore : e.restore = (collect es).restore

namespace Emitted.Collects

variable {e e' : Emitted} {es es' : List Emitted}

theorem of_eq (same : e = collect es) : e.Collects es :=
  ⟨same ▸ rfl, same ▸ rfl, same ▸ .refl _, same ▸ rfl⟩

theorem append (left : e.Collects es) (right : e'.Collects es')
    : (e.append e').Collects (es ++ es') := by
  rw [Emitted.append]
  refine ⟨?_, ?_, ?_, ?_⟩
  · simp [collect_append, Emitted.append, left.backup, right.backup]
  · simp [collect_append, Emitted.append, left.setinput, right.setinput]
  · simpa [collect_append, Emitted.append] using left.feistel.append right.feistel
  · simp [collect_append, Emitted.append, left.restore, right.restore]

theorem appendEflags (left : e.Collects es) (right : e'.Collects es')
    : (e.appendEflags e').Collects (es ++ es') := by
  have plain := left.append right
  exact ⟨plain.backup, plain.setinput, perm_append_comm.trans plain.feistel, plain.restore⟩

end Emitted.Collects

section

variable {inst : Inst} {choices : Choices} {isInit : Bool} {op : Operand}
  {seen : List Key} {st st' : GenState} {items : List Item} {stores : List Store}
  {e : Emitted}

/-- The words that a recording gadget of a register works on. -/
theorem recordRegister_spec {name : RegName} {len : Nat} (pos : len ≠ 0) {g : Gadget}
    (res : recordRegister choices name len st = some g)
    : ∃ left right,
        st.feistelL[st.countL]? = some left
        ∧ st.feistelR[st.countL]? = some right
        ∧ ((∀ n, name ≠ .st n)
          → genFeistelCipher st.tables (choices.scratch st.draws) left (.reg name) right len
            = some g)
        ∧ ∀ n,
            name = .st n
            → RecordsWords st st.tables (choices.scratch st.draws) st.countL n len g := by
  by_cases fpu : ∃ n, name = .st n
  · obtain ⟨n, rfl⟩ := fpu
    simp only [recordRegister, bind_eq_bind, bind_eq_some_iff] at res
    obtain ⟨save, saved, words, mapped, merged⟩ := res
    have blocks := forall₂_of_mapM mapped
    have records : RecordsWords st st.tables (choices.scratch st.draws) st.countL n len g := by
      refine ⟨save, words, saved, blocks.imp ?_, merged⟩
      intro j g made
      simp only [bind_eq_some_iff] at made
      obtain ⟨left, atLeft, right, atRight, cipher⟩ := made
      exact ⟨left, right, atLeft, atRight, cipher⟩
    obtain ⟨k, size⟩ : ∃ k, (len + 3) / 4 = k + 1 := ⟨(len + 3) / 4 - 1, by omega⟩
    rw [size, range_succ_eq_map] at blocks
    cases blocks with
    | cons first _ =>
      simp only [bind_eq_some_iff] at first
      obtain ⟨left, atLeft, right, atRight, _⟩ := first
      refine ⟨left, right, atLeft, atRight, fun none => absurd rfl (none n), ?_⟩
      intro n' same
      cases same
      exact records
  · have plain (n : Nat) : name ≠ .st n := fun same => fpu ⟨n, same⟩
    unfold recordRegister at res
    split at res
    next n =>
      exact absurd rfl (plain n)
    · simp only [bind_eq_bind, bind_eq_some_iff] at res
      obtain ⟨left, atLeft, right, atRight, made⟩ := res
      exact ⟨left, right, atLeft, atRight, fun _ => made, fun n same => absurd same (plain n)⟩

/-- The second pass handles one more operand. -/
def Handled (inst : Inst) (choices : Choices) (seen : List Key) (items : List Item)
    (stores : List Store) (op : Operand) (st : GenState) (e : Emitted) (st' : GenState)
    : Prop :=
  ∃ new,
    Stored inst choices seen st' (items ++ inst.storeItems op) (stores ++ new)
    ∧ st'.countL = totalWidth (items ++ inst.storeItems op)
    ∧ e = collect (new.map Store.emitted)
    ∧ st.Extends st'
    ∧ st'.countR = st.countR
    ∧ st'.inToReg = st.inToReg

section

variable (stored : Stored inst choices seen st items stores)

include stored

theorem Stored.listing (regs : List RegName)
    : Stored inst choices seen { st with outToReg := { st.outToReg with regs := regs } } items
        stores :=
  { stored with valid := fun store mem =>
      (stored.valid store mem).mono (.same rfl rfl rfl rfl rfl) }

theorem Stored.known
    : Stored inst choices seen { st with
        outToReg := { st.outToReg with mems := getMemOp inst 0 :: st.outToReg.mems } }
        items stores :=
  { stored with
    valid := fun store mem => (stored.valid store mem).mono (.same rfl rfl rfl rfl rfl)
    outs := by
      intro p mem
      rcases mem_cons.mp mem with rfl | old
      · rfl
      · exact stored.outs p old }

/-- A register operand in the second pass. -/
theorem handleRegWrite_stored (count : st.countL = totalWidth items) {name : Option RegName}
    (kind : op.kind = .reg name)
    (res : handleRegWrite choices isInit op name st = some (e, st'))
    : Handled inst choices seen items stores op st e st' := by
  cases handleRegWrite_cases inst res with
  | skipped regs none =>
    exact ⟨[], by simpa [none kind] using stored.listing regs, by simpa [none kind] using count,
      rfl, .same rfl rfl rfl rfl rfl, rfl, rfl⟩
  | @handled reg st1 st2 record bak _ item pos added padded recorded atBak emits =>
    have grown : GenState.Grown _ st2 :=
      (whenInit_grown addOutput_grown added).trans (padR_grown padded)
    have stored2 := (stored.listing _).grown grown
    have index : st2.countL = totalWidth items := grown.countL.trans count
    obtain ⟨left, right, atLeft, atRight, made, fpu⟩ := recordRegister_spec pos recorded
    have words (n len : Nat) (same : Item.reg reg op.len = .reg (.st n) len)
        : RecordsWords st2 st2.tables (choices.scratch st2.draws) st2.countL n len record := by
      cases same
      exact fpu n rfl
    have step := stored2.snoc_reg ⟨.reg reg op.len, st2.countL, left, right, bak,
      choices.scratch st2.draws, decide (.reg reg ∉ st2.lRestore), st2.tables, record, e⟩ rfl
      index
      ⟨atLeft, atRight, atBak, ⟨_, rfl⟩, made, emits, stored2.fits,
        by simp [GenState.tables, grown.outToReg], words⟩ (by simp)
    exact ⟨_, by simpa [item kind] using step.counters _ _,
      by simp [item kind, index, totalWidth, Item.width], by simp,
      ⟨grown.r, grown.rBak, grown.l, grown.ins, grown.outs⟩, grown.countR, grown.inToReg⟩

/-- One block of the memory operand in the second pass. -/
theorem handleMemWriteBlock_stored {j : Nat} (count : st.countL + j = totalWidth items)
    (first : .mem (inst.text 0) ∉ st.lRestore → j = 0) (outs : st.outToReg.mems ≠ [])
    (ins : inst.popCategory = false → st.inToReg.mems ≠ [])
    (res : handleMemWriteBlock inst choices (inst.text 0) j st = some (e, st'))
    : ∃ store : Store,
        Stored inst choices seen st' (items ++ [.block j]) (stores ++ [store])
        ∧ e = store.emitted
        ∧ .mem (inst.text 0) ∈ st'.lRestore
        ∧ ∃ keys, st' = { st with lRestore := keys } := by
  obtain ⟨left, right, bak, record, atLeft, atRight, atBak, made, emits, rfl⟩ :=
    handleMemWriteBlock_cases res
  have step := stored.snoc_block ⟨.block j, st.countL + j, left, right, bak,
    choices.scratch st.draws, decide (.mem (inst.text 0) ∉ st.lRestore), st.tables, record, e⟩
    rfl count
    ⟨atLeft, atRight, atBak, ⟨_, rfl⟩, made, emits, stored.fits, ⟨outs, ins⟩, by simp⟩ (by simp)
    (fun fresh => first (of_decide_eq_true fresh))
  refine ⟨_, by simpa using step, rfl, ?_, _, rfl⟩
  by_cases old : .mem (inst.text 0) ∈ st.lRestore
  · simp [old]
  · simp [old]

/-- A memory operand in the second pass. -/
theorem handleMemWrite_stored (count : st.countL = totalWidth items) {n : Nat}
    (kind : op.kind = .mem n) (known : inst.popCategory = false → st.inToReg.mems ≠ [])
    (res : handleMemWrite inst choices isInit op st = some (e, st'))
    : Handled inst choices seen items stores op st e st' := by
  rcases handleMemWrite_cases res with
    ⟨rfl, rfl, none⟩ | ⟨st1, st2, st3, added, padded, looped, rfl, item⟩
  · exact ⟨[], by simpa [none n kind] using stored.known, by simpa [none n kind] using count, rfl,
      .same rfl rfl rfl rfl rfl, rfl, rfl⟩
  · have grown : GenState.Grown _ st2 :=
      (whenInit_grown addOutput_grown added).trans (padR_grown padded)
    have start : st2.countL = totalWidth items := grown.countL.trans count
    obtain ⟨new, last, emitted, _, keys, rfl⟩ := handleMemWriteBlocks_induction
      (P := fun k e1 st1 => ∃ new : List Store,
        Stored inst choices seen st1 (items ++ (List.range k).map .block) (stores ++ new)
        ∧ e1 = collect (new.map Store.emitted)
        ∧ (k ≠ 0 → .mem (inst.text 0) ∈ st1.lRestore)
        ∧ ∃ keys, st1 = { st2 with lRestore := keys })
      ⟨[], by simpa using stored.known.grown grown, rfl, by simp, _, rfl⟩ (by
        rintro k e1 _ e2 stB ⟨new, sofar, emitted, seen0, keys, rfl⟩ block
        obtain ⟨store, step, here, covered, keys', rfl⟩ := handleMemWriteBlock_stored sofar
          (by rw [totalWidth_append, totalWidth_blocks, length_range, start])
          (fun absent => by_contra fun more => absent (seen0 more))
          (by simp [grown.outToReg]) (by rw [grown.inToReg]; exact known) block
        refine ⟨new ++ [store], by simpa [range_succ] using step, ?_, fun _ => covered, keys', rfl⟩
        simp [collect_append, ← emitted, here]) looped
    refine ⟨new, ?_, ?_, emitted, ?_, grown.countR, grown.inToReg⟩
    · rw [item n kind]
      exact last.counters _ _
    · rw [item n kind, totalWidth_append, totalWidth_blocks, length_range, ← start]
    · exact ⟨grown.r, grown.rBak, grown.l, grown.ins, grown.outs⟩

end

/-- What the second pass has done after some operands. -/
structure SecondDone (inst : Inst) (choices : Choices) (isInit : Bool) (seen : List Key)
    (st : GenState) (done : List Operand) (e : Emitted) (st' : GenState) (stores : List Store)
    : Prop where
  stored : Stored inst choices seen st' (done.flatMap inst.storeItems) stores
  countL : st'.countL = totalWidth (done.flatMap inst.storeItems)
  emitted : e.Collects (stores.map Store.emitted)
  extended : st.Extends st'
  countR : st'.countR = st.countR
  adds : ∃ new, AddsOutputs isInit st st' (done.flatMap inst.storeItems) new
  inToReg : st'.inToReg = st.inToReg

/-- One more operand. -/
theorem SecondDone.snoc {done : List Operand} {st1 : GenState} {e1 e2 both : Emitted}
    (sofar : SecondDone inst choices isInit seen st done e1 st1 stores) (count : st.countL = 0)
    (handled : Handled inst choices seen (done.flatMap inst.storeItems) stores op st1 e2 st')
    (lists
      : st1.countL ≤ st1.feistelR.length
        → ∃ new, AddsOutputs isInit st1 st' (inst.storeItems op) new)
    (collects : ∀ es, e2.Collects es → both.Collects (stores.map Store.emitted ++ es))
    : ∃ stores', SecondDone inst choices isInit seen st (done ++ [op]) both st' stores' := by
  obtain ⟨new, step, next, here, further, sameR, sameTable⟩ := handled
  obtain ⟨_, adds⟩ := sofar.adds
  obtain ⟨_, added⟩ := lists (by simpa [count, ← sofar.countL] using adds.enough)
  have more := adds.trans (by simp [count, sofar.countL]) added
  refine ⟨stores ++ new, by simpa using step, by simpa using next, ?_,
    sofar.extended.trans further, sameR.trans sofar.countR, ⟨_, by simpa using more⟩,
    sameTable.trans sofar.inToReg⟩
  rw [map_append]
  exact collects _ (.of_eq here)

/-- The second pass emits the gadgets of its items, and adds the words for them. -/
theorem secondPass_stored (decoded : inst.Decoded)
    (start : Stored inst choices seen st [] []) (count : st.countL = 0)
    (known
      : inst.popCategory = false
        → (∃ op ∈ inst.arranged, ∃ n, op.kind = .mem n)
        → st.inToReg.mems ≠ [])
    (res
      : handleOp (handleMemWrite inst choices isInit) (handleRegWrite choices isInit)
          inst.operands st
        = some (e, st'))
    : ∃ stores, SecondDone inst choices isInit seen st inst.arranged e st' stores := by
  refine handleOp_induction (P := fun done e st' => ∃ stores,
    SecondDone inst choices isInit seen st done e st' stores) ?_ ?_ ?_ res
  · exact ⟨[], start, by simpa [totalWidth] using count, .of_eq rfl, .refl _, rfl,
      ⟨_, .zero (by simp [count]) ⟨rfl, rfl⟩⟩, rfl⟩
  · rintro done op name e1 st1 e2 st2 _ kind ⟨stores, sofar⟩ handled
    refine sofar.snoc count (handleRegWrite_stored sofar.stored sofar.countL kind handled)
      (handleRegWrite_lists inst kind handled).adds (fun es here => ?_)
    split
    · exact sofar.emitted.appendEflags here
    · exact sofar.emitted.append here
  · rintro done op n e1 st1 e2 st2 mem kind ⟨stores, sofar⟩ handled
    have pos := decoded op (Inst.mem_of_arranged mem) n kind
    refine sofar.snoc count (handleMemWrite_stored sofar.stored sofar.countL kind ?_ handled)
      (handleMemWrite_lists kind pos handled).adds (fun es => sofar.emitted.append)
    exact fun notPop => sofar.inToReg ▸ known notPop ⟨op, mem, n, kind⟩

end

end FastPokeEmu.Floppy
