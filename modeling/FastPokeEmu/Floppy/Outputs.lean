import FastPokeEmu.Floppy.PostRun

/-! The gadgets that `gen_root` emits for the time after the tested instruction, each with
its purpose and its words.
-/

namespace FastPokeEmu.Floppy

open List Option GenState

variable {item : Item} {store : Store} {tb : Tables} {backup restore : List Gadget}

/-- The lists of words in the generator's state. -/
inductive Column
  | r | rBak | l | ins | outs
  deriving DecidableEq, Repr

namespace GenState

variable {st : GenState} {low high : Nat} {c c' : Column} {i j a : Nat}

def column (st : GenState) : Column → List Nat
  | .r => st.feistelR
  | .rBak => st.feistelRBak
  | .l => st.feistelL
  | .ins => st.feistelIn
  | .outs => st.feistelOut

/-- Where a list starts in the list of all words. -/
def offset (st : GenState) : Column → Nat
  | .r => 0
  | .rBak => st.feistelR.length
  | .l => st.feistelR.length + st.feistelRBak.length
  | .ins => st.feistelR.length + st.feistelRBak.length + st.feistelL.length
  | .outs => st.feistelR.length + st.feistelRBak.length + st.feistelL.length + st.feistelIn.length

theorem words_offset (here : (st.column c)[i]? = some a)
    : st.batch.words[st.offset c + i]? = some a := by
  obtain ⟨inside, _⟩ := List.getElem?_eq_some_iff.mp here
  cases c <;> simp only [column] at here inside <;>
    simp only [batch, Batch.words, offset, List.getElem?_append, length_append] <;>
    grind

theorem mem_words (here : (st.column c)[i]? = some a) : a ∈ st.batch.words :=
  mem_of_getElem? (words_offset here)

theorem column_injective (allocated : Fresh low high st.batch.words)
    (here : (st.column c)[i]? = some a) (there : (st.column c')[j]? = some a)
    : c = c' ∧ i = j := by
  have first := words_offset here
  have same := (List.getElem?_inj (List.getElem?_eq_some_iff.mp first).1 allocated.nodup).mp
    (first.trans (words_offset there).symm)
  obtain ⟨inside, _⟩ := List.getElem?_eq_some_iff.mp here
  obtain ⟨inside', _⟩ := List.getElem?_eq_some_iff.mp there
  cases c <;> cases c' <;> simp only [column, offset] at inside inside' same <;>
    first
    | exact ⟨rfl, by omega⟩
    | omega

theorem column_nodup (allocated : Fresh low high st.batch.words) (c : Column)
    : (st.column c).Nodup := by
  have nodup := allocated.nodup
  simp only [batch, Batch.words, nodup_append] at nodup
  cases c <;> simp only [column] <;> tauto

theorem column_isData (allocated : Fresh (startAddr + 4) high st.batch.words)
    (here : (st.column c)[i]? = some a)
    : IsData a ∧ startAddr + 4 ≤ a := by
  obtain ⟨lower, upper⟩ := allocated.inside a (mem_words here)
  have bound := allocated.bounded (by decide)
  have aligned := (allocated.aligned (by decide)).2 a (mem_words here)
  have start : edataAddr ≤ startAddr + 4 := by decide
  exact ⟨⟨by omega, by omega, aligned⟩, lower⟩

/-- Copies from one list to another do not disturb each other. -/
theorem zip_copies (allocated : Fresh (startAddr + 4) high st.batch.words) (c c' : Column)
    (ne : c ≠ c')
    (lengths : (st.column c).length = (st.column c').length)
    : (∀ p ∈ (st.column c).zip (st.column c'), IsData p.1 ∧ IsData p.2)
      ∧ (((st.column c).zip (st.column c')).map Prod.snd).Nodup
      ∧ ∀ p ∈ (st.column c).zip (st.column c'), ∀ q ∈ (st.column c).zip (st.column c'),
          p.1 ≠ q.2 := by
  have entries {p : Nat × Nat} (mem : p ∈ (st.column c).zip (st.column c'))
      : ∃ i : Nat, (st.column c)[i]? = some p.1 ∧ (st.column c')[i]? = some p.2 := by
    obtain ⟨i, here⟩ := mem_iff_getElem?.mp mem
    exact ⟨i, List.getElem?_zip_eq_some.mp here⟩
  refine ⟨?_, ?_, ?_⟩
  · intro p mem
    obtain ⟨i, source, target⟩ := entries mem
    exact ⟨(column_isData allocated source).1, (column_isData allocated target).1⟩
  · rw [map_snd_zip (Nat.le_of_eq lengths.symm)]
    exact column_nodup allocated c'
  · intro p here q there same
    obtain ⟨i, source, _⟩ := entries here
    obtain ⟨j, _, target⟩ := entries there
    exact ne (column_injective allocated source (same ▸ target)).1

end GenState

theorem Sized.columns {inst : Inst} {st : GenState} (sized : Sized inst st) {i : Nat}
    (small : i < inst.blocks)
    : (st.column .l)[i]? = some (st.feistelL.getD i 0)
      ∧ (st.column .r)[i]? = some (st.feistelR.getD i 0)
      ∧ (st.column .rBak)[i]? = some (st.feistelRBak.getD i 0) := by
  have left : i < st.feistelL.length := by rw [sized.l]; exact small
  have right : i < st.feistelR.length := by rw [sized.r]; exact small
  have backup : i < st.feistelRBak.length := by rw [sized.rBak]; exact small
  simp [GenState.column, left, right, backup]

/-- What is recorded for an output; the names left out have a width of their own. -/
def Item.recorded : Item → Recorded
  | .reg (.gpr r) _ => .gpr r.reg
  | .reg _ _ => .eflags
  | .block idx => .block idx

/-- Outputs are 32-bit general purpose registers, EFLAGS and blocks of memory. -/
def Item.Simple : Item → Prop
  | .reg (.gpr r) len => r.part = .full ∧ len = 4
  | .reg .eflags len => len = 4
  | .reg _ _ => False
  | .block _ => True

instance : DecidablePred Item.Simple := fun item => by
  unfold Item.Simple
  split <;> infer_instance

theorem Item.Simple.width (simple : item.Simple) : item.width = 1 := by
  cases item with
  | reg name len =>
    cases name with
    | gpr r => simp [Item.width, simple.2]
    | eflags => simp [Item.width, show len = 4 from simple]
    | _ => cases simple
  | block idx => rfl

/-- What the Feistel gadgets record, by index: the outputs and the exception data. -/
def Inst.outputs (inst : Inst) : List Recorded :=
  inst.stores.map Item.recorded ++ [.exception edataAddr, .exception (edataAddr + 4)]

theorem indexed_simple (start : Nat) {items : List Item} (simple : ∀ item ∈ items, item.Simple)
    : indexed start items = items.mapIdx (fun i item => (start + i, item)) := by
  induction items generalizing start with
  | nil => rfl
  | cons item rest ih =>
    have width := (simple item mem_cons_self).width
    rw [indexed, width, ih (start + 1) (fun x mem =>
      simple x (mem_cons_of_mem _ mem)), mapIdx_cons]
    simp only [Nat.add_zero, List.cons.injEq, true_and]
    congr 1
    funext i x
    simp only [Prod.mk.injEq, and_true]
    omega

theorem totalWidth_simple {items : List Item} (simple : ∀ item ∈ items, item.Simple)
    : totalWidth items = items.length := by
  induction items with
  | nil => rfl
  | cons item rest ih =>
    have later := ih (fun x mem => simple x (mem_cons_of_mem _ mem))
    simp only [totalWidth, map_cons, sum_cons, length_cons] at later ⊢
    rw [(simple item mem_cons_self).width, later, Nat.add_comm]

/-- The purpose of the gadget that writes an R block. -/
def GenState.postAt (fin : GenState) (inst : Inst) (i : Nat) : Post :=
  match inst.outputs[i]? with
  | some what => .record (fin.feistelL.getD i 0) (fin.feistelR.getD i 0) what
  | none => .surplus (fin.feistelL.getD i 0) (fin.feistelR.getD i 0)

section

variable {inst : Inst} {choices : Choices} {fin : GenState} {root : Root}
  {loads : List Load} {stores : List Store} {scratch low high : Nat}

theorem GenState.right_unused (allocated : Fresh low high fin.batch.words) {i right : Nat}
    (here : fin.feistelR[i]? = some right)
    : right ∉ fin.feistelIn ++ fin.feistelOut := by
  have other {c : Column} (ne : .r ≠ c) : right ∉ fin.column c := by
    intro mem
    obtain ⟨j, there⟩ := mem_iff_getElem?.mp mem
    exact ne (column_injective (c := .r) allocated here there).1
  intro mem
  rcases mem_append.mp mem with there | there
  · exact other (c := .ins) (by simp) there
  · exact other (c := .outs) (by simp) there

/-- The gadget of an output. -/
theorem Store.Valid.emits_record (valid : store.Valid inst choices fin)
    (allocated : Fresh (startAddr + 4) high fin.batch.words) (simple : store.item.Simple)
    (isOutput : store.item ∈ inst.stores)
    (scratches : store.item.recorded = .eflags → store.scratch = scratch)
    : (Post.record store.left store.right store.item.recorded).Emits inst fin scratch
        store.record := by
  refine ⟨(column_isData (c := .l) allocated valid.left).1,
    (column_isData (c := .r) allocated valid.right).1,
    right_unused allocated valid.right, ?_, ?_, store.tb, store.scratch, valid.fits,
    scratches, ?_, ?_⟩
  · intro a
    cases item : store.item with
    | reg name len => cases name <;> simp [Item.recorded]
    | block idx => simp [Item.recorded]
  · intro idx
    cases item : store.item with
    | reg name len => cases name <;> simp [Item.recorded]
    | block idx' =>
      rintro ⟨⟩
      exact mem_append_right _ (item ▸ isOutput)
  · intro notPop idx
    have declared := valid.declared
    cases item : store.item with
    | reg name len => cases name <;> simp [Item.recorded]
    | block idx =>
      rw [item] at declared
      exact fun _ => declared.2 notPop
  · have records := valid.records
    cases item : store.item with
    | reg name len =>
      rw [item] at records simple
      cases name with
      | gpr r =>
        obtain ⟨reg, part⟩ := r
        obtain ⟨rfl, rfl⟩ := simple
        exact records (by simp)
      | eflags =>
        obtain rfl : len = 4 := simple
        exact records (by simp)
      | _ => cases simple
    | block idx =>
      rw [item] at records
      exact records

/-- Outputs of one word each are at the positions of their indices. -/
theorem Generated.output_of_store (generated : Generated inst choices fin root loads stores)
    (simple : ∀ item ∈ inst.stores, item.Simple) {i : Nat} (here : stores[i]? = some store)
    : store.index = i ∧ store.item ∈ inst.stores ∧ inst.outputs[i]? = some store.item.recorded := by
  have indices := generated.storeIndices
  rw [indexed_simple 0 simple] at indices
  have entry := congrArg (fun xs => xs[i]?) indices
  simp only [List.getElem?_map, here, map_some, List.getElem?_mapIdx] at entry
  obtain ⟨item, there, same⟩ := map_eq_some_iff.mp entry.symm
  simp only [Prod.mk.injEq, Nat.zero_add] at same
  refine ⟨same.1.symm, same.2 ▸ mem_of_getElem? there, ?_⟩
  obtain ⟨inside, _⟩ := List.getElem?_eq_some_iff.mp there
  rw [Inst.outputs, List.getElem?_append_left (by simpa using inside), List.getElem?_map,
    there, ← same.2]
  rfl

/-- Some permutation of the gadgets has the gadget of every R block at its index. -/
theorem Generated.emits_outputs (generated : Generated inst choices fin root loads stores)
    (simple : ∀ item ∈ inst.stores, item.Simple)
    (scratches : ∀ store ∈ stores, store.item.recorded = .eflags → store.scratch = scratch)
    : ∃ outs,
        root.output.Perm outs
        ∧ outs.length = inst.blocks
        ∧ ∀ i g, outs[i]? = some g → (fin.postAt inst i).Emits inst fin scratch g := by
  obtain ⟨ecpt0, ecpt1, surplus, perm, made0, made1, copies⟩ := generated.output
  have width := totalWidth_simple simple
  have indices := generated.storeIndices
  rw [indexed_simple 0 simple] at indices
  have count : stores.length = inst.stores.length := by
    simpa using congrArg List.length indices
  have surplusCount := copies.length_eq
  simp only [length_range] at surplusCount
  have allocated := generated.allocated
  refine ⟨_, perm, ?_, ?_⟩
  · simp only [length_append, length_map, length_cons, length_nil, ← surplusCount, Inst.blocks]
    omega
  · intro i g found
    have exception {index addr : Nat} {e : Gadget} (made : ExceptionGadget inst fin index addr e)
        (isData : IsData addr) (low : addr < startAddr + 4)
        (output : inst.outputs[index]? = some (.exception addr))
        : (fin.postAt inst index).Emits inst fin scratch e := by
      obtain ⟨tb, left, right, fits, atLeft, atRight, cipher⟩ := made
      have leftData := column_isData (c := .l) allocated atLeft
      simp only [GenState.postAt, output, getD_eq_getElem?_getD, atLeft, atRight, getD_some]
      refine ⟨leftData.1, (column_isData (c := .r) allocated atRight).1,
        right_unused allocated atRight, ?_, by simp, tb, 0, fits, by simp, by simp,
        cipher⟩
      rintro _ ⟨⟩
      exact ⟨isData, by omega⟩
    rw [append_assoc] at found
    by_cases isStore : i < stores.length
    · rw [List.getElem?_append_left (by simpa using isStore), List.getElem?_map] at found
      obtain ⟨store, here, rfl⟩ := map_eq_some_iff.mp found
      obtain ⟨index, isOutput, output⟩ := generated.output_of_store simple here
      have mem := mem_of_getElem? here
      have valid := generated.storeValid store mem
      have atLeft := valid.left
      have atRight := valid.right
      rw [index] at atLeft atRight
      simp only [GenState.postAt, output, getD_eq_getElem?_getD, atLeft, atRight, getD_some]
      exact valid.emits_record allocated (simple _ isOutput) isOutput (scratches store mem)
    · obtain ⟨j, rfl⟩ : ∃ j, i = stores.length + j := ⟨i - stores.length, by omega⟩
      have later : inst.outputs[stores.length + j]?
          = [Recorded.exception edataAddr, .exception (edataAddr + 4)][j]? := by
        rw [Inst.outputs, count, List.getElem?_append_right (by simp)]
        simp
      rw [List.getElem?_append_right (by simp)] at found
      simp only [length_map, Nat.add_sub_cancel_left] at found
      rw [width, ← count] at made0 made1
      obtain rfl | rfl | ⟨j, rfl⟩ : j = 0 ∨ j = 1 ∨ ∃ k, j = k + 2 := by
        rcases Nat.lt_or_ge j 2 with low | high
        · omega
        · exact .inr (.inr ⟨j - 2, by omega⟩)
      · cases found
        exact exception made0 (by decide) (by decide) later
      · cases found
        exact exception made1 (by decide) (by decide) later
      · have copied : surplus[j]? = some g := found
        have made := forall₂_iff_get.mp copies
        obtain ⟨inside, value⟩ := List.getElem?_eq_some_iff.mp copied
        obtain ⟨tb, left, right, fits, atLeft, atRight, same⟩ :=
          made.2 j (by simpa using by omega) inside
        simp only [get_eq_getElem, getElem_range] at atLeft atRight same
        rw [width, ← count, Nat.add_assoc, Nat.add_comm 2 j] at atLeft atRight
        simp only [GenState.postAt, later, List.getElem?_cons_succ, List.getElem?_nil,
          getD_eq_getElem?_getD, atLeft, atRight, getD_some]
        exact ⟨(column_isData (c := .l) allocated atLeft).1,
          (column_isData (c := .r) allocated atRight).1, tb, by rw [← value, same]⟩

end

/-- The purpose of the gadget that restores an item. -/
def Item.restorePost (bak : Nat) : Item → Post
  | .reg name _ => .restoreReg name bak
  | .block idx => .restoreMem bak idx

/-- Registers have names under which they can be saved whole, as in 32-bit code. -/
def Inst.Sizable (inst : Inst) : Prop :=
  ∀ r len, .reg (.gpr r) len ∈ inst.loads ++ inst.stores → r.Sizable

theorem registerBackup_restore {name : RegName} {bak len : Nat} {mnemonic : String}
    (res : registerBackup tb name bak len mnemonic = some (backup, restore))
    : restore.length ≤ 1 := by
  have single {mem : MemOp} {reg : RegName} {size : Nat} {gs : List Gadget}
      (made : genMem2Reg tb mem reg size = some gs) : gs.length ≤ 1 := by
    rcases genMem2Reg_asm made with rfl | ⟨g, rfl, _⟩ <;> simp
  unfold registerBackup at res
  split at res
  · simp only [bind_eq_bind, bind_eq_some_iff] at res
    obtain ⟨_, _, gs, made, final⟩ := res
    cases final
    exact single made
  · simp only [bind_eq_bind, bind_eq_some_iff] at res
    obtain ⟨_, _, _, _, gs, made, final⟩ := res
    cases final
    cases (Gadget.merge mnemonic gs) <;> simp

section

variable {inst : Inst} {choices : Choices} {fin : GenState} {root : Root}
  {loads : List Load} {stores : List Store} {scratch high : Nat}

theorem Load.Valid.saves {load : Load} (valid : load.Valid inst fin)
    : Saves inst load.tb load.bak load.fresh load.item load.emitted.backup load.emitted.restore :=
  (loadEmitted_cases valid.emits).1

theorem Store.Valid.saves (valid : store.Valid inst choices fin)
    : Saves inst store.tb store.bak store.fresh store.item store.emitted.backup
        store.emitted.restore :=
  (storeEmitted_cases valid.emits).1

/-- Gadgets that restore an item. -/
theorem Saves.emits_restore {bak : Nat} {fresh : Bool}
    (saves : Saves inst tb bak fresh item backup restore) (isData : IsData bak)
    (listed : item ∈ inst.loads ++ inst.stores)
    (sizable : ∀ r len, item = .reg (.gpr r) len → r.Sizable) (fits : tb.Fits inst fin)
    (declared : ∀ idx, item = .block idx → tb.inToReg.mems ≠ [] ∨ tb.outToReg.mems ≠ [])
    : ∀ g ∈ restore, (item.restorePost bak).Emits inst fin scratch g := by
  intro g mem
  cases saves with
  | reg named backed =>
    refine ⟨isData, ⟨_, listed⟩, ?_, _, _, _, _, _, named, backed, mem⟩
    rintro r rfl
    exact sizable r _ rfl
  | block =>
    rw [mem_singleton.mp mem]
    exact ⟨isData, listed, _, fits, declared _ rfl, rfl⟩
  | old => cases mem

theorem Saves.restore_single {bak : Nat} {fresh : Bool}
    (saves : Saves inst tb bak fresh item backup restore)
    : restore.length ≤ 1 := by
  cases saves with
  | reg _ backed => exact registerBackup_restore backed
  | block => exact Nat.le_refl 1
  | old => exact Nat.zero_le 1

end

end FastPokeEmu.Floppy
