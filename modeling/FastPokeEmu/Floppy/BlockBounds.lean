import FastPokeEmu.Floppy.BlockAccesses

/-! Gadgets of operands with enough blocks stay in these blocks. Inputs and saved outputs have
consecutive words; outputs are recorded word by word, or in R blocks of one run.
-/

namespace FastPokeEmu.Floppy

open List

section

variable {inst : Inst} {choices : Choices} {st : GenState} {root : Root} {loads : List Load}
  {stores : List Store} {item : Item} {words : List Nat}

theorem Inst.len_ne_zero {name : RegName} {len : Nat}
    (mem : .reg name len ∈ inst.loads ++ inst.stores)
    : len ≠ 0 := by
  have pos := Inst.width_pos mem
  simp only [Item.width] at pos
  omega

/-- A register that is read has a run of R blocks for itself. -/
theorem Inst.run_of_register {i len : Nat} {name : RegName}
    (mem : (i, .reg name len) ∈ indexed 0 inst.loads)
    : (i, (len + 3) / 4) ∈ inst.runs := by
  have general (ops : List Operand) (start : Nat)
      (mem : (i, .reg name len) ∈ indexed start (ops.flatMap inst.loadItems))
      : (i, (len + 3) / 4)
        ∈ runsFrom start (ops.map (fun op => totalWidth (inst.loadItems op))) := by
    induction ops generalizing start with
    | nil => cases mem
    | cons op rest ih =>
      rw [flatMap_cons, indexed_append] at mem
      rcases mem_append.mp mem with here | later
      · have asks := inst.loadItems_asks op
        rw [map_cons]
        generalize inst.loadItems op = items at asks here ⊢
        cases asks with
        | nothing => cases here
        | reg name' =>
          cases mem_singleton.mp here
          exact mem_cons_self
        | @blocks n =>
          have block := mem_map_of_mem (f := Prod.snd) here
          rw [indexed_map_snd] at block
          simp at block
      · exact mem_cons_of_mem _ (ih _ later)
  exact general inst.arranged 0 mem

theorem Contiguous.run {items : List Item} (contiguous : Contiguous items words) {i a : Nat}
    (entry : (i, item) ∈ indexed 0 items) (first : words[i]? = some a)
    : ∀ j < item.width, a + 4 * j ∈ slice words i item.width := by
  intro j small
  obtain ⟨b, each⟩ := contiguous _ entry
  have same : b = a := by
    have start := each 0 (Nat.lt_of_le_of_lt (Nat.zero_le j) small)
    rw [Nat.add_zero, first] at start
    exact (Option.some.inj start).symm
  rw [← same]
  exact mem_slice.mpr ⟨j, small, each j small⟩

section

variable (generated : Generated inst choices st root loads stores)

include generated

theorem Generated.loadEntry {load : Load} (mem : load ∈ loads)
    : (load.index, load.item) ∈ indexed 0 inst.loads := by
  rw [← generated.loadIndices]
  exact mem_map_of_mem (f := fun load => (load.index, load.item)) mem

theorem Generated.storeEntry {store : Store} (mem : store ∈ stores)
    : (store.index, store.item) ∈ indexed 0 inst.stores := by
  rw [← generated.storeIndices]
  exact mem_map_of_mem (f := fun store => (store.index, store.item)) mem

theorem Generated.load_of_item (mem : item ∈ inst.loads) : ∃ load ∈ loads, load.item = item := by
  rw [← indexed_map_snd 0 inst.loads, ← generated.loadIndices, map_map] at mem
  obtain ⟨load, inside, same⟩ := mem_map.mp mem
  exact ⟨load, inside, same⟩

theorem Generated.store_of_entry {entry : Nat × Item} (mem : entry ∈ indexed 0 inst.stores)
    : ∃ store ∈ stores, store.index = entry.1 ∧ store.item = entry.2 := by
  rw [← generated.storeIndices] at mem
  obtain ⟨store, inside, same⟩ := mem_map.mp mem
  exact ⟨store, inside, congrArg Prod.fst same, congrArg Prod.snd same⟩

theorem Generated.apart {x : Nat}
    : (x ∈ st.feistelR → x ∉ st.feistelRBak ∧ x ∉ st.feistelL ∧ x ∉ st.feistelOut)
      ∧ (x ∈ st.feistelRBak → x ∉ st.feistelIn) := by
  have nodup := generated.allocated.nodup
  simp only [GenState.batch, Batch.words, append_assoc] at nodup
  have first := (nodup_append.mp nodup).2.2
  have second := (nodup_append.mp (nodup_append.mp nodup).2.1).2.2
  refine ⟨fun here => ⟨fun there => ?_, fun there => ?_, fun there => ?_⟩, fun here there => ?_⟩
  · exact first x here x (by simp [there]) rfl
  · exact first x here x (by simp [there]) rfl
  · exact first x here x (by simp [there]) rfl
  · exact second x here x (by simp [there]) rfl

end

theorem mem_of_slice {i n x : Nat} (mem : x ∈ slice words i n) : x ∈ words := by
  obtain ⟨j, _, here⟩ := mem_slice.mp mem
  exact mem_of_getElem? here

theorem mem_batch_words {x : Nat}
    (mem
      : x ∈ st.feistelR ∨ x ∈ st.feistelRBak ∨ x ∈ st.feistelL ∨ x ∈ st.feistelIn
        ∨ x ∈ st.feistelOut)
    : x ∈ st.batch.words := by
  simpa [GenState.batch, Batch.words, or_assoc] using mem

theorem StaysIn.of_block {own : List (List Nat)} {i n a : Nat} {p : MemOp × Nat}
    (mem : slice words i n ∈ own) (pos : 0 < n) (first : words[i]? = some a)
    (inside : InWords a 1 p)
    : StaysIn st own p := by
  refine .of_words mem (fun j small => ?_) inside
  have zero : j = 0 := by omega
  subst zero
  exact mem_slice.mpr ⟨0, pos, first⟩

section

variable {own : List (List Nat)} {tb : Tables} {src dest : MemOp}

theorem confined_genStoreMem (first : ∀ bytes ≤ 4, StaysIn st own (src, bytes))
    (second : ∀ bytes ≤ 4, StaysIn st own (dest, bytes))
    : Confined st own (genStoreMem tb src dest) := by
  have four : Part.full.bytes ≤ 4 := Part.bytes_le _
  exact forall_iff_forall_mem.mp ⟨first _ four, second _ four⟩

theorem confined_genStoreChangeMem {mnemonic : String}
    (first : ∀ bytes ≤ 4, StaysIn st own (src, bytes))
    (second : ∀ bytes ≤ 4, StaysIn st own (dest, bytes))
    : Confined st own (genStoreChangeMem tb src dest mnemonic) := by
  have four : Part.full.bytes ≤ 4 := Part.bytes_le _
  unfold Confined
  rw [genStoreChangeMem_asm]
  exact forall_iff_forall_mem.mp ⟨second _ four, first _ four, first _ four, second _ four⟩

end

theorem OperandsApart.stays_text (apart : OperandsApart inst choices st)
    (own : List (List Nat)) (idx bytes : Nat)
    : StaysIn st own (inst.text idx, bytes) :=
  .of_other (apart.text idx)

/-- Saving an item with enough blocks. -/
theorem Saves.confined {tb : Tables} {bak i : Nat} {fresh : Bool} {backup restore : List Gadget}
    {own : List (List Nat)} (saves : Saves inst tb bak fresh item backup restore)
    (apart : OperandsApart inst choices st) (here : words[i]? = some bak)
    (within : ∀ j < item.width, bak + 4 * j ∈ slice words i item.width)
    (owned : slice words i item.width ∈ own)
    (fits : ∀ name len, item = .reg name len → fresh = true → name.words ≤ (len + 3) / 4)
    : ∀ g ∈ backup ++ restore, Confined st own g := by
  cases saves with
  | reg _ backed =>
    intro g mem p access
    rcases registerBackup_accesses backed g mem p access with top | inside
    · exact .of_stackTop top
    · exact .of_words owned
        (fun j small => within j (lt_of_lt_of_le small (fits _ _ rfl rfl))) inside
  | @block idx =>
    have text := apart.stays_text own idx
    have atBak (bytes : Nat) (small : bytes ≤ 4) : StaysIn st own (.abs bak, bytes) :=
      .of_block owned Nat.one_pos here (.here small)
    refine forall_iff_forall_mem.mp ⟨?_, ?_⟩
    · exact confined_genStoreMem (fun bytes _ => text bytes) atBak
    · exact confined_genStoreChangeMem atBak (fun bytes _ => text bytes)
  | old => exact forall_mem_nil _

/-- Setting an input with enough blocks. -/
theorem Sets.confined {tb : Tables} {src i : Nat} {setinput : List Gadget} {own : List (List Nat)}
    (sets : Sets inst tb src item setinput) (apart : OperandsApart inst choices st)
    (here : words[i]? = some src)
    (within : ∀ j < item.width, src + 4 * j ∈ slice words i item.width)
    (owned : slice words i item.width ∈ own)
    (fits : ∀ name len, item = .reg name len → name.words ≤ (len + 3) / 4)
    : ∀ g ∈ setinput, Confined st own g := by
  cases sets with
  | reg set =>
    exact fun g mem p access =>
      .of_words owned (fun j small => within j (lt_of_lt_of_le small (fits _ _ rfl)))
        (genMem2Reg_accesses set g mem p access)
  | @block idx =>
    refine forall_mem_singleton.mpr (confined_genStoreChangeMem (fun bytes small => ?_)
      (fun bytes _ => apart.stays_text own idx bytes))
    exact .of_block owned Nat.one_pos here (.here small)
  | old => exact forall_mem_nil _

/-- Inputs with enough blocks. -/
theorem Load.Valid.confined {load : Load} (valid : load.Valid inst st)
    (apart : OperandsApart inst choices st) (sized : Sized inst st)
    (entry : (load.index, load.item) ∈ indexed 0 inst.loads)
    (fits : ∀ name len, load.item = .reg name len → name.words ≤ (len + 3) / 4)
    : ∀ g ∈ load.emitted.backup ++ load.emitted.setinput ++ load.emitted.restore,
        Confined st (load.own st) g := by
  obtain ⟨saved, set, _⟩ := loadEmitted_cases valid.emits
  have saves : ∀ g ∈ load.emitted.backup ++ load.emitted.restore, Confined st (load.own st) g :=
    saved.confined apart valid.bak (sized.saved.run entry valid.bak)
      (mem_cons_of_mem _ mem_cons_self) (fun name len item _ => fits name len item)
  have sets : ∀ g ∈ load.emitted.setinput, Confined st (load.own st) g :=
    set.confined apart valid.src (sized.inputs.run entry valid.src) mem_cons_self fits
  intro g mem
  rcases mem_append.mp mem with front | last
  · rcases mem_append.mp front with first | middle
    · exact saves g (mem_append_left _ first)
    · exact sets g middle
  · exact saves g (mem_append_right _ last)

/-- A gadget that records one word of memory which is no block. -/
theorem confined_record {own : List (List Nat)} {tb : Tables} {scratch left right i n : Nat}
    {m : MemOp} {g : Gadget} (ownL : slice st.feistelL i n ∈ own)
    (ownR : slice st.feistelR i n ∈ own) (other : ∀ bytes, StaysIn st own (m, bytes))
    (away : ∀ j < 2, scratch + 4 * j ∉ st.batch.words) {j : Nat} (small : j < n)
    (atLeft : st.feistelL[i + j]? = some left) (atRight : st.feistelR[i + j]? = some right)
    (made : genFeistelCipher tb scratch left (.mem m) right 4 = some g)
    : Confined st own g := by
  have one {words : List Nat} {a : Nat} {p : MemOp × Nat} (mem : slice words i n ∈ own)
      (here : words[i + j]? = some a) (inside : InWords a 1 p)
      : StaysIn st own p := by
    refine .of_words mem (fun k low => ?_) inside
    have zero : k = 0 := by omega
    subst zero
    exact mem_slice.mpr ⟨j, small, here⟩
  intro p access
  have cases := genFeistelCipher_accesses made p access
  rw [recordWords_mem] at cases
  rcases cases with inL | inR | top | ⟨k, low, here⟩ | text
  · exact one ownL atLeft inL
  · exact one ownR atRight inR
  · exact .of_stackTop top
  · exact .of_abs here (away k low)
  · obtain ⟨m', bytes⟩ := p
    cases text
    exact other bytes

theorem Placed.four (placed : Placed inst st) {i right : Nat}
    (here : st.feistelR[i]? = some right)
    (run : ∃ run ∈ inst.runs, run.1 ≤ i ∧ i + 4 ≤ run.1 + run.2)
    : ∀ j < 4, st.feistelR[i + j]? = some (right + 4 * j) := by
  obtain ⟨run, mem, low, high⟩ := run
  obtain ⟨a, each⟩ := placed.whole run mem
  intro j small
  have first := (each (i - run.1) (by omega)).1
  have other := (each (i - run.1 + j) (by omega)).1
  rw [Nat.add_sub_cancel' low, here] at first
  rw [← Nat.add_assoc, Nat.add_sub_cancel' low] at other
  rw [other, Option.some.inj first]
  exact congrArg some (by omega)

/-- Words in the blocks of an output. -/
structure Store.Blocks (st : GenState) (store : Store) : Prop where
  left : ∀ j < store.item.width, store.left + 4 * j ∈ slice st.feistelL store.index store.item.width
  bak : ∀ j < store.item.width, store.bak + 4 * j ∈ slice st.feistelOut store.index store.item.width
  positive : 0 < store.item.width

theorem Generated.storeBlocks (generated : Generated inst choices st root loads stores)
    (placed : Placed inst st) {store : Store} (mem : store ∈ stores)
    : store.Blocks st := by
  have entry := generated.storeEntry mem
  have valid := generated.storeValid store mem
  refine ⟨placed.lefts.run entry valid.left, generated.sized.outputs.run entry valid.bak, ?_⟩
  have inside := Store.mem_stores generated mem
  cases kind : store.item with
  | reg name len =>
    rw [kind] at inside
    have pos := Inst.len_ne_zero (mem_append_right _ inside)
    show 0 < (len + 3) / 4
    omega
  | block idx => exact Nat.one_pos

theorem recordWords_cases (src2 : Source) (size : Nat)
    : recordWords src2 size = 1 ∨ recordWords src2 size = 4 := by
  unfold recordWords
  cases temp : feistelTemp src2 size with
  | none => exact .inl rfl
  | some t =>
    rcases feistelTemp_cases temp with rfl | rfl | ⟨n, rfl⟩ | ⟨n, rfl⟩
    · exact .inl rfl
    · exact .inl rfl
    · exact .inl rfl
    · exact .inr rfl

section

variable {store : Store} {own : List (List Nat)} {name : RegName} {len : Nat}
  (ownL : slice st.feistelL store.index store.item.width ∈ own)
  (ownR : slice st.feistelR store.index store.item.width ∈ own)

include ownL ownR

/-- Recording a register in blocks that follow each other. -/
theorem Store.Valid.confined_register (valid : store.Valid inst choices st)
    (placed : Placed inst st) (blocks : store.Blocks st) (kind : store.item = .reg name len)
    (away : ∀ j < 2, store.scratch + 4 * j ∉ st.batch.words)
    (notFpu : ∀ n, name ≠ .st n)
    (recorded
      : recordWords (.reg name) len = 4
        → 4 ≤ (len + 3) / 4
          ∧ ∃ run ∈ inst.runs, run.1 ≤ store.index ∧ store.index + 4 ≤ run.1 + run.2)
    : Confined st own store.record := by
  have records := valid.records
  rw [kind] at records
  have made := records notFpu
  have width : store.item.width = (len + 3) / 4 := by
    rw [kind]
    rfl
  have pos := blocks.positive
  have runs : ∀ j < recordWords (.reg name) len,
      store.left + 4 * j ∈ slice st.feistelL store.index store.item.width
      ∧ store.right + 4 * j ∈ slice st.feistelR store.index store.item.width := by
    intro j small
    rcases recordWords_cases (.reg name) len with one | four
    · have zero : j = 0 := by omega
      subst zero
      exact ⟨blocks.left 0 pos, mem_slice.mpr ⟨0, pos, valid.right⟩⟩
    · obtain ⟨enough, run⟩ := recorded four
      rw [four] at small
      have inside : j < store.item.width := by omega
      exact ⟨blocks.left j inside, mem_slice.mpr ⟨j, inside, placed.four valid.right run j small⟩⟩
  intro p access
  rcases genFeistelCipher_accesses made p access with inL | inR | top | ⟨k, low, here⟩ | text
  · exact .of_words ownL (fun j small => (runs j small).1) inL
  · exact .of_words ownR (fun j small => (runs j small).2) inR
  · exact .of_stackTop top
  · exact .of_abs here (away k low)
  · cases text

/-- A floating point register is recorded word by word. -/
theorem Store.Valid.confined_fpu (valid : store.Valid inst choices st) {n : Nat}
    (kind : store.item = .reg (.st n) len)
    (away : ∀ j < max 4 store.item.width, store.scratch + 4 * j ∉ st.batch.words)
    : Confined st own store.record := by
  obtain ⟨save, words, saved, each, merged⟩ := valid.fpu n len kind
  have away2 (j : Nat) (small : j < 2) : store.scratch + 4 * j ∉ st.batch.words :=
    away j (lt_of_lt_of_le (by omega) (le_max_left 4 _))
  have saves : Confined st own save := by
    intro p access
    rcases reg2MemAsm_accesses (genReg2Mem_spec saved).1 p access with top | ⟨d, here, bound⟩
    · exact .of_stackTop top
    · have low : d < 4 := by
        simp only [RegName.words] at bound
        omega
      exact .of_abs here (away d (lt_of_lt_of_le low (le_max_left _ _)))
  have records (g : Gadget) (mem : g ∈ words) : Confined st own g := by
    obtain ⟨j, inside, left, right, atLeft, atRight, made⟩ := Folds.forall₂_left each.flip mem
    have small : j < store.item.width := by
      rw [kind]
      exact mem_range.mp inside
    refine confined_record ownL ownR (fun bytes => .of_other fun a same => ?_) away2 small atLeft
      atRight made
    rw [← MemOp.abs_injective same]
    exact away j (lt_of_lt_of_le small (le_max_right _ _))
  intro p access
  rw [merge_asm merged] at access
  obtain ⟨g, mem, here⟩ := mem_accesses_flatMap.mp access
  rcases mem_cons.mp mem with rfl | later
  · exact saves p here
  · exact records g later p here

omit ownL ownR in
theorem Store.Valid.confined_backup (valid : store.Valid inst choices st)
    (apart : OperandsApart inst choices st) (blocks : store.Blocks st)
    (ownOut : slice st.feistelOut store.index store.item.width ∈ own)
    (fits
      : ∀ name len, store.item = .reg name len → store.fresh = true → name.words ≤ (len + 3) / 4)
    : ∀ g ∈ store.emitted.backup ++ store.emitted.restore, Confined st own g := by
  exact valid.saves.confined apart valid.bak blocks.bak ownOut fits

end

theorem copyBlocks_confined {tb : Tables} {src dest : List Nat} {i : Nat} {g : Gadget}
    (here : (copyBlocks tb src dest)[i]? = some g)
    : Confined st [slice src i 1, slice dest i 1] g := by
  obtain ⟨a, b, atSrc, atDest, rfl⟩ := List.getElem?_zipWith_eq_some.mp here
  apply confined_genStoreMem
  · intro bytes small
    exact .of_block mem_cons_self Nat.one_pos atSrc (.here small)
  · intro bytes small
    exact .of_block (mem_cons_of_mem _ mem_cons_self) Nat.one_pos atDest (.here small)

/-- Gadgets of instructions with enough blocks stay in them. -/
theorem Inst.BlocksFit.confined (fits : inst.BlocksFit)
    (generated : Generated inst choices st root loads stores) (placed : Placed inst st)
    (apart : OperandsApart inst choices st)
    : BlocksConfined st root loads stores where
  loads load mem := by
    refine (generated.loadValid load mem).confined apart generated.sized
      (generated.loadEntry mem) fun name len item => ?_
    exact fits.inputs name len (item ▸ Load.mem_loads generated mem)
  stores store mem := by
    have valid := generated.storeValid store mem
    have inside := Store.mem_stores generated mem
    have blocks := generated.storeBlocks placed mem
    have ownL : slice st.feistelL store.index store.item.width ∈ store.own st := mem_cons_self
    have ownR : slice st.feistelR store.index store.item.width ∈ store.own st :=
      mem_cons_of_mem _ mem_cons_self
    have ownOut : slice st.feistelOut store.index store.item.width ∈ store.own st :=
      mem_cons_of_mem _ (mem_cons_of_mem _ mem_cons_self)
    obtain ⟨draw, scratch⟩ := valid.scratch
    have away (j : Nat) (small : j < max 4 store.item.width)
        : store.scratch + 4 * j ∉ st.batch.words := by
      rw [scratch]
      exact apart.scratch draw store.item inside j small
    have away2 (j : Nat) (small : j < 2) : store.scratch + 4 * j ∉ st.batch.words :=
      away j (lt_of_lt_of_le (by omega) (le_max_left 4 _))
    refine forall_mem_cons.mpr ⟨?_, valid.confined_backup apart blocks ownOut ?_⟩
    · cases kind : store.item with
      | reg name len =>
        by_cases fpu : ∃ n, name = .st n
        · obtain ⟨n, rfl⟩ := fpu
          exact valid.confined_fpu ownL ownR kind away
        · have notFpu (n : Nat) : name ≠ .st n := fun same => fpu ⟨n, same⟩
          refine valid.confined_register ownL ownR placed blocks kind away2 notFpu ?_
          exact fits.recorded store.index name len (kind ▸ generated.storeEntry mem) notFpu
      | block idx =>
        have records := valid.records
        rw [kind] at records
        exact confined_record ownL ownR (apart.stays_text _ idx) away2 blocks.positive
          valid.left valid.right records
    · intro name len item fresh
      refine fits.outputs name len (item ▸ inside) fun len' read => ?_
      obtain ⟨load, there, same⟩ := generated.load_of_item read
      refine generated.freshReg store mem name len item fresh load there ?_
      rw [same]
      rfl
  backupR i g here := by
    obtain ⟨tb, _, copies, _⟩ := generated.copies
    rw [copies] at here
    exact copyBlocks_confined here
  update i g here := by
    obtain ⟨tb, _, _, copies⟩ := generated.copies
    rw [copies] at here
    exact copyBlocks_confined here

end

end FastPokeEmu.Floppy
