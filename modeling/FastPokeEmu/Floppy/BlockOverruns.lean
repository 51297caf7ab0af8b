import FastPokeEmu.Floppy.BlockBounds

/-! Instructions with gadgets that leave the blocks of their operands: those that move a
register of more words than its operand has, and those that record an XMM register in R blocks
which do not follow each other.
-/

namespace FastPokeEmu.Floppy

open List

section

variable {inst : Inst} {choices : Choices} {st : GenState} {root : Root} {loads : List Load}
  {stores : List Store}

/-- A wide access needs as many blocks as it touches words. -/
theorem StaysIn.enough {own : List (List Nat)} {a bytes n w : Nat}
    (stays : StaysIn st own (.abs a, bytes)) (block : a ∈ st.batch.words)
    (short : ∀ c ∈ own, c.length ≤ w) (wide : 4 * n < bytes + 4)
    : n ≤ w := by
  obtain ⟨c, mem, run⟩ := stays a rfl block
  have inside : consecutive a n ⊆ c := by
    intro x here
    obtain ⟨j, small, rfl⟩ := mem_consecutive.mp here
    exact run j (by omega)
  have nodup : (consecutive a n).Nodup := by
    refine List.Nodup.map ?_ nodup_range
    intro i j same
    simp only at same
    omega
  have length := (subperm_of_subset nodup inside).length_le
  rw [length_consecutive] at length
  exact le_trans length (short c mem)

theorem Load.own_short (load : Load) : ∀ c ∈ load.own st, c.length ≤ load.item.width :=
  forall_iff_forall_mem.mp ⟨length_slice_le _ _ _, length_slice_le _ _ _⟩

theorem Store.own_short (store : Store) : ∀ c ∈ store.own st, c.length ≤ store.item.width :=
  forall_iff_forall_mem.mp
    ⟨length_slice_le _ _ _, length_slice_le _ _ _, length_slice_le _ _ _⟩

/-- An R block that is followed by a block of the next word is followed by it in the list. -/
theorem Placed.next (placed : Placed inst st) {i a : Nat} (here : st.feistelR[i]? = some a)
    (mem : a + 4 ∈ st.feistelR)
    : st.feistelR[i + 1]? = some (a + 4) := by
  obtain ⟨k, there⟩ := mem_iff_getElem?.mp mem
  obtain ⟨inside, atI⟩ := List.getElem?_eq_some_iff.mp here
  obtain ⟨inside', atK⟩ := List.getElem?_eq_some_iff.mp there
  have sorted := pairwise_iff_getElem.mp placed.sorted
  rcases Nat.lt_trichotomy k (i + 1) with before | same | after
  · rcases Nat.lt_or_eq_of_le (Nat.le_of_lt_succ before) with less | equal
    · have := sorted k i inside' inside less
      omega
    · subst equal
      omega
  · rw [← same, there]
  · have first := sorted i (i + 1) inside (by omega) (by omega)
    have second := sorted (i + 1) k (by omega) inside' after
    omega

theorem JoinedIn.same_run {start i : Nat} {ns : List Nat}
    (first : JoinedIn (runsFrom start ns) i) (second : JoinedIn (runsFrom start ns) (i + 1))
    : ∃ run ∈ runsFrom start ns, run.1 ≤ i ∧ i + 2 < run.1 + run.2 := by
  obtain ⟨run, mem, low, high⟩ := first
  obtain ⟨run', mem', low', high'⟩ := second
  have same : run = run' :=
    runsFrom_unique mem mem' (i := i + 1) ⟨by omega, high⟩ ⟨low', by omega⟩
  rw [← same] at high'
  exact ⟨run, mem, low, high'⟩

/-- Four R blocks that follow each other are of one run. -/
theorem Placed.run_of_four (placed : Placed inst st) {i a : Nat}
    (here : st.feistelR[i]? = some a) (members : ∀ j < 4, a + 4 * j ∈ st.feistelR)
    : ∃ run ∈ inst.runs, run.1 ≤ i ∧ i + 4 ≤ run.1 + run.2 := by
  have second := placed.next here (members 1 (by decide))
  have third := placed.next second (members 2 (by decide))
  have fourth := placed.next third (members 3 (by decide))
  have join1 := placed.adjacent i a here second
  have join2 := placed.adjacent (i + 1) (a + 4) second third
  have join3 := placed.adjacent (i + 2) (a + 8) third fourth
  obtain ⟨run, mem, low, high⟩ := join1.same_run join2
  obtain ⟨run', mem', low', high'⟩ := join2.same_run join3
  have same : run = run' :=
    runsFrom_unique mem mem' (i := i + 1) ⟨by omega, by omega⟩ ⟨low', by omega⟩
  rw [← same] at high'
  exact ⟨run, mem, low, by omega⟩

theorem genFeistelCipher_xcr0 {tb : Tables} {scratch left right len : Nat} {g : Gadget}
    (made : genFeistelCipher tb scratch left (.reg .xcr0) right len = some g)
    : 4 < len := by
  obtain ⟨t, loads, xors, stores, kills, parts⟩ := genFeistelCipher_parts made
  by_contra small
  have temp := parts.temp
  have xor := parts.xor
  simp only [feistelTemp, Source.mentionsEax, RegName.mentionsEax] at temp
  rw [if_pos (by omega)] at temp
  cases temp
  cases xor

theorem RegName.words_cases (name : RegName) : name.words = 1 ∨ name.Wide ∨ name = .xcr0 := by
  cases name with
  | st n => exact .inr (.inl (.inl ⟨n, rfl⟩))
  | xmm n => exact .inr (.inl (.inr ⟨n, rfl⟩))
  | xcr0 => exact .inr (.inr rfl)
  | _ => exact .inl rfl

theorem RegName.Wide.notGpr {name : RegName} (wide : name.Wide) : ∀ r, name ≠ .gpr r := by
  rintro r rfl
  rcases wide with ⟨n, same⟩ | ⟨n, same⟩ <;> cases same

namespace BlocksConfined

variable (confined : BlocksConfined st root loads stores)
  (generated : Generated inst choices st root loads stores)

include confined generated

/-- Inputs are set from the first of their R blocks. -/
theorem inputs_fit (placed : Placed inst st) {name : RegName} {len : Nat}
    (read : .reg name len ∈ inst.loads)
    : name.words ≤ (len + 3) / 4 := by
  obtain ⟨load, mem, item⟩ := generated.load_of_item read
  have valid := generated.loadValid load mem
  have sets := (loadEmitted_cases valid.emits).2.1
  have atR : load.src ∈ st.feistelR := mem_of_getElem? valid.src
  have width : load.item.width = (len + 3) / 4 := by rw [item]; rfl
  obtain ⟨setinput, emitted⟩ : ∃ setinput, load.emitted.setinput = setinput := ⟨_, rfl⟩
  rw [item, emitted] at sets
  obtain ⟨set⟩ := sets
  have stays (p : MemOp × Nat) (access : p ∈ accesses (setinput.flatMap Gadget.asm))
      : StaysIn st (load.own st) p := by
    obtain ⟨g, there, here⟩ := mem_accesses_flatMap.mp access
    refine confined.loads load mem g ?_ p here
    rw [emitted]
    exact mem_append_left _ (mem_append_right _ there)
  have code := genMem2Reg_code set
  rcases name.words_cases with one | wide | rfl
  · have pos := Inst.len_ne_zero (mem_append_left _ read)
    omega
  · obtain ⟨bytes, access, reach⟩ := accesses_wide wide (.inl code)
    rw [← width]
    exact (stays _ access).enough (mem_batch_words (.inl atR)) load.own_short reach
  · -- the second word of a single block's register is the backup of the block
    by_contra small
    have single : (len + 3) / 4 = 1 := by
      have pos := Inst.len_ne_zero (mem_append_left _ read)
      simp only [RegName.words] at small
      omega
    obtain ⟨a, each⟩ := placed.whole _ (Inst.run_of_register (item ▸ generated.loadEntry mem))
    obtain ⟨first, second⟩ := each 0 (by omega)
    rw [Nat.add_zero, valid.src] at first
    have inBackup : load.src + 4 ∈ st.feistelRBak := by
      rw [Option.some.inj first]
      refine mem_of_getElem? (second.trans ?_)
      simp [single]
    have access : ((MemOp.abs load.src).plus 4, 4) ∈ accesses (setinput.flatMap Gadget.asm) := by
      rw [← Option.some.inj code]
      exact mem_cons_of_mem _ mem_cons_self
    obtain ⟨c, own, run⟩ :=
      stays _ access _ (MemOp.plus_abs load.src 4) (mem_batch_words (.inr (.inl inBackup)))
    have inside := run 0 (Nat.zero_lt_succ 3)
    rcases mem_pair.mp own with rfl | rfl
    · exact (generated.apart.1 (mem_of_slice inside)).1 inBackup
    · exact generated.apart.2 inBackup (mem_of_slice inside)

/-- Outputs that are not read are saved in their own words. -/
theorem outputs_fit {name : RegName} {len : Nat} (written : .reg name len ∈ inst.stores)
    (unread : ∀ len', .reg name len' ∉ inst.loads)
    : name.words ≤ (len + 3) / 4 := by
  have pos := Inst.len_ne_zero (mem_append_right _ written)
  obtain ⟨entry, mem, same⟩ : ∃ entry ∈ indexed 0 inst.stores, entry.2 = .reg name len := by
    rw [← indexed_map_snd 0 inst.stores] at written
    exact mem_map.mp written
  obtain ⟨store, mem, _, item⟩ := generated.store_of_entry mem
  rw [same] at item
  have valid := generated.storeValid store mem
  have fresh : store.fresh = true := by
    rcases generated.storeFresh store mem name len item with fresh | ⟨load, there, _, key⟩
    · exact fresh
    · cases kind : load.item with
      | reg name' len' =>
        rw [kind] at key
        cases key
        exact absurd (kind ▸ Load.mem_loads generated there) (unread len')
      | block idx =>
        rw [kind] at key
        cases key
  have saves := valid.saves
  rw [item, fresh] at saves
  generalize backs : store.emitted.backup = backup at saves
  generalize store.emitted.restore = restore at saves
  obtain ⟨_, backed⟩ := saves
  rcases name.words_cases with one | wide | rfl
  · omega
  · obtain ⟨size, code, _⟩ := registerBackup_code backed wide.notGpr
    obtain ⟨bytes, access, reach⟩ := accesses_wide wide (.inr code)
    obtain ⟨g, there, here⟩ := mem_accesses_flatMap.mp access
    have stays : StaysIn st (store.own st) (.abs store.bak, bytes) := by
      refine confined.stores store mem g ?_ _ here
      exact mem_cons_of_mem _ (mem_append_left _ (backs ▸ there))
    have atOut : store.bak ∈ st.feistelOut := mem_of_getElem? valid.bak
    have width : store.item.width = (len + 3) / 4 := by rw [item]; rfl
    rw [← width]
    exact stays.enough (mem_batch_words (.inr (.inr (.inr (.inr atOut))))) store.own_short reach
  · have records := valid.records
    rw [item] at records
    have long := genFeistelCipher_xcr0 (records (by simp))
    show 2 ≤ (len + 3) / 4
    omega

/-- Outputs that are recorded through an XMM register have four blocks of one run. -/
theorem recorded_fit (placed : Placed inst st) {i len : Nat} {name : RegName}
    (entry : (i, .reg name len) ∈ indexed 0 inst.stores) (notFpu : ∀ n, name ≠ .st n)
    (wide : recordWords (.reg name) len = 4)
    : 4 ≤ (len + 3) / 4 ∧ ∃ run ∈ inst.runs, run.1 ≤ i ∧ i + 4 ≤ run.1 + run.2 := by
  obtain ⟨store, mem, index, item⟩ := generated.store_of_entry entry
  have valid := generated.storeValid store mem
  have records := valid.records
  rw [item] at records
  obtain ⟨readL, writeR⟩ := genFeistelCipher_wide (records notFpu) wide
  have stays (p : MemOp × Nat) (access : p ∈ accesses store.record.asm)
      : StaysIn st (store.own st) p :=
    confined.stores store mem store.record mem_cons_self p access
  have inL : store.left ∈ st.feistelL := mem_of_getElem? valid.left
  have inR : store.right ∈ st.feistelR := mem_of_getElem? valid.right
  have width : store.item.width = (len + 3) / 4 := by rw [item]; rfl
  refine ⟨?_, ?_⟩
  · rw [← width]
    exact (stays _ readL).enough (mem_batch_words (.inr (.inr (.inl inL))))
      store.own_short (by decide)
  · obtain ⟨c, own, run⟩ := stays _ writeR _ rfl (mem_batch_words (.inl inR))
    have atRight := valid.right
    rw [index] at atRight
    refine placed.run_of_four atRight fun j small => ?_
    -- the R block tells which of the three lists is meant
    have first := run 0 (Nat.zero_lt_succ 15)
    have inside := run j (by omega)
    rcases mem_cons.mp own with rfl | later
    · exact absurd (mem_of_slice first) (generated.apart.1 inR).2.1
    · rcases mem_pair.mp later with rfl | rfl
      · exact mem_of_slice inside
      · exact absurd (mem_of_slice first) (generated.apart.1 inR).2.2

theorem fits (placed : Placed inst st) : inst.BlocksFit where
  inputs _ _ read := confined.inputs_fit generated placed read
  outputs _ _ written unread := confined.outputs_fit generated written unread
  recorded _ _ _ entry notFpu wide := confined.recorded_fit generated placed entry notFpu wide

end BlocksConfined

/-- Every test case of an instruction has gadgets for all its operands; they stay in the blocks
of their operands exactly if the instruction has enough blocks.
-/
theorem blocks_confined_iff (decoded : inst.Decoded) {mode k : Nat}
    (made : generate inst choices mode k = some (root, st))
    (apart : OperandsApart inst choices st)
    : ∃ loads stores,
        Generated inst choices st root loads stores
        ∧ (BlocksConfined st root loads stores ↔ inst.BlocksFit) := by
  obtain ⟨_, loads, stores, generated⟩ := generate_generated decoded made
  have placed := generate_placed decoded made
  refine ⟨loads, stores, generated, ?_, ?_⟩
  · exact fun confined => confined.fits generated placed
  · exact fun fits => fits.confined generated placed apart

end

/-- `movaps %xmm1,%xmm0`, or `movss %xmm1,%xmm0` which moves four bytes. -/
def moveXmm (len : Nat) : Inst where
  operands := [⟨.reg (some (.xmm 0)), len, .write⟩, ⟨.reg (some (.xmm 1)), len, .read⟩]
  memory _ := ⟨some .ds, 0, 0, some ⟨.eax, .full⟩, none, 1, false, false⟩
  xlat := false
  ltr := false
  popCategory := false

theorem moveXmm_decoded (len : Nat) : (moveXmm len).Decoded := by
  refine forall_iff_forall_mem.mp ⟨?_, ?_⟩
  · intro n kind
    cases kind
  · intro n kind
    cases kind

theorem movaps_fits : (moveXmm 16).BlocksFit where
  inputs name len read := by
    cases mem_singleton.mp (show Item.reg name len ∈ [Item.reg (.xmm 1) 16] from read)
    exact Nat.le_refl 4
  outputs name len written _ := by
    cases mem_singleton.mp (show Item.reg name len ∈ [Item.reg (.xmm 0) 16] from written)
    exact Nat.le_refl 4
  recorded i name len entry _ _ := by
    cases mem_singleton.mp (show (i, Item.reg name len) ∈ [(0, Item.reg (.xmm 0) 16)] from entry)
    exact ⟨Nat.le_refl 4, (0, 4), mem_cons_of_mem _ mem_cons_self, Nat.le_refl 0, Nat.le_refl 4⟩

theorem movaps_apart {st : GenState} (allocated : ∀ a ∈ st.batch.words, startAddr ≤ a)
    : OperandsApart (moveXmm 16) fixedChoices st where
  text idx a same := by
    have based := congrArg MemOp.base same
    cases based
  scratch draw item mem j bound inside := by
    cases mem_singleton.mp (show item ∈ [Item.reg (.xmm 0) 16] from mem)
    have low := allocated _ inside
    have far : fixedChoices.scratch draw + 4 * j < startAddr := by
      have small : j < 4 := bound
      show 0x600000 + 4 * j < 0x128d014
      omega
    omega

theorem blocks_confined_iff_movaps
    : ∃ root st loads stores,
        generate (moveXmm 16) fixedChoices 2 0 = some (root, st)
        ∧ Generated (moveXmm 16) fixedChoices st root loads stores
        ∧ BlocksConfined st root loads stores := by
  have emits : (generate (moveXmm 16) fixedChoices 2 0).isSome = true := by decide +kernel
  obtain ⟨⟨root, st⟩, made⟩ := Option.isSome_iff_exists.mp emits
  obtain ⟨ready, _⟩ := generate_generated (moveXmm_decoded 16) made
  have allocated (a : Nat) (member : a ∈ st.batch.words) : startAddr ≤ a :=
    le_trans (Nat.le_add_right _ 4) (ready.allocated.inside a member).1
  obtain ⟨loads, stores, generated, confined⟩ :=
    blocks_confined_iff (moveXmm_decoded 16) made (movaps_apart allocated)
  exact ⟨root, st, loads, stores, made, generated, confined.mpr movaps_fits⟩

/-- `movss` has one block in each list, but its gadgets move whole registers: saving XMM1
overwrites an L block.
-/
theorem movss_leaves_blocks
    : ∃ root st loads stores,
        generate (moveXmm 4) fixedChoices 2 0 = some (root, st)
        ∧ Generated (moveXmm 4) fixedChoices st root loads stores
        ∧ ¬ BlocksConfined st root loads stores
        ∧ ∃ g ∈ root.backup, ∃ a,
            (.abs a, 16) ∈ accesses g.asm ∧ a ∈ st.feistelIn ∧ a + 4 ∈ st.feistelL := by
  have emits
      : (generate (moveXmm 4) fixedChoices 2 0).any (fun out =>
          out.1.backup.any (fun g => out.2.feistelIn.any (fun a =>
            decide ((.abs a, 16) ∈ accesses g.asm ∧ a + 4 ∈ out.2.feistelL)))) = true := by
    decide +kernel
  obtain ⟨⟨root, st⟩, made, overrun⟩ := (Option.any_eq_true _ _).mp emits
  obtain ⟨g, emitted, saved⟩ := any_eq_true.mp overrun
  obtain ⟨a, block, access⟩ := any_eq_true.mp saved
  obtain ⟨wide, other⟩ := of_decide_eq_true access
  obtain ⟨_, loads, stores, generated⟩ := generate_generated (moveXmm_decoded 4) made
  refine ⟨root, st, loads, stores, made, generated, fun confined => ?_, g, emitted, a, wide, block,
    other⟩
  have fits := confined.fits generated (generate_placed (moveXmm_decoded 4) made)
  have few : 4 ≤ 1 := fits.inputs (.xmm 1) 4 mem_cons_self
  omega

/-- Two test cases of `movaps`. -/
theorem generate_allocates_movaps
    : ∃ root st root' st',
        generate (moveXmm 16) fixedChoices 2 0 = some (root, st)
        ∧ generate (moveXmm 16) fixedChoices 2 1 = some (root', st')
        ∧ st'.feistelL = st.feistelL
        ∧ st.batch.words.Nodup := by
  have first : (generate (moveXmm 16) fixedChoices 2 0).isSome = true := by decide +kernel
  have second : (generate (moveXmm 16) fixedChoices 2 1).isSome = true := by decide +kernel
  obtain ⟨⟨root, st⟩, made⟩ := Option.isSome_iff_exists.mp first
  obtain ⟨⟨root', st'⟩, made'⟩ := Option.isSome_iff_exists.mp second
  obtain ⟨same, -, nodup, -⟩ := generate_allocates (moveXmm_decoded 16) made made'
  exact ⟨root, st, root', st', made, made', same.2.2, nodup⟩

end FastPokeEmu.Floppy
