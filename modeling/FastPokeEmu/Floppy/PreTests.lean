import FastPokeEmu.Floppy.PreList

/-! The pre lists of generated test cases. A gadget that sets EFLAGS masks the R block in place,
so the bits outside of the mask are lost for the block, and for its copy if the copy comes
later.
-/

namespace FastPokeEmu.Floppy

open ByteMemory List Option

section

variable {inst : Inst} {choices : Choices} {st : GenState} {root : Root} {loads : List Load}
  {stores : List Store}

section

variable (generated : Generated inst choices st root loads stores)

include generated

theorem Generated.merges : ∃ copyR, mergeCopyR root.backupR = some copyR := by
  obtain ⟨tb, _, backupR, _⟩ := generated.copies
  have two : 2 ≤ inst.blocks := le_trans (Nat.le_add_left 2 _) (le_max_right _ _)
  have length : root.backupR.length = inst.blocks := by
    rw [backupR, copyBlocks, length_zipWith, generated.sized.r, generated.sized.rBak, Nat.min_self]
  have filled : root.backupR ≠ [] := by
    intro empty
    rw [empty, length_nil] at length
    omega
  rw [mergeCopyR, wrapCopyR, if_neg filled]
  exact ⟨_, rfl⟩

/-- Gadgets that set inputs mask the blocks of EFLAGS and write no other block. -/
theorem Generated.setinput_writes (core : ∀ item ∈ inst.loads, item.Core)
    (apart : ∀ idx, .block idx ∈ inst.loads → ∀ a, inst.text idx = .abs a → a ∉ st.batch.words)
    {own : List Nat} {g : Gadget} (mem : g ∈ root.setinput) {i : Ins}
    (inside : i ∈ Cpu.instructions g.asm)
    : i.WritesOnly st own ∨ ∃ a ∈ inst.flagBlocks st, i = .andlMem flagMask (.abs a) := by
  rw [generated.setinput] at mem
  obtain ⟨load, listed, here⟩ := mem_flatMap.mp mem
  have valid := generated.loadValid load listed
  have read := Load.mem_loads generated listed
  have target (idx : Nat) (item : load.item = .block idx) := apart idx (item ▸ read)
  rcases valid.setinput_writes own (core _ read) target
    with ⟨_, only⟩ | ⟨flags, g', single, code⟩
  · exact Or.inl (only g here i inside)
  · have block : load.src ∈ inst.flagBlocks st :=
      Inst.mem_flagBlocks.mpr ⟨_, generated.loadEntry listed, flags, valid.src⟩
    rw [single] at here
    rw [mem_singleton.mp here, code] at inside
    rcases mem_cons.mp inside with rfl | later
    · exact Or.inr ⟨_, block, rfl⟩
    · refine Or.inl (forall_iff_forall_mem.mp ?_ i later)
      exact ⟨.of_none rfl, .of_none rfl⟩

theorem Generated.backup_writes (core : ∀ item ∈ inst.loads ++ inst.stores, item.Core)
    {g : Gadget} (mem : g ∈ root.backup) {i : Ins} (inside : i ∈ Cpu.instructions g.asm)
    : i.WritesOnly st (st.feistelIn ++ st.feistelOut) := by
  rw [generated.backup] at mem
  rcases mem_append.mp mem with first | second
  · obtain ⟨load, listed, here⟩ := mem_flatMap.mp first
    have read := mem_append_left inst.stores (Load.mem_loads generated listed)
    have valid := generated.loadValid load listed
    exact valid.saves.backup_writes (core _ read)
      (mem_append_left _ (mem_of_getElem? valid.bak)) g here i inside
  · obtain ⟨store, listed, here⟩ := mem_flatMap.mp second
    have written := mem_append_right inst.loads (Store.mem_stores generated listed)
    have valid := generated.storeValid store listed
    exact valid.saves.backup_writes (core _ written)
      (mem_append_right _ (mem_of_getElem? valid.bak)) g here i inside

/-- Every block of EFLAGS has a gadget that masks it. -/
theorem Generated.masks (core : ∀ item ∈ inst.loads, item.Core) {a : Nat}
    (flags : a ∈ inst.flagBlocks st)
    : ∃ g ∈ root.setinput, g.asm = flagsAsm a := by
  obtain ⟨entry, listed, isFlags, here⟩ := Inst.mem_flagBlocks.mp flags
  rw [← generated.loadIndices] at listed
  obtain ⟨load, mem, same⟩ := mem_map.mp listed
  have valid := generated.loadValid load mem
  have source : load.src = a := by
    rw [← same] at here
    exact Option.some.inj (valid.src.symm.trans here)
  have item : load.item.isFlags = true := by
    rw [← same] at isFlags
    exact isFlags
  have noBlock (idx : Nat) (block : load.item = .block idx) (a : Nat)
      (_ : inst.text idx = .abs a)
      : a ∉ st.batch.words := by
    rw [block] at item
    cases item
  rcases valid.setinput_writes [] (core _ (Load.mem_loads generated mem)) noBlock
    with ⟨other, _⟩ | ⟨_, g, single, code⟩
  · rw [item] at other
    cases other
  · refine ⟨g, ?_, source ▸ code⟩
    rw [generated.setinput]
    exact mem_flatMap.mpr ⟨load, mem, single ▸ mem_singleton.mpr rfl⟩

end

end

/-- Code of a line of the pre phase. The return point that is stored there is that of the post
phase.
-/
def Emission.lineCode (out : Emission) (l2 : Nat) : Line → List Asm
  | .gadget g => g.asm
  | .setRetp _ => [.ins (.movlLabel l2 ⟨some .fs, some out.late.retp, none, none, 0⟩)]
  | _ => []

/-- Code of the pre phase. -/
def Emission.preCode (out : Emission) (l2 : Nat) : List Asm :=
  out.phases.pre.flatMap (out.lineCode l2)

section

variable {c : Config} {t : TestCase} {isFirst : Bool} {g g' : Globals} {out : Emission}

/-- The gadgets of which the pre phase of a test case consists. -/
structure Config.Pre (c : Config) (isFirst : Bool) (g : Globals) (t : TestCase)
    (out : Emission) (root : Root) (param inputs gs : List Gadget)
    : Prop where
  rooted
    : ∃ gen, c.genRoot t.inst isFirst g.gen = some (root, gen) ∧ out.early = { g with gen := gen }
  plain : ∀ g ∈ param, g.absolutes = []
  sets : ∀ g ∈ root.setinput, g ∈ inputs
  given
    : ∀ g ∈ inputs,
        g ∈ root.setinput
        ∨ g.asm = [.ins (.movlLabel t.l2 ⟨some .fs, some out.late.retp, none, none, 0⟩)]
  perm : gs.Perm (param ++ root.backup ++ (mergeCopyR root.backupR).toList ++ inputs)
  code : out.preCode t.l2 = gs.flatMap Gadget.asm

/-- Inputs are sorted together with the update of the return point. -/
theorem Collected.setinput_spec {collected : Collected} {orders : Nat → HashOrder}
    {inputs : List Gadget} (made : collected.setinput orders = some inputs)
    : (∀ g ∈ collected.root.setinput, g ∈ inputs)
      ∧ ∀ g ∈ inputs, g ∈ collected.root.setinput ∨ g = collected.returnToPost := by
  simp only [Collected.setinput] at made
  split at made
  next empty =>
    cases made
    rw [empty]
    exact ⟨fun g mem => mem, fun g mem => Or.inl mem⟩
  · have perm := (sortGadget_spec made).1
    refine ⟨fun g mem => perm.mem_iff.mpr (mem_cons_of_mem _ mem), ?_⟩
    intro g mem
    exact (mem_cons.mp (perm.subset mem)).symm

theorem Config.inMode_pre (ps : Phases) : (c.inMode ps).pre = ps.pre := by
  rw [inMode]
  split <;> rfl

theorem Collected.phases_pre {collected : Collected} {orders : Nat → HashOrder} {ps : Phases}
    (made : collected.phases orders = some ps)
    : ∃ inputs gs : List Gadget,
        collected.setinput orders = some inputs
        ∧ gs.Perm
            (collected.param ++ collected.root.backup
              ++ (mergeCopyR collected.root.backupR).toList ++ inputs)
        ∧ ps.pre = .label .ls :: gs.map collected.line := by
  simp only [phases, bind_eq_bind, bind_eq_some_iff] at made
  obtain ⟨startup, _, pre, prepared, post, _, reverts, _, reverts_, _, whole⟩ := made
  simp only [Collected.pre, bind_eq_bind, bind_eq_some_iff] at prepared
  obtain ⟨inputs, sets, gs, sorts, lines⟩ := prepared
  cases whole
  exact ⟨inputs, gs, sets, (sortGadget_spec sorts).1, (Option.some.inj lines).symm⟩

theorem Emission.lineCode_line {collected : Collected}
    (retp : collected.retpOp = ⟨some .fs, some out.late.retp, none, none, 0⟩) (h : Gadget)
    : out.lineCode collected.l2 (collected.line h) = h.asm := by
  rw [Collected.line]
  split
  next same =>
    rw [same, Collected.returnToPost, retp]
    rfl
  · rfl

theorem Config.genTest_pre (made : c.genTest isFirst g t = some (out, g'))
    : ∃ root param inputs gs, c.Pre isFirst g t out root param inputs gs := by
  simp only [genTest, bind_eq_bind, bind_eq_some_iff, Prod.exists] at made
  obtain ⟨root, gen, rooted, changed, changes, param, made0, param0, made1, revert, made2,
    revert0, made3, revert_, made4, ps, phases, final⟩ := made
  obtain ⟨inputs, gs, sets, perm, pre⟩ := Collected.phases_pre phases
  obtain ⟨setinput, others⟩ := Collected.setinput_spec sets
  cases final
  refine ⟨root, param, inputs, gs, ⟨gen, rooted, rfl⟩, ?_, setinput, ?_, perm, ?_⟩
  · have plain : ∀ h ∈ param, ParamGadget (fun _ => True) h := by
      refine Config.gather_paramGadget made0 ?_
      intro q _ r gs made h mem
      have here := genGadget_paramGadget made mem
      exact ⟨here.absolutes, fun _ _ => trivial, here.kill⟩
    exact fun h mem => (plain h mem).absolutes
  · intro h mem
    refine (others h mem).imp_right (fun same => ?_)
    rw [same]
    rfl
  · rw [Emission.preCode, inMode_pre, pre, flatMap_cons, flatMap_map]
    exact flatMap_congr (fun h _ => Emission.lineCode_line rfl h)

/-- Between test cases of one instruction the generator is ready for the next. -/
theorem Config.genTests_ready {inst : Inst} {tests : List TestCase} (aggregates : 2 ≤ c.mode)
    (decoded : inst.Decoded) (on : g.PagingOn) (ready : Ready inst isFirst g.gen)
    (same : ∀ t ∈ tests, t.inst = inst) (made : c.genTests isFirst g tests = some g')
    : Ready inst (isFirst && tests.isEmpty) g'.gen := by
  induction tests generalizing isFirst g with
  | nil =>
    cases made
    rw [isEmpty_nil, Bool.and_true]
    exact ready
  | cons t rest ih =>
    simp only [genTests, bind_eq_bind, bind_eq_some_iff, Prod.exists] at made
    obtain ⟨out, next, first, later⟩ := made
    obtain ⟨rfl, still⟩ := Config.genTest_early on first
    obtain ⟨root, param, inputs, gs, pre⟩ := Config.genTest_pre first
    obtain ⟨gen, rooted, early⟩ := pre.rooted
    rw [same t mem_cons_self, Config.genRoot, if_pos aggregates] at rooted
    have next : Ready inst false out.early.gen := by
      rw [early]
      exact (genRoot_generated decoded ready rooted).1
    have last := ih still next (fun t mem => same t (mem_cons_of_mem _ mem)) later
    rw [Bool.false_and] at last
    rw [isEmpty_cons, Bool.and_false]
    exact last

variable {root : Root} {param inputs gs : List Gadget}

/-- The gadgets of a pre phase. -/
theorem Config.Pre.gadgets (pre : c.Pre isFirst g t out root param inputs gs)
    (aggregates : 2 ≤ c.mode) (decoded : t.inst.Decoded) (ready : Ready t.inst isFirst g.gen)
    (core : ∀ item ∈ t.inst.loads ++ t.inst.stores, item.Core)
    (apart
      : ∀ idx,
          .block idx ∈ t.inst.loads → ∀ a, t.inst.text idx = .abs a → a ∉ out.early.gen.batch.words)
    : Sized t.inst out.early.gen
      ∧ Fresh (startAddr + 4) out.early.gen.nextAddr out.early.gen.batch.words
      ∧ ∃ copyR others,
          PreGadgets t.inst out.early.gen copyR others ∧ gs.Perm (copyR :: others) := by
  obtain ⟨gen, rooted, early⟩ := pre.rooted
  rw [Config.genRoot, if_pos aggregates] at rooted
  obtain ⟨_, _, loads, stores, generated⟩ := genRoot_generated decoded ready rooted
  have same : out.early.gen = gen := by rw [early]
  rw [same] at apart ⊢
  have inputsCore : ∀ item ∈ t.inst.loads, item.Core :=
    fun item mem => core item (mem_append_left _ mem)
  obtain ⟨copyR, merged⟩ := generated.merges
  refine ⟨generated.sized, generated.allocated, copyR, param ++ root.backup ++ inputs, ?_, ?_⟩
  · refine ⟨?_, ?_, ?_⟩
    · obtain ⟨tb, _, backupR, _⟩ := generated.copies
      rw [mergeCopyR_asm merged, backupR, copyBlocks_asm]
    · intro h mem i inside
      rcases mem_append.mp mem with first | input
      · rcases mem_append.mp first with parameter | backup
        · exact Or.inl (writesOnly_of_absolutes (pre.plain h parameter) i inside)
        · exact Or.inl (generated.backup_writes core backup inside)
      · rcases pre.given h input with setter | code
        · exact generated.setinput_writes inputsCore apart setter inside
        · -- the return point is in another segment
          rw [code] at inside
          rw [mem_singleton.mp inside]
          exact Or.inl (.of_dest rfl (Nat.le_refl 4) (fun a _ same => by cases same))
    · intro a flags
      obtain ⟨h, setter, code⟩ := generated.masks inputsCore flags
      exact ⟨h, mem_append_right _ (pre.sets h setter), code⟩
  · have perm := pre.perm
    rw [merged, toList_some, append_assoc _ [copyR], singleton_append] at perm
    exact perm.trans perm_middle

/-- If no parameter moves the data area, then after the pre phase the L and R blocks are unchanged
and the R blocks copied exactly if every R block from which EFLAGS are set had no bits outside
of the mask. Witness: the gadgets of EFLAGS are the only ones that name an L or R block as a
target, in whatever order the list has been sorted.
-/
theorem blocks_installed_iff {earlier : List TestCase} (aggregates : 2 ≤ c.mode)
    (before : c.genTests true .start earlier = some g) (same : ∀ e ∈ earlier, e.inst = t.inst)
    (made : c.genTest earlier.isEmpty g t = some (out, g')) (decoded : t.inst.Decoded)
    (core : ∀ item ∈ t.inst.loads ++ t.inst.stores, item.Core)
    (operand
      : ∀ idx,
          .block idx ∈ t.inst.loads → ∀ a, t.inst.text idx = .abs a → a ∉ out.early.gen.batch.words)
    {cpu : Cpu} {s : St} (apart : (cpu.tr s).Apart startAddr)
    (avoids : cpu.Avoids (cpu.tr s) out.early.gen.batch.words s (out.preCode t.l2))
    (unmoved : cpu.Unmoved (cpu.tr s) out.early.gen.batch.words s (out.preCode t.l2))
    : BlocksInstalled (cpu.tr s) out.early.gen s (cpu.run s (out.preCode t.l2))
      ↔ ∀ a ∈ t.inst.flagBlocks out.early.gen,
          dataWord (cpu.tr s) s a &&& flagMask = dataWord (cpu.tr s) s a := by
  have ready := Config.genTests_ready aggregates decoded Globals.pagingOn_start
    (ready_start t.inst) same before
  rw [Bool.true_and] at ready
  obtain ⟨root, param, inputs, gs, pre⟩ := Config.genTest_pre made
  obtain ⟨sized, allocated, copyR, others, gadgets, perm⟩ :=
    pre.gadgets aggregates decoded ready core operand
  have spread := allocated.spread (Nat.le_add_right _ 4) (by decide) (by decide) apart
  have spares := unmoved.spares avoids
  rw [pre.code] at spares ⊢
  exact gadgets.installed_iff allocated perm spread spares (sized.r.trans sized.rBak.symm)

end

/-- `adc $1,%ebx` -/
def adcEbx : Inst where
  operands := [⟨.reg (some Gpr.ebx.name), 4, .readWrite⟩, ⟨.reg (some .eflags), 4, .readWrite⟩]
  memory _ := ⟨none, 0, 0, none, none, 0, false, false⟩
  xlat := false
  ltr := false
  popCategory := false

theorem nodup_ebx : ([Param.reg (.gpr .ebx) 7].map Param.loc).Nodup := nodup_singleton _

/-- A test case that sets EBX. -/
def adcTest : TestCase where
  inst := adcEbx
  code := [plainShellcode]
  params := [.reg (.gpr .ebx) 7]
  labels := fun _ _ => 0
  sets := fun _ => .insertion
  orders := fun _ => .insertion
  l2 := 2
  distinct := nodup_ebx
  plain := plain_plainShellcode

/-- R blocks from 0x128d018 on; the second one is that of EFLAGS. -/
def adcState (eflags : Word) : St :=
  flatState (fun r => if r = .esp then 0x400000 else 0)
    [(0x128d018, 0x1234), (0x128d024, eflags)]

theorem adcEbx_decoded : adcEbx.Decoded := by
  intro op mem n kind
  have registers : op.kind = .reg (some Gpr.ebx.name) ∨ op.kind = .reg (some .eflags) := by
    simp only [adcEbx, mem_cons, not_mem_nil, or_false] at mem
    rcases mem with rfl | rfl
    · exact Or.inl rfl
    · exact Or.inr rfl
  rw [kind] at registers
  rcases registers with same | same <;> cases same

theorem adcEbx_core : ∀ item ∈ adcEbx.loads ++ adcEbx.stores, item.Core :=
  forall_iff_forall_mem.mp ⟨trivial, trivial, trivial, trivial⟩

theorem flat_apart (s : St) : (flatCpu.tr s).Apart startAddr := by
  intro a b low high low' high' same
  have start : edataAddr ≤ startAddr := by decide
  exact (flat_layout (n := 0) (b := 0x500000) (by decide)).dataApart a b (start.trans low) high
    (start.trans low') high' same

theorem adcTest_emitted {P : Emission → Prop} [DecidablePred P]
    (holds : (((pagedConfig 2).genTest true .start adcTest).any fun e => decide (P e.1)) = true)
    : ∃ out g', (pagedConfig 2).genTest true .start adcTest = some (out, g') ∧ P out := by
  cases made : (pagedConfig 2).genTest true .start adcTest with
  | none =>
    rw [made] at holds
    cases holds
  | some e =>
    rw [made, any_some] at holds
    exact ⟨e.1, e.2, rfl, of_decide_eq_true holds⟩

theorem blocks_installed_iff_adcEbx
    : ∃ out g',
        (pagedConfig 2).genTest true .start adcTest = some (out, g')
        ∧ BlocksInstalled flat out.early.gen (adcState 0x40)
            (flatCpu.run (adcState 0x40) (out.preCode 2)) := by
  obtain ⟨out, g', made, avoids, unmoved, within⟩ := adcTest_emitted
    (P := fun out =>
      flatCpu.Avoids flat out.early.gen.batch.words (adcState 0x40) (out.preCode 2)
      ∧ flatCpu.Unmoved flat out.early.gen.batch.words (adcState 0x40) (out.preCode 2)
      ∧ ∀ a ∈ adcEbx.flagBlocks out.early.gen,
          dataWord flat (adcState 0x40) a &&& flagMask = dataWord flat (adcState 0x40) a)
    (by decide +kernel)
  have before : (pagedConfig 2).genTests true .start [] = some .start := rfl
  have noMemory (idx : Nat) (read : .block idx ∈ adcEbx.loads) (a : Nat)
      (_ : adcEbx.text idx = .abs a)
      : a ∉ out.early.gen.batch.words := by
    have registers : Item.block idx ∈ [.reg Gpr.ebx.name 4, .reg .eflags 4] := read
    simp at registers
  exact ⟨out, g', made, (blocks_installed_iff (Nat.le_refl 2) before (forall_mem_nil _) made
    adcEbx_decoded adcEbx_core noMemory (flat_apart _) avoids unmoved).mpr within⟩

/-- EFLAGS as the processor stores them have bit 1 set, which is lost in the R block and in its
copy.
-/
theorem blocks_damaged_adcEbx
    : ∃ out g',
        (pagedConfig 2).genTest true .start adcTest = some (out, g')
        ∧ flatCpu.Avoids flat out.early.gen.batch.words (adcState 0x202) (out.preCode 2)
        ∧ flatCpu.Unmoved flat out.early.gen.batch.words (adcState 0x202) (out.preCode 2)
        ∧ ¬ BlocksInstalled flat out.early.gen (adcState 0x202)
            (flatCpu.run (adcState 0x202) (out.preCode 2)) := by
  obtain ⟨out, g', made, avoids, unmoved, a, right, changed⟩ := adcTest_emitted
    (P := fun out =>
      flatCpu.Avoids flat out.early.gen.batch.words (adcState 0x202) (out.preCode 2)
      ∧ flatCpu.Unmoved flat out.early.gen.batch.words (adcState 0x202) (out.preCode 2)
      ∧ ∃ a ∈ out.early.gen.feistelR,
          dataWord flat (flatCpu.run (adcState 0x202) (out.preCode 2)) a
            ≠ dataWord flat (adcState 0x202) a)
    (by decide +kernel)
  exact ⟨out, g', made, avoids, unmoved, fun installed => changed (installed.r a right)⟩

end FastPokeEmu.Floppy
