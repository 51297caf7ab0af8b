import FastPokeEmu.Floppy.Copies
import FastPokeEmu.Floppy.PostList
import FastPokeEmu.Library.Feistel

/-! One round of a generated program: the R blocks are copied, the inputs are installed, the
tested code runs, its outputs are recorded and the L blocks are updated.
A round is a Feistel round unless the gadgets that record outputs lose the memory operand
or a register on the way.
-/

namespace FastPokeEmu.Floppy

open ByteMemory List GenState

/-- The word at an address of the data segment. -/
def dataWord (τ : Translation) (s : St) (a : Nat) : Word := read 32 s.mem (τ.data a) 4

theorem Layout.value_word {τ : Translation} {n : Nat} {operand : Fin n → Nat → Word}
    {scratch : Nat} (layout : Layout τ operand scratch) (s : St) {a : Nat} (isData : IsData a)
    : layout.value s (.word a) = dataWord τ s a := by
  rw [Slot.word_eq isData]
  rfl

/-- The general purpose register that an item is. -/
def Item.gpr : Item → Option Gpr
  | .reg (.gpr r) _ => some r.reg
  | _ => none

namespace Inst

variable (inst : Inst)

/-- A bound on the number of blocks of a memory operand. -/
def span : Nat := (inst.operands.map (fun op => (op.len + 3) / 4)).foldr max 1

/-- The memory operand is read or written. -/
def Accesses : Prop := ∃ idx, .block idx ∈ inst.loads ++ inst.stores

/-- The register is an operand, so that it is saved before the test and restored after it. -/
def Restores (r : Gpr) : Prop := ∃ item ∈ inst.loads ++ inst.stores, item.gpr = some r

instance (r : Gpr) : Decidable (inst.Restores r) := inferInstanceAs (Decidable (∃ item ∈ _, _))

/-- The dependencies put the gadget that restores the register before every access to the
memory operand.
-/
structure Anchors (r : Gpr) : Prop where
  restored : inst.Restores r
  notPop : inst.popCategory = false
  single : ∀ idx, .block idx ∈ inst.loads ++ inst.stores → idx = 0
  named : ∃ name ∈ (getMemOp inst 0).2, r.name.same name = true

/-- Instructions whose outputs are 32-bit registers, EFLAGS and memory, as they are decoded
in 32-bit code.
-/
structure InScope : Prop where
  decoded : inst.Decoded
  simple : ∀ item ∈ inst.stores, item.Simple
  sizable : inst.Sizable
  once : inst.FlagsOnce

end Inst

theorem Inst.Restores.operand {inst : Inst} {r : Gpr} (restores : inst.Restores r)
    : ∃ part len, .reg (.gpr ⟨r, part⟩) len ∈ inst.loads ++ inst.stores := by
  obtain ⟨item, mem, same⟩ := restores
  cases item with
  | reg name len =>
    cases name with
    | gpr r' =>
      cases same
      exact ⟨r'.part, len, mem⟩
    | _ => cases same
  | block idx => cases same

theorem Inst.le_span {inst : Inst} {op : Operand} (mem : op ∈ inst.operands)
    : max ((op.len + 3) / 4) 1 ≤ inst.span := by
  have one (xs : List Nat) : 1 ≤ xs.foldr max 1 := by
    induction xs with
    | nil => exact Nat.le_refl 1
    | cons y rest ih => exact ih.trans (le_max_right y _)
  have bound (xs : List Nat) (x : Nat) (inside : x ∈ xs) : x ≤ xs.foldr max 1 := by
    induction xs with
    | nil => cases inside
    | cons y rest ih =>
      rcases mem_cons.mp inside with rfl | later
      · exact le_max_left ..
      · exact (ih later).trans (le_max_right y _)
  exact max_le (bound _ _ (mem_map_of_mem mem)) (one _)

theorem Inst.block_lt_span {inst : Inst} {idx : Nat}
    (mem : .block idx ∈ inst.loads ++ inst.stores)
    : idx < inst.span := by
  obtain ⟨op, inside, _, asks, here⟩ := Inst.asks mem
  have bound := inst.le_span inside
  cases asks with
  | nothing => cases here
  | reg => simp at here
  | blocks few =>
    simp only [mem_map, mem_range, Item.block.injEq] at here
    obtain ⟨_, small, rfl⟩ := here
    omega

/-- Where a program runs. -/
structure Setting where
  cpu : Cpu
  τ : Translation

/-- One round of some test case of an instruction, given by the state in which it starts and
the one that the tested code leaves.
-/
structure Round (inst : Inst) (choices : Choices) (mode : Nat) where
  test : Nat
  root : Root
  st : GenState
  made : generate inst choices mode test = some (root, st)
  order : HashOrder
  post : List Gadget
  sorted : sortGadget order (root.output ++ root.restore) = some post
  copyR : Gadget
  merged : mergeCopyR root.backupR = some copyR
  start : St
  tested : St
  /-- Registers when the inputs were saved. -/
  before : Gpr → Word
  /-- Physical addresses of the bytes of the memory operand's blocks, for this test case. -/
  operand : Nat → Nat → Word

namespace Round

variable {inst : Inst} {choices : Choices} {mode : Nat} (setting : Setting)
  (round : Round inst choices mode)

/-- The state after the R blocks have been copied. -/
def copied : St := setting.cpu.run round.start round.copyR.asm

/-- Code from the end of the tested code to the end of the round. -/
def tailCode : List Asm := round.post.flatMap Gadget.asm ++ round.root.update.flatMap Gadget.asm

/-- The state at the end of the round. -/
def final : St := setting.cpu.run round.tested round.tailCode

/-- The L and R blocks. -/
def blocks (s : St) : Feistel.Blocks (Fin inst.blocks) 32 where
  left i := dataWord setting.τ s (round.st.feistelL.getD i 0)
  right i := dataWord setting.τ s (round.st.feistelR.getD i 0)

/-- An output of the tested code. -/
def output : Recorded → Word
  | .gpr r => round.tested.gpr r
  | .eflags => setting.cpu.pushed round.tested.eflags
  | .block idx => read 32 round.tested.mem (round.operand idx) 4
  | .exception a => dataWord setting.τ round.tested a

/-- Outputs and exception data, and nothing for surplus blocks. -/
def recorded (i : Fin inst.blocks) : Word :=
  match inst.outputs[i.val]? with
  | some what => round.output setting what
  | none => 0

/-- Registers through which the gadgets access memory: those that are operands have been
restored.
-/
def used (r : Gpr) : Word := if inst.Restores r then round.before r else round.tested.gpr r

/-- The words that the round works on do not overlap. -/
abbrev Placed (draw : Nat) : Prop :=
  Layout setting.τ (fun j : Fin inst.span => round.operand j) (choices.scratch draw)

/-- What is assumed of a round: words that do not overlap, no fault and no push into the words,
blocks that survive until the tested code has run, saved registers, and a memory operand that is
where its text says.
-/
structure Regular : Prop where
  layout : ∀ draw, round.Placed setting draw
  safeCopy
    : ∀ draw, setting.cpu.SafeRun (layout draw).words setting.τ round.start round.copyR.asm
  safeTail
    : ∀ draw, setting.cpu.SafeRun (layout draw).words setting.τ round.tested round.tailCode
  installed
    : ∀ a ∈ round.st.feistelL ++ round.st.feistelR ++ round.st.feistelRBak,
        dataWord setting.τ round.tested a = dataWord setting.τ (round.copied setting) a
  saved
    : ∀ g ∈ round.root.backup, ∀ r a,
        g.asm = [.ins (.store ⟨r, .full⟩ (.abs a))]
        → dataWord setting.τ round.tested a = round.before r
  located
    : ∀ idx,
        .block idx ∈ inst.loads ++ inst.stores
        → ∀ i < 4,
            setting.τ (inst.text idx).segment
                ((inst.text idx).offset round.used + BitVec.ofNat 32 i)
              = round.operand idx i

/-- The gadgets that record outputs keep the registers they need, and the assembler reads the
operands as they are meant.
-/
structure Recordable : Prop where
  legible : ∀ idx, .block idx ∈ inst.loads ++ inst.stores → (inst.text idx).Legible
  /-- The temporary for memory operands is not a part of the address. -/
  carrier : inst.Accesses → inst.carrier ∉ inst.addressRegs
  /-- Registers of the address that other gadgets overwrite are restored before. -/
  anchored
    : inst.Accesses
      → ∀ r ∈ inst.addressRegs,
          r = .eax ∨ (inst.Restores r ∧ round.tested.gpr r ≠ round.before r) → inst.Anchors r
  /-- Restoring a system register destroys no register that is still needed. -/
  hidden
    : ∀ name len,
        .reg name len ∈ inst.loads ++ inst.stores
        → ∀ r ∈ name.undeclared,
            (inst.Accesses → r ∉ inst.addressRegs) ∧ .gpr r ∉ inst.outputs

variable {setting round} {draw : Nat}

theorem points_block {gpr : Gpr → Word} (layout : round.Placed setting draw) {idx : Nat}
    (inside : idx < inst.span)
    (located
      : ∀ i < 4,
          setting.τ (inst.text idx).segment ((inst.text idx).offset gpr + BitVec.ofNat 32 i)
            = round.operand idx i)
    : Points layout.words setting.τ gpr (inst.text idx) (.block idx) := by
  intro i small
  rw [located i small, Slot.block, dif_pos inside]
  rfl

theorem value_block (layout : round.Placed setting draw) (s : St) {idx : Nat}
    (inside : idx < inst.span)
    : layout.value s (.block idx) = read 32 s.mem (round.operand idx) 4 := by
  rw [Slot.block, dif_pos inside]
  rfl

theorem Regular.apart (regular : round.Regular setting) : inst.Apart := by
  intro idx accessed a isData same
  have inside := inst.block_lt_span accessed
  have points := points_block (regular.layout 0) inside (regular.located idx accessed)
  rw [same] at points
  have first := (points 0 (by decide)).symm.trans
    ((regular.layout 0).points_data round.used isData 0 (by decide))
  have equal := ((regular.layout 0).words.distinct _ _ 0 0 (by decide) (by decide) first).1
  exact Slot.word_ne_block isData idx equal.symm

section

variable {loads : List Load} {stores : List Store} {outs : List Gadget} {tasks : List Task}

/-- A gadget that records a register belongs to an output. -/
theorem mem_outputs_of_record
    (generated : Generated inst choices round.st round.root loads stores)
    (perm : tasks.Perm (outputTasks inst round.st outs ++ restoreTasks loads stores))
    {t : Task} (mem : t ∈ tasks) {left right : Nat} {what : Recorded}
    (records : t.post = .record left right what)
    : what ∈ inst.outputs := by
  rcases mem_append.mp (perm.mem_iff.mp mem) with here | here
  · obtain ⟨i, _, rfl⟩ := mem_mapIdx.mp here
    simp only [GenState.postAt] at records
    split at records
    next output =>
      cases records
      exact mem_of_getElem? output
    · cases records
  · obtain @⟨_, _, _, _, item⟩ := generated.restoring t here
    cases item <;> simp [Item.restorePost] at records

theorem mem_restores_of_restoreReg
    (perm : tasks.Perm (outputTasks inst round.st outs ++ restoreTasks loads stores))
    {t : Task} (mem : t ∈ tasks) {name : RegName} {bak : Nat}
    (restores : t.post = .restoreReg name bak)
    : t ∈ restoreTasks loads stores := by
  rcases mem_append.mp (perm.mem_iff.mp mem) with here | here
  · obtain ⟨i, _, rfl⟩ := mem_mapIdx.mp here
    simp only [GenState.postAt] at restores
    split at restores <;> cases restores
  · exact here

/-- Registers and memory are accessed as intended after the tested code. -/
theorem Regular.addressed (regular : round.Regular setting)
    (recordable : round.Recordable)
    (generated : Generated inst choices round.st round.root loads stores)
    (sizable : inst.Sizable)
    (perm : tasks.Perm (outputTasks inst round.st outs ++ restoreTasks loads stores))
    (agenda : Agenda inst round.st (choices.scratch draw) (tasks.map Task.pair))
    : Addressed (regular.layout draw) inst (tasks.map Task.pair) round.tested round.before
        round.used := by
  have accesses {q : Post × Gadget} (mem : q ∈ tasks.map Task.pair) {idx : Nat}
      (accessed : idx ∈ q.1.blocks) : .block idx ∈ inst.loads ++ inst.stores :=
    (agenda.emits q mem).block_mem accessed
  have operands {q : Post × Gadget} (mem : q ∈ tasks.map Task.pair) {name : RegName}
      {bak : Nat} (restores : q.1 = .restoreReg name bak)
      : ∃ len, .reg name len ∈ inst.loads ++ inst.stores := by
    have emits := agenda.emits q mem
    rw [restores] at emits
    exact emits.2.1
  have restored {q : Post × Gadget} (mem : q ∈ tasks.map Task.pair) {r : Gpr}
      (restores : q.1.Restores r) : inst.Restores r := by
    obtain ⟨part, bak, shape⟩ := restores
    obtain ⟨len, listed⟩ := operands mem shape
    exact ⟨_, listed, rfl⟩
  exact {
    located := by
      intro q mem idx accessed
      have listed := accesses mem accessed
      have inside := inst.block_lt_span listed
      exact ⟨inside, points_block (regular.layout draw) inside (regular.located idx listed),
        recordable.carrier ⟨idx, listed⟩⟩
    saved := by
      intro q mem r _ part bak shape
      obtain ⟨t, isTask, rfl⟩ := mem_map.mp mem
      have restoring := generated.restoring t (mem_restores_of_restoreReg perm isTask shape)
      obtain ⟨g, isBackup, asm⟩ := restoring.gpr sizable shape
      have emits := agenda.emits _ mem
      rw [shape] at emits
      rw [(regular.layout draw).value_word _ emits.1]
      exact regular.saved g isBackup r bak asm
    settled := by
      intro q mem touches r inside
      obtain ⟨idx, _, shape⟩ := exists_cons_of_ne_nil touches
      have first : idx ∈ q.1.blocks := by simp [shape]
      have listed := accesses mem first
      by_cases disturbed
        : r = .eax ∨ (inst.Restores r ∧ round.tested.gpr r ≠ round.before r)
      · have anchors := recordable.anchored ⟨idx, listed⟩ r inside disturbed
        refine Or.inl ⟨⟨?_, anchors.notPop, ?_, anchors.named⟩, ?_⟩
        · obtain ⟨operand, len, listed⟩ := anchors.restored.operand
          obtain ⟨t, isTask, bak, restores⟩ := generated.restores_gpr sizable listed
          exact ⟨t.pair, mem_map_of_mem (perm.mem_iff.mpr (mem_append_right _ isTask)),
            _, bak, restores⟩
        · exact fun q' mem' idx' accessed => anchors.single idx' (accesses mem' accessed)
        · simp only [used, anchors.restored, if_true]
      · rw [not_or, not_and, not_ne_iff] at disturbed
        refine Or.inr ⟨?_, fun d there touched => ?_⟩
        · simp only [used]
          split
          next isOperand =>
            exact (disturbed.2 isOperand).symm
          · rfl
        · rcases Post.touches_cases touched with
            isEax | ⟨isCarrier, _⟩ | restores | ⟨name, bak, shape, hidden⟩
          · exact absurd isEax disturbed.1
          · exact absurd (isCarrier ▸ inside) (recordable.carrier ⟨idx, listed⟩)
          · exact ⟨restores, (disturbed.2 (restored there restores)).symm⟩
          · obtain ⟨len, isOperand⟩ := operands there shape
            exact absurd inside ((recordable.hidden name len isOperand r hidden).1 ⟨idx, listed⟩)
    undeclared := by
      intro d mem name bak restores r hidden q there
      obtain ⟨len, listed⟩ := operands mem restores
      obtain ⟨outside, notOutput⟩ := recordable.hidden name len listed r hidden
      refine ⟨fun touches => ?_, fun left right records => ?_⟩
      · obtain ⟨idx, _, shape⟩ := exists_cons_of_ne_nil touches
        exact outside ⟨idx, accesses there (by simp [shape])⟩
      · obtain ⟨t, isTask, rfl⟩ := mem_map.mp there
        exact notOutput (mem_outputs_of_record generated perm isTask records) }

end

/-- Words of one column are copied to another one, and a third column is kept. -/
theorem copied_words {layout : round.Placed setting draw} {s s' : St} {c c' kept : Column}
    {high i a b k : Nat} (allocated : Fresh (startAddr + 4) high round.st.batch.words)
    (isData : ∀ p ∈ (round.st.column c).zip (round.st.column c'), IsData p.1 ∧ IsData p.2)
    (copied
      : ∀ p ∈ (round.st.column c).zip (round.st.column c'),
          layout.value s' (.word p.2) = layout.value s (.word p.1))
    (words
      : ∀ slot,
          (∀ p ∈ (round.st.column c).zip (round.st.column c'), slot ≠ .word p.2)
          → layout.value s' slot = layout.value s slot)
    (source : (round.st.column c)[i]? = some a) (target : (round.st.column c')[i]? = some b)
    (other : (round.st.column kept)[i]? = some k) (apart : kept ≠ c')
    : dataWord setting.τ s' b = dataWord setting.τ s a
      ∧ dataWord setting.τ s' k = dataWord setting.τ s k := by
  have pair : (a, b) ∈ (round.st.column c).zip (round.st.column c') :=
    mem_iff_getElem?.mpr ⟨i, List.getElem?_zip_eq_some.mpr ⟨source, target⟩⟩
  have keptData := (column_isData allocated other).1
  have first := copied _ pair
  have second := words (.word k) (by
    intro p mem same
    obtain ⟨j, here⟩ := mem_iff_getElem?.mp mem
    have written := (List.getElem?_zip_eq_some.mp here).2
    rw [← Slot.word_injective keptData (isData p mem).2 same] at written
    exact apart (column_injective allocated other written).1)
  rw [Layout.value_word _ _ (isData _ pair).2, Layout.value_word _ _ (isData _ pair).1] at first
  rw [Layout.value_word _ _ keptData, Layout.value_word _ _ keptData] at second
  exact ⟨first, second⟩

/-- Copying the R blocks changes their backups only. -/
theorem copied_spec (scope : inst.InScope) (regular : round.Regular setting) {i : Nat}
    (small : i < inst.blocks)
    : dataWord setting.τ (round.copied setting) (round.st.feistelRBak.getD i 0)
        = dataWord setting.τ round.start (round.st.feistelR.getD i 0)
      ∧ dataWord setting.τ (round.copied setting) (round.st.feistelL.getD i 0)
        = dataWord setting.τ round.start (round.st.feistelL.getD i 0) := by
  obtain ⟨_, loads, stores, generated⟩ := generate_generated scope.decoded round.made
  have allocated := generated.allocated
  obtain ⟨tb, _, copies, _⟩ := generated.copies
  have merged := round.merged
  rw [copies] at merged
  have sized := generated.sized
  obtain ⟨isData, distinct, apart⟩ := zip_copies allocated .r .rBak
    (by simp) (sized.r.trans sized.rBak.symm)
  obtain ⟨copied, words, _⟩ := run_mergeCopyR merged isData distinct apart (regular.safeCopy 0)
  obtain ⟨left, right, backup⟩ := sized.columns small
  exact copied_words allocated isData copied words right backup left (by simp)

/-- The L blocks get the backups of the R blocks, and the R blocks stay as they are. -/
theorem updated_spec (scope : inst.InScope) {s : St} (layout : round.Placed setting draw)
    (safe : setting.cpu.SafeRun layout.words setting.τ s (round.root.update.flatMap Gadget.asm))
    {i : Nat} (small : i < inst.blocks)
    : dataWord setting.τ (setting.cpu.run s (round.root.update.flatMap Gadget.asm))
          (round.st.feistelL.getD i 0)
        = dataWord setting.τ s (round.st.feistelRBak.getD i 0)
      ∧ dataWord setting.τ (setting.cpu.run s (round.root.update.flatMap Gadget.asm))
          (round.st.feistelR.getD i 0)
        = dataWord setting.τ s (round.st.feistelR.getD i 0) := by
  obtain ⟨_, loads, stores, generated⟩ := generate_generated scope.decoded round.made
  have allocated := generated.allocated
  obtain ⟨tb, _, _, copies⟩ := generated.copies
  have sized := generated.sized
  obtain ⟨isData, distinct, apart⟩ := zip_copies allocated .rBak .l (by simp)
    (sized.rBak.trans sized.l.symm)
  rw [copies, copyBlocks_asm] at safe ⊢
  have all := run_copyCode isData distinct apart safe
  obtain ⟨left, right, backup⟩ := sized.columns small
  exact copied_words allocated isData all.copied all.words backup left right (by simp)

/-- What a gadget is meant to record is the output. -/
theorem value_output (layout : round.Placed setting draw) {what : Recorded}
    (isOutput : what ∈ inst.outputs)
    : what.value layout setting.cpu round.tested = round.output setting what := by
  cases what with
  | gpr r => rfl
  | eflags => rfl
  | block idx =>
    refine value_block layout round.tested (inst.block_lt_span ?_)
    rcases mem_append.mp isOutput with here | here
    · obtain ⟨item, mem, same⟩ := mem_map.mp here
      cases item with
      | reg name len => cases name <;> cases same
      | block idx' =>
        cases same
        exact mem_append_right _ mem
    · simp at here
  | exception a =>
    refine layout.value_word round.tested ?_
    rcases mem_append.mp isOutput with here | here
    · obtain ⟨item, _, same⟩ := mem_map.mp here
      cases item with
      | reg name len => cases name <;> cases same
      | block idx => cases same
    · simp only [mem_cons, Recorded.exception.injEq, not_mem_nil, or_false] at here
      rcases here with rfl | rfl <;> decide

/-- After the tested code every R block gets the L block of its index xored with an output,
and the other blocks are kept.
-/
theorem posted_spec (scope : inst.InScope) (regular : round.Regular setting)
    (recordable : round.Recordable) {i : Nat} (small : i < inst.blocks)
    : dataWord setting.τ
          (setting.cpu.run round.tested (round.post.flatMap Gadget.asm))
          (round.st.feistelR.getD i 0)
        = dataWord setting.τ round.tested (round.st.feistelL.getD i 0)
          ^^^ round.recorded setting ⟨i, small⟩
      ∧ dataWord setting.τ
          (setting.cpu.run round.tested (round.post.flatMap Gadget.asm))
          (round.st.feistelRBak.getD i 0)
        = dataWord setting.τ round.tested (round.st.feistelRBak.getD i 0) := by
  obtain ⟨_, loads, stores, generated⟩ := generate_generated scope.decoded round.made
  have allocated := generated.allocated
  obtain ⟨draw, outs, tasks, count, perm, same, valid, agenda⟩ :=
    generated.agenda scope.simple scope.sizable scope.once round.sorted
  have addressed := regular.addressed recordable generated scope.sizable perm agenda
  have code : (tasks.map Task.pair).flatMap (fun q => q.2.asm) = round.post.flatMap Gadget.asm := by
    rw [← same]
    simp [flatMap_map, Task.pair]
  have safe := (regular.safeTail draw).append_left
  have follows := agenda.all_done regular.apart addressed (code ▸ safe)
  rw [← code, ← foldl_runPair]
  obtain ⟨left, right, backup⟩ := generated.sized.columns small
  have leftData := (column_isData allocated left).1
  have rightData := (column_isData allocated right).1
  have backupData := (column_isData allocated backup).1
  constructor
  · have inside : i < outs.length := count ▸ small
    have mem : (round.st.postAt inst i, outs[i]) ∈ tasks.map Task.pair := by
      refine mem_map.mpr ⟨⟨.r, i, round.st.postAt inst i, outs[i]⟩, perm.mem_iff.mpr
        (mem_append_left _ (mem_mapIdx.mpr ⟨i, inside, rfl⟩)), rfl⟩
    rw [← Layout.value_word (regular.layout draw) _ rightData,
      ← Layout.value_word (regular.layout draw) _ leftData]
    simp only [GenState.postAt] at mem
    simp only [recorded]
    cases output : inst.outputs[i]? with
    | some what =>
      simp only [output] at mem
      rw [agenda.recorded regular.apart addressed follows mem,
        value_output (regular.layout draw) (mem_of_getElem? output)]
    | none =>
      simp only [output] at mem
      rw [agenda.copied follows mem]
      simp
  · rw [← Layout.value_word (regular.layout draw) _ backupData,
      ← Layout.value_word (regular.layout draw) _ backupData]
    refine agenda.unwritten follows backupData (fun q mem written => ?_)
    obtain ⟨t, isTask, rfl⟩ := mem_map.mp mem
    exact (valid t isTask).notBackup
      (column_injective allocated ((valid t isTask).written _ written) backup).1

/-- A round is a Feistel round that records the outputs. -/
theorem blocks_final (scope : inst.InScope) (regular : round.Regular setting)
    (recordable : round.Recordable)
    : round.blocks setting (round.final setting)
      = Feistel.round (round.recorded setting) (round.blocks setting round.start) := by
  have final : round.final setting
      = setting.cpu.run (setting.cpu.run round.tested (round.post.flatMap Gadget.asm))
          (round.root.update.flatMap Gadget.asm) :=
    setting.cpu.run_append ..
  have kept {a : Nat} (c : Column) (listed : c = .l ∨ c = .r ∨ c = .rBak) {i : Nat}
      (here : (round.st.column c)[i]? = some a)
      : dataWord setting.τ round.tested a = dataWord setting.τ (round.copied setting) a := by
    have mem := mem_of_getElem? here
    refine regular.installed a ?_
    rcases listed with rfl | rfl | rfl <;> simp [GenState.column] at mem <;> simp [mem]
  obtain ⟨_, loads, stores, generated⟩ := generate_generated scope.decoded round.made
  have safe := (regular.safeTail 0).append_right
  refine Feistel.Blocks.ext (funext fun i => ?_) (funext fun i => ?_)
  · obtain ⟨_, _, backup⟩ := generated.sized.columns i.isLt
    obtain ⟨updated, _⟩ := updated_spec scope (regular.layout 0) safe i.isLt
    obtain ⟨_, posted⟩ := posted_spec scope regular recordable i.isLt
    obtain ⟨copied, _⟩ := copied_spec scope regular i.isLt
    calc dataWord setting.τ (round.final setting) (round.st.feistelL.getD i 0)
        = dataWord setting.τ round.tested (round.st.feistelRBak.getD i 0) := by
          rw [final, updated, posted]
      _ = dataWord setting.τ round.start (round.st.feistelR.getD i 0) := by
          rw [kept .rBak (by simp) backup, copied]
  · obtain ⟨left, _, _⟩ := generated.sized.columns i.isLt
    obtain ⟨_, updated⟩ := updated_spec scope (regular.layout 0) safe i.isLt
    obtain ⟨posted, _⟩ := posted_spec scope regular recordable i.isLt
    obtain ⟨_, copied⟩ := copied_spec scope regular i.isLt
    calc dataWord setting.τ (round.final setting) (round.st.feistelR.getD i 0)
        = dataWord setting.τ round.tested (round.st.feistelL.getD i 0)
            ^^^ round.recorded setting i := by rw [final, updated, posted]
      _ = dataWord setting.τ round.start (round.st.feistelL.getD i 0)
            ^^^ round.recorded setting i := by rw [kept .l (by simp) left, copied]

end Round

end FastPokeEmu.Floppy
