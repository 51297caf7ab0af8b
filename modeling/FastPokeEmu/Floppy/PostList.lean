import Mathlib.Data.List.Perm.Basic
import FastPokeEmu.Floppy.Outputs

/-! The list that follows the tested instruction, as it is generated and sorted: every R
block is written by exactly one gadget, and no gadget changes a word that another one reads.
-/

namespace FastPokeEmu.Floppy

open List

/-- A gadget of the list, with the place of the word it writes or restores from. -/
structure Task where
  column : Column
  index : Nat
  post : Post
  gadget : Gadget

namespace Task

def pair (t : Task) : Post × Gadget := (t.post, t.gadget)

def home (t : Task) : Column × Nat := (t.column, t.index)

structure Valid (inst : Inst) (fin : GenState) (scratch : Nat) (t : Task) : Prop where
  emits : t.post.Emits inst fin scratch t.gadget
  written : ∀ a ∈ t.post.written, (fin.column t.column)[t.index]? = some a
  sources
    : ∀ a ∈ t.post.sources,
        (∃ i : Nat, (fin.column .l)[i]? = some a)
        ∨ a < startAddr + 4
        ∨ ((fin.column t.column)[t.index]? = some a ∧ t.post.written = [])
  notLeft : t.column ≠ .l
  notBackup : t.column ≠ .rBak

theorem exists_sorted {tasks : List Task} {sorted : List Gadget}
    (perm : sorted.Perm (tasks.map gadget))
    : ∃ tasks' : List Task, tasks'.Perm tasks ∧ tasks'.map gadget = sorted := by
  have lifted := congrFun (congrFun (eq_map_comp_perm gadget) sorted) tasks
  obtain ⟨tasks', same, perm'⟩ := lifted.mpr perm
  exact ⟨tasks', perm', same.symm⟩

/-- Tasks with places of their own form an agenda when they are sorted. -/
theorem agenda {inst : Inst} {fin : GenState} {scratch high : Nat} {tasks : List Task}
    (allocated : Fresh (startAddr + 4) high fin.batch.words)
    (valid : ∀ t ∈ tasks, t.Valid inst fin scratch) (homes : (tasks.map home).Nodup)
    (flags
      : ∀ t ∈ tasks, ∀ t' ∈ tasks,
          t.post.recordsFlags = true → t'.post.recordsFlags = true → t.home = t'.home)
    (sorted : (tasks.map gadget).Pairwise (fun a b => a.depend b = false))
    : Agenda inst fin scratch (tasks.map pair) := by
  have distinct : tasks.Pairwise (fun t t' => t.home ≠ t'.home) := pairwise_map.mp homes
  have among {R : Task → Task → Prop}
      (each : ∀ t ∈ tasks, ∀ t' ∈ tasks, t.home ≠ t'.home → R t t')
      : tasks.Pairwise R :=
    List.Pairwise.imp_of_mem (fun here there => each _ here _ there) distinct
  exact {
    emits := by
      intro q mem
      obtain ⟨t, here, rfl⟩ := mem_map.mp mem
      exact (valid t here).emits
    sorted := pairwise_map.mpr (pairwise_map.mp sorted)
    written := by
      refine pairwise_map.mpr (among ?_)
      intro t here t' there ne a written written'
      obtain ⟨column, index⟩ := GenState.column_injective allocated
        ((valid t here).written a written) ((valid t' there).written a written')
      exact ne (by simp [home, column, index])
    sources := by
      intro q mem a written q' mem' source
      obtain ⟨t, here, rfl⟩ := mem_map.mp mem
      obtain ⟨t', there, rfl⟩ := mem_map.mp mem'
      have place := (valid t here).written a written
      rcases (valid t' there).sources a source with ⟨i, left⟩ | low | ⟨place', unwritten⟩
      · exact (valid t here).notLeft (GenState.column_injective allocated place left).1
      · have := (GenState.column_isData allocated place).2
        omega
      · obtain ⟨column, index⟩ := GenState.column_injective allocated place place'
        have same := inj_on_of_nodup_map homes here there (by simp [home, column, index])
        subst same
        rw [show t.pair.1.written = [] from unwritten] at written
        cases written
    flags := by
      refine pairwise_map.mpr (among ?_)
      rintro t here t' there ne ⟨records, records'⟩
      exact ne (flags t here t' there records records') }

end Task

section

variable {inst : Inst} {choices : Choices} {fin : GenState} {root : Root} {loads : List Load}
  {stores : List Store} {scratch : Nat} {r : GReg} {t : Task} {backup restore : List Gadget}

/-- A restored word is read, or written by the gadget itself. -/
theorem Item.restorePost_valid {item : Item} {bak index : Nat} {c : Column} {g : Gadget}
    (emits : (item.restorePost bak).Emits inst fin scratch g)
    (place : (fin.column c)[index]? = some bak) (notLeft : c ≠ .l) (notBackup : c ≠ .rBak)
    : Task.Valid inst fin scratch ⟨c, index, item.restorePost bak, g⟩ where
  emits := emits
  written := by
    intro a mem
    cases item with
    | reg name len =>
      cases name with
      | eflags => rw [mem_singleton.mp mem]; exact place
      | _ => cases mem
    | block idx => cases mem
  sources := by
    intro a mem
    right; right
    cases item with
    | reg name len =>
      cases name with
      | eflags => cases mem
      | _ => rw [mem_singleton.mp mem]; exact ⟨place, rfl⟩
    | block idx => rw [mem_singleton.mp mem]; exact ⟨place, rfl⟩
  notLeft := notLeft
  notBackup := notBackup

def outputTasks (inst : Inst) (fin : GenState) (outs : List Gadget) : List Task :=
  outs.mapIdx (fun i g => ⟨.r, i, fin.postAt inst i, g⟩)

def Load.tasks (load : Load) : List Task :=
  load.emitted.restore.map (fun g =>
    ⟨.ins, load.index, load.item.restorePost load.bak, g⟩)

def Store.tasks (store : Store) : List Task :=
  store.emitted.restore.map (fun g =>
    ⟨.outs, store.index, store.item.restorePost store.bak, g⟩)

/-- The gadgets that restore operands. -/
def restoreTasks (loads : List Load) (stores : List Store) : List Task :=
  loads.flatMap Load.tasks ++ stores.flatMap Store.tasks

/-- A gadget that restores an operand that has been saved. -/
inductive Restoring (inst : Inst) (fin : GenState) (root : Root) : Task → Prop
  | intro {tb : Tables} {bak index : Nat} {fresh : Bool} {item : Item} {c : Column}
      {backup restore : List Gadget} {g : Gadget}
      (saves : Saves inst tb bak fresh item backup restore) (member : g ∈ restore)
      (place : (fin.column c)[index]? = some bak) (column : c = .ins ∨ c = .outs)
      (listed : item ∈ inst.loads ++ inst.stores) (fits : tb.Fits inst fin)
      (declared : ∀ idx, item = .block idx → tb.inToReg.mems ≠ [] ∨ tb.outToReg.mems ≠ [])
      (backed : backup ⊆ root.backup)
    : Restoring inst fin root ⟨c, index, item.restorePost bak, g⟩

theorem outputTasks_homes (outs : List Gadget)
    : (outputTasks inst fin outs).map Task.home
      = (List.range outs.length).map (fun i => (.r, i)) := by
  refine ext_getElem? fun i => ?_
  by_cases inside : i < outs.length
  · simp [outputTasks, Task.home, inside]
  · simp [outputTasks, inside]

theorem outputTasks_gadgets (outs : List Gadget)
    : (outputTasks inst fin outs).map Task.gadget = outs := by
  refine ext_getElem? fun i => ?_
  by_cases inside : i < outs.length
  · simp [outputTasks, inside]
  · simp [outputTasks, inside]

theorem indexed_distinct {items : List Item} (pos : ∀ item ∈ items, 0 < item.width)
    : ((indexed 0 items).map Prod.fst).Nodup := by
  refine pairwise_map.mpr (List.Pairwise.imp_of_mem ?_ (indexed_pairwise 0 items))
  intro a b here _ before
  have mem : a.2 ∈ items := by
    rw [← indexed_map_snd 0 items]
    exact mem_map_of_mem here
  have := pos a.2 mem
  omega

/-- At most one gadget for each place. -/
theorem homes_nodup {α : Type} {xs : List α} (c : Column) (index : α → Nat)
    (restore : α → List Gadget) (post : α → Post) (indices : (xs.map index).Nodup)
    (single : ∀ x ∈ xs, (restore x).length ≤ 1)
    : ((xs.flatMap fun x => (restore x).map fun g =>
        (⟨c, index x, post x, g⟩ : Task)).map Task.home).Nodup := by
  rw [map_flatMap]
  refine pairwise_flatMap.mpr ⟨?_, ?_⟩
  · intro x mem
    have few := single x mem
    match restore x, few with
    | [], _ => exact .nil
    | [g], _ => exact pairwise_singleton _ _
  · refine (pairwise_map.mp indices).imp ?_
    intro x y ne a here b there same
    simp only [mem_map, Task.home] at here there
    obtain ⟨t, ⟨g, _, rfl⟩, rfl⟩ := here
    obtain ⟨t', ⟨g', _, rfl⟩, rfl⟩ := there
    simp only [Prod.mk.injEq] at same
    exact ne same.2

theorem Saves.gpr {tb : Tables} {bak len : Nat} (whole : r.Sizable)
    (saves : Saves inst tb bak true (.reg (.gpr r) len) backup restore)
    : ∃ g ∈ restore, ∃ saved ∈ backup,
        saved.asm = [.ins (.store ⟨r.reg, .full⟩ (.abs bak))] := by
  cases saves with
  | reg named backed =>
    obtain ⟨⟨saved, rfl, asm⟩, rfl⟩ := registerBackup_gpr whole named backed
    exact ⟨_, mem_singleton_self _, saved, mem_singleton_self _, asm⟩

/-- Only saved registers are restored. -/
theorem Saves.gpr_of_restore {tb : Tables} {bak : Nat} {fresh : Bool} {item : Item} {g : Gadget}
    (saves : Saves inst tb bak fresh item backup restore) (mem : g ∈ restore) {bak' : Nat}
    (restores : item.restorePost bak = .restoreReg (.gpr r) bak')
    (whole : ∀ len, item = .reg (.gpr r) len → r.Sizable)
    : ∃ saved ∈ backup, saved.asm = [.ins (.store ⟨r.reg, .full⟩ (.abs bak'))] := by
  cases item with
  | block idx => cases restores
  | reg name len =>
    cases restores
    cases fresh with
    | false =>
      cases saves
      cases mem
    | true =>
      obtain ⟨_, _, saved⟩ := saves.gpr (whole len rfl)
      exact saved

/-- EFLAGS are at most once among the outputs. -/
def Inst.FlagsOnce (inst : Inst) : Prop :=
  ∀ i j : Nat,
    inst.outputs[i]? = some .eflags → inst.outputs[j]? = some .eflags → i = j

theorem Load.mem_loads (generated : Generated inst choices fin root loads stores)
    {load : Load} (mem : load ∈ loads)
    : load.item ∈ inst.loads := by
  rw [← indexed_map_snd 0 inst.loads, ← generated.loadIndices, map_map]
  exact mem_map_of_mem (f := Load.item) mem

theorem Store.mem_stores (generated : Generated inst choices fin root loads stores)
    {store : Store} (mem : store ∈ stores)
    : store.item ∈ inst.stores := by
  rw [← indexed_map_snd 0 inst.stores, ← generated.storeIndices, map_map]
  exact mem_map_of_mem (f := Store.item) mem

theorem Restoring.recordsFlags (restoring : Restoring inst fin root t)
    : t.post.recordsFlags = false := by
  obtain @⟨_, _, _, _, item⟩ := restoring
  cases item <;> simp [Item.restorePost, Post.recordsFlags]

theorem Restoring.valid (restoring : Restoring inst fin root t) (sizable : inst.Sizable)
    {high : Nat} (allocated : Fresh (startAddr + 4) high fin.batch.words)
    : t.Valid inst fin scratch := by
  obtain ⟨saves, mem, place, column, listed, fits, declared, _⟩ := restoring
  refine Item.restorePost_valid (saves.emits_restore
    (GenState.column_isData allocated place).1 listed ?_ fits declared _ mem) place ?_ ?_
  · rintro r len rfl
    exact sizable r len listed
  all_goals rcases column with rfl | rfl <;> simp

theorem Restoring.gpr (restoring : Restoring inst fin root t) (sizable : inst.Sizable) {bak : Nat}
    (restores : t.post = .restoreReg (.gpr r) bak)
    : ∃ g ∈ root.backup, g.asm = [.ins (.store ⟨r.reg, .full⟩ (.abs bak))] := by
  obtain ⟨saves, mem, _, _, listed, _, _, backed⟩ := restoring
  obtain ⟨saved, backs, asm⟩ := saves.gpr_of_restore mem restores
    (fun len item => sizable r len (item ▸ listed))
  exact ⟨saved, backed backs, asm⟩

namespace Generated

section

variable (generated : Generated inst choices fin root loads stores)

include generated

theorem restoring : ∀ t ∈ restoreTasks loads stores, Restoring inst fin root t := by
  intro t mem
  have backed := generated.backup
  rcases mem_append.mp mem with here | here
  · obtain ⟨load, inside, there⟩ := mem_flatMap.mp here
    obtain ⟨g, isRestore, rfl⟩ := mem_map.mp there
    have valid := generated.loadValid load inside
    refine .intro valid.saves isRestore valid.bak (.inl rfl)
      (mem_append_left _ (Load.mem_loads generated inside)) valid.fits (fun idx block => ?_)
      (fun g saved => backed ▸ mem_append_left _ (mem_flatMap_of_mem inside saved))
    have declared := valid.declared
    rw [block] at declared
    exact .inl declared
  · obtain ⟨store, inside, there⟩ := mem_flatMap.mp here
    obtain ⟨g, isRestore, rfl⟩ := mem_map.mp there
    have valid := generated.storeValid store inside
    refine .intro valid.saves isRestore valid.bak (.inr rfl)
      (mem_append_right _ (Store.mem_stores generated inside)) valid.fits
      (fun idx block => ?_)
      (fun g saved => backed ▸ mem_append_right _ (mem_flatMap_of_mem inside saved))
    have declared := valid.declared
    rw [block] at declared
    exact .inr declared.1

/-- Restoring gadgets have places of their own. -/
theorem restore_homes : ((restoreTasks loads stores).map Task.home).Nodup := by
  have loadIndices : (loads.map Load.index).Nodup := by
    have distinct := indexed_distinct (fun _ here => inst.width_pos (mem_append_left _ here))
    rwa [← generated.loadIndices, map_map] at distinct
  have storeIndices : (stores.map Store.index).Nodup := by
    have distinct := indexed_distinct (fun _ here => inst.width_pos (mem_append_right _ here))
    rwa [← generated.storeIndices, map_map] at distinct
  rw [restoreTasks, map_append]
  refine nodup_append.mpr ⟨?_, ?_, ?_⟩
  · exact homes_nodup .ins Load.index (fun load => load.emitted.restore)
      (fun load => load.item.restorePost load.bak) loadIndices
      (fun load inside => (generated.loadValid load inside).saves.restore_single)
  · exact homes_nodup .outs Store.index (fun store => store.emitted.restore)
      (fun store => store.item.restorePost store.bak) storeIndices
      (fun store inside => (generated.storeValid store inside).saves.restore_single)
  · intro a here b there same
    obtain ⟨t, inside, rfl⟩ := mem_map.mp here
    obtain ⟨t', inside', rfl⟩ := mem_map.mp there
    obtain ⟨load, _, isTask⟩ := mem_flatMap.mp inside
    obtain ⟨store, _, isTask'⟩ := mem_flatMap.mp inside'
    obtain ⟨g, _, rfl⟩ := mem_map.mp isTask
    obtain ⟨g', _, rfl⟩ := mem_map.mp isTask'
    simp [Task.home] at same

/-- Every general purpose register among the operands is restored. -/
theorem restores_gpr (sizable : inst.Sizable) {len : Nat}
    (operand : .reg (.gpr r) len ∈ inst.loads ++ inst.stores)
    : ∃ t ∈ restoreTasks loads stores, ∃ bak, t.post = .restoreReg (.gpr r) bak := by
  have whole : r.Sizable := sizable r len operand
  have fromLoad {load : Load} (mem : load ∈ loads) (fresh : load.fresh = true)
      (key : inst.key load.item = .reg (.gpr r))
      : ∃ t ∈ restoreTasks loads stores, ∃ bak, t.post = .restoreReg (.gpr r) bak := by
    have saves := (generated.loadValid load mem).saves
    cases item : load.item with
    | block idx => rw [item] at key; cases key
    | reg name len =>
      rw [item] at key
      cases key
      obtain ⟨g, restores, _⟩ := (item ▸ fresh ▸ saves).gpr whole
      refine ⟨_, mem_append_left _ (mem_flatMap.mpr ⟨load, mem,
        mem_map.mpr ⟨g, restores, rfl⟩⟩), load.bak, ?_⟩
      simp only [item, Item.restorePost]
  rcases mem_append.mp operand with isLoad | isStore
  · have listed : .reg (.gpr r) len ∈ loads.map Load.item := by
      rw [← indexed_map_snd 0 inst.loads, ← generated.loadIndices, map_map] at isLoad
      exact isLoad
    obtain ⟨load, mem, item⟩ := mem_map.mp listed
    obtain ⟨first, inside, fresh, key⟩ := generated.loadFresh load mem
    exact fromLoad inside fresh (key.trans (by rw [item]; rfl))
  · have listed : .reg (.gpr r) len ∈ stores.map Store.item := by
      rw [← indexed_map_snd 0 inst.stores, ← generated.storeIndices, map_map] at isStore
      exact isStore
    obtain ⟨store, mem, item⟩ := mem_map.mp listed
    rcases generated.storeFresh store mem _ _ item with fresh | ⟨load, inside, fresh, key⟩
    · have saves := (generated.storeValid store mem).saves
      rw [item, fresh] at saves
      obtain ⟨g, restores, _⟩ := saves.gpr whole
      refine ⟨_, mem_append_right _ (mem_flatMap.mpr ⟨store, mem,
        mem_map.mpr ⟨g, restores, rfl⟩⟩), store.bak, ?_⟩
      simp only [item, Item.restorePost]
    · exact fromLoad inside fresh key

theorem restore_gadgets : (restoreTasks loads stores).map Task.gadget = root.restore := by
  rw [generated.restore]
  simp [restoreTasks, map_flatMap, Load.tasks, Store.tasks, Function.comp_def]

end

theorem outputs_exception {i a : Nat} (output : inst.outputs[i]? = some (.exception a))
    : a < startAddr + 4 := by
  have mem := mem_of_getElem? output
  rcases mem_append.mp mem with here | here
  · obtain ⟨item, _, same⟩ := mem_map.mp here
    cases item with
    | reg name len => cases name <;> cases same
    | block idx => cases same
  · simp only [mem_cons, Recorded.exception.injEq, not_mem_nil, or_false] at here
    have : edataAddr + 4 < startAddr + 4 := by decide
    omega

section

variable (generated : Generated inst choices fin root loads stores)

include generated

/-- Recording gadgets do what they are meant for. -/
theorem output_valid {outs : List Gadget} (count : outs.length = inst.blocks)
    (emits : ∀ i g, outs[i]? = some g → (fin.postAt inst i).Emits inst fin scratch g)
    : ∀ t ∈ outputTasks inst fin outs, t.Valid inst fin scratch := by
  intro t mem
  obtain ⟨i, inside, rfl⟩ := mem_mapIdx.mp mem
  obtain ⟨left, right, _⟩ := generated.sized.columns (count ▸ inside)
  refine ⟨emits i _ (List.getElem?_eq_getElem inside), ?_, ?_, by simp, by simp⟩
  · intro a written
    simp only [GenState.postAt] at written
    split at written <;> rw [mem_singleton.mp written] <;> exact right
  · intro a source
    simp only [GenState.postAt] at source
    split at source
    next what output =>
      cases what with
      | exception b =>
        simp only [Post.sources, mem_cons, not_mem_nil, or_false] at source
        rcases source with rfl | rfl
        · exact Or.inl ⟨i, left⟩
        · exact Or.inr (Or.inl (outputs_exception output))
      | _ =>
        rw [mem_singleton.mp source]
        exact Or.inl ⟨i, left⟩
    · rw [mem_singleton.mp source]
      exact Or.inl ⟨i, left⟩

/-- Only output gadgets record EFLAGS. -/
theorem output_of_recordsFlags {outs : List Gadget}
    (mem : t ∈ outputTasks inst fin outs ++ restoreTasks loads stores)
    (records : t.post.recordsFlags = true)
    : t.column = .r ∧ inst.outputs[t.index]? = some .eflags := by
  rcases mem_append.mp mem with here | here
  · obtain ⟨i, inside, rfl⟩ := mem_mapIdx.mp here
    simp only [GenState.postAt] at records
    split at records
    next what output =>
      cases what with
      | eflags => exact ⟨rfl, output⟩
      | _ => cases records
    · cases records
  · rw [(generated.restoring t here).recordsFlags] at records
    cases records

/-- All gadgets that record EFLAGS use one scratch word. -/
theorem scratch_once (simple : ∀ item ∈ inst.stores, item.Simple) (once : inst.FlagsOnce)
    : ∃ draw, ∀ store ∈ stores,
        store.item.recorded = .eflags → store.scratch = choices.scratch draw := by
  by_cases some : ∃ store ∈ stores, store.item.recorded = .eflags
  · obtain ⟨store, mem, isFlags⟩ := some
    obtain ⟨draw, scratch⟩ := (generated.storeValid store mem).scratch
    refine ⟨draw, fun store' mem' isFlags' => ?_⟩
    obtain ⟨i, here⟩ := mem_iff_getElem?.mp mem
    obtain ⟨j, there⟩ := mem_iff_getElem?.mp mem'
    have output := (generated.output_of_store simple here).2.2
    have output' := (generated.output_of_store simple there).2.2
    rw [isFlags] at output
    rw [isFlags'] at output'
    rw [once i j output output', there] at here
    rw [Option.some.inj here, scratch]
  · exact ⟨0, fun store mem isFlags => absurd ⟨store, mem, isFlags⟩ some⟩

/-- The sorted list after the tested instruction is an agenda that has a gadget for every R
block.
-/
theorem agenda (simple : ∀ item ∈ inst.stores, item.Simple) (sizable : inst.Sizable)
    (once : inst.FlagsOnce) {order : HashOrder} {post : List Gadget}
    (sort : sortGadget order (root.output ++ root.restore) = some post)
    : ∃ (draw : Nat) (outs : List Gadget) (tasks : List Task),
        outs.length = inst.blocks
        ∧ tasks.Perm (outputTasks inst fin outs ++ restoreTasks loads stores)
        ∧ tasks.map Task.gadget = post
        ∧ (∀ t ∈ tasks, t.Valid inst fin (choices.scratch draw))
        ∧ Agenda inst fin (choices.scratch draw) (tasks.map Task.pair) := by
  obtain ⟨draw, scratches⟩ := generated.scratch_once simple once
  obtain ⟨outs, permOuts, count, emits⟩ := generated.emits_outputs simple scratches
  obtain ⟨perm, sorted⟩ := sortGadget_spec sort
  have gadgets : (outputTasks inst fin outs ++ restoreTasks loads stores).map Task.gadget
      = outs ++ root.restore := by
    rw [map_append, outputTasks_gadgets, generated.restore_gadgets]
  obtain ⟨tasks, permTasks, same⟩ := Task.exists_sorted
    (perm.trans ((permOuts.append_right _).trans (.of_eq gadgets.symm)))
  have valid (t : Task) (mem : t ∈ tasks) : t.Valid inst fin (choices.scratch draw) := by
    rcases mem_append.mp (permTasks.mem_iff.mp mem) with here | here
    · exact generated.output_valid count emits t here
    · exact (generated.restoring t here).valid sizable generated.allocated
  refine ⟨draw, outs, tasks, count, permTasks, same, valid, ?_⟩
  refine Task.agenda generated.allocated valid ?_ ?_ (same ▸ sorted)
  · refine (permTasks.map Task.home).nodup_iff.mpr ?_
    rw [map_append, outputTasks_homes]
    refine nodup_append.mpr ⟨?_, generated.restore_homes, ?_⟩
    · exact nodup_range.map (fun i j same => (Prod.mk.inj same).2)
    · intro a here b there same'
      obtain ⟨i, _, rfl⟩ := mem_map.mp here
      obtain ⟨t, inside, rfl⟩ := mem_map.mp there
      obtain ⟨_, _, _, column, _, _, _, _⟩ := generated.restoring t inside
      rcases column with rfl | rfl <;> simp [Task.home] at same'
  · intro t here t' there records records'
    obtain ⟨column, output⟩ := generated.output_of_recordsFlags (permTasks.mem_iff.mp here) records
    obtain ⟨column', output'⟩ :=
      generated.output_of_recordsFlags (permTasks.mem_iff.mp there) records'
    simp [Task.home, column, column', once _ _ output output']

end

end Generated

end

end FastPokeEmu.Floppy
