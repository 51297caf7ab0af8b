import FastPokeEmu.CpuState.States

/-! The states that are compared, as functions of the dumps.
-/

namespace FastPokeEmu.CpuState

open List Folds

variable {data data' : List UInt8} {emulators : List Nat}
  {chunk : List UInt8 → Nat → Option (List UInt8)}

/-- The memory of a dump after all loops of the normalisation. -/
def normMem (emulators : List Nat) (kernel : Option Kernel) (memSize : Nat) (data : List UInt8)
    : Option (List UInt8) :=
  ((ignoreAccessed emulators kernel memSize data).bind
    (ignoreEflags "tssEXCP05" kernel memSize)).bind (ignoreEflags "tssEXCP32" kernel memSize)

theorem rewriteSymbol_length {step memSize : Nat} {s : Symbol}
    (res : rewriteSymbol step chunk memSize s data = some data')
    : data'.length = memSize := by
  unfold rewriteSymbol at res
  obtain ⟨parts, _, final⟩ := Option.bind_eq_some_iff.mp res
  simp only [Option.ite_none_right_eq_some, Option.some.injEq] at final
  obtain ⟨size, rfl⟩ := final
  exact size

theorem normMem_length {kernel : Option Kernel} {memSize : Nat}
    (res : normMem emulators kernel memSize data = some data')
    : data'.length = memSize := by
  obtain ⟨_, _, last⟩ := Option.bind_eq_some_iff.mp res
  unfold ignoreEflags at last
  obtain ⟨getSymbol, _, later⟩ := Option.bind_eq_some_iff.mp last
  obtain ⟨tss, _, final⟩ := Option.bind_eq_some_iff.mp later
  exact rewriteSymbol_length final

section

variable {kernel : Option Kernel} {w : World} {dumps : List Loaded}

theorem mapMem_bind (f g : Nat → List UInt8 → Option (List UInt8)) (d : Loaded)
    : (d.mapMem f).bind (Loaded.mapMem g)
      = d.mapMem (fun memSize data => (f memSize data).bind (g memSize)) := by
  simp only [Loaded.mapMem, Option.bind_eq_bind]
  cases f d.hdr.memSize d.mem with
  | none => rfl
  | some data => rfl

theorem touch_congr {f : Nat → Cpu → Cpu} {heap : Ref → Cpu} {g} {dumps' : List Loaded}
    (res : dumps.mapM (Loaded.mapMem g) = some dumps')
    : touch f dumps' heap = touch f dumps heap := by
  have related := forall₂_of_mapM res
  clear res
  unfold touch
  induction related generalizing heap with
  | nil => rfl
  | @cons d d' _ _ changed _ ih =>
    obtain ⟨mem, _, same⟩ := Option.bind_eq_some_iff.mp changed
    cases same
    exact ih

theorem normalizeStates_eq
    : normalizeStates kernel w
      = (w.dumps.mapM (Loaded.mapMem (normMem (w.dumps.map (·.hdr.emulator)) kernel))).map
          (fun dumps => { heap := finalHeap w.dumps w.heap, dumps }) := by
  have loops : w.dumps.mapM (Loaded.mapMem (normMem (w.dumps.map (·.hdr.emulator)) kernel))
      = ((w.dumps.mapM
            (Loaded.mapMem (ignoreAccessed (w.dumps.map (·.hdr.emulator)) kernel))).bind
          (List.mapM (Loaded.mapMem (ignoreEflags "tssEXCP05" kernel)))).bind
          (List.mapM (Loaded.mapMem (ignoreEflags "tssEXCP32" kernel))) := by
    rw [mapM_bind_mapM, mapM_bind_mapM]
    refine mapM_congr (fun d _ => ?_)
    rw [mapMem_bind, mapMem_bind]
    rfl
  rw [loops]
  unfold normalizeStates
  simp only [Option.bind_eq_bind]
  cases first : w.dumps.mapM
      (Loaded.mapMem (ignoreAccessed (w.dumps.map (·.hdr.emulator)) kernel)) with
  | none => rfl
  | some dumps₁ =>
    simp only [Option.bind_some]
    cases second : dumps₁.mapM (Loaded.mapMem (ignoreEflags "tssEXCP05" kernel)) with
    | none => rfl
    | some dumps₂ =>
      simp only [Option.bind_some]
      cases third : dumps₂.mapM (Loaded.mapMem (ignoreEflags "tssEXCP32" kernel)) with
      | none => rfl
      | some dumps₃ =>
        simp only [Option.bind_some, Option.map_some, finalHeap, touch_congr third,
          touch_congr second, touch_congr first]

/-- States of dumps that have as many CPUs as their headers say. -/
theorem parsed_eq (counts : ∀ d ∈ w.dumps, d.cpus.length = d.hdr.cpusno)
    : (normalizeStates kernel w).bind (fun w => w.dumps.mapM (parseState w.heap))
      = w.dumps.mapM (fun d =>
          (normMem (w.dumps.map (·.hdr.emulator)) kernel d.hdr.memSize d.mem).map
            (dictOf d.hdr (d.cpus.map (finalHeap w.dumps w.heap)))) := by
  have joined : (normalizeStates kernel w).bind (fun w => w.dumps.mapM (parseState w.heap))
      = (w.dumps.mapM (Loaded.mapMem (normMem (w.dumps.map (·.hdr.emulator)) kernel))).bind
          (List.mapM (parseState (finalHeap w.dumps w.heap))) := by
    rw [normalizeStates_eq]
    cases w.dumps.mapM (Loaded.mapMem (normMem (w.dumps.map (·.hdr.emulator)) kernel)) with
    | none => rfl
    | some dumps => rfl
  rw [joined, mapM_bind_mapM]
  refine mapM_congr (fun d member => ?_)
  have msrs : ∀ r ∈ d.cpus, (finalHeap w.dumps w.heap r).msrsState.n ≤ 0x20 := by
    intro r used
    rw [finalHeap_msrs (uses_ne_nil member used)]
    exact (by decide : msrRegs.length ≤ 0x20)
  unfold Loaded.mapMem
  cases normMem (w.dumps.map (·.hdr.emulator)) kernel d.hdr.memSize d.mem with
  | none => rfl
  | some mem =>
    have parsed : parseState (finalHeap w.dumps w.heap) { d with mem }
        = some (dictOf d.hdr (d.cpus.map (finalHeap w.dumps w.heap)) mem) :=
      parseState_eq (counts d member) msrs
    simpa using parsed

end

section

variable {l : List Dump} {i : Nat} {d : Dump}

theorem load_heap (found : l[i]? = some d) : (loadDump i d).cpus.map (load l).heap = d.cpus := by
  refine ext_getElem (by simp [loadDump]) ?_
  intro j below below'
  simp [loadDump, load, found, below']

theorem load_count (valid : isValidType d.hdr.type = true)
    : (loadDump i d).cpus.length = d.hdr.cpusno := by
  rw [← d.cpus_valid valid]
  simp [loadDump]

theorem load_emulators : (load l).dumps.map (·.hdr.emulator) = l.map (·.hdr.emulator) := by
  refine ext_getElem? (fun i => ?_)
  simp only [load, List.getElem?_map, List.getElem?_mapIdx, Option.map_map]
  rfl

/-- A CPU object is used by the dump it was loaded with. -/
theorem uses_load (found : l[i]? = some d) {j : Nat} (below : j < d.cpus.length)
    : uses (load l).dumps (i, j) = [d.hdr.emulator] := by
  have single : uses (load l).dumps (i, j)
      = ((loadDump i d).cpus.filter (· = (i, j))).map (fun _ => d.hdr.emulator) := by
    refine flatMap_mapIdx_single found ?_
    intro k other _ differ
    simp [loadDump, differ]
  have once : (loadDump i d).cpus.filter (· = (i, j)) = [(i, j)] := by
    have nodup : (loadDump i d).cpus.Nodup := nodup_range.map (fun a b same => (Prod.mk.inj same).2)
    have mem : (i, j) ∈ (loadDump i d).cpus := by simpa [loadDump] using below
    rw [filter_eq, count_eq_one_of_mem nodup mem]
    rfl
  rw [single, once]
  rfl

end

/-- The state of a dump none of whose CPUs is borrowed. -/
def validState (emulators : List Nat) (kernel : Option Kernel) (d : Dump) : Option Dict :=
  (normMem emulators kernel d.hdr.memSize d.mem).map
    (dictOf d.hdr (d.cpus.map (normalized emulators d.hdr.emulator)))

section

variable {l : List Dump}

theorem borrowCpus_valid (valid : ∀ d ∈ l, isValidType d.hdr.type = true)
    : borrowCpus (load l) = some (load l) := by
  have unchanged (tmp : Loaded) : (load l).dumps.mapM (borrow tmp) = some (load l).dumps := by
    have same : (load l).dumps.mapM (borrow tmp) = some ((load l).dumps.map id) := by
      refine mapM_eq_some_map ?_
      intro d mem
      obtain ⟨i, below, rfl⟩ := mem_mapIdx.mp mem
      have ok : isValidType (loadDump i l[i]).hdr.type = true := valid _ (getElem_mem below)
      simp only [borrow, ok, if_true, id]
    rw [same, map_id]
  unfold borrowCpus
  split
  · rw [unchanged]
    rfl
  · rfl

theorem parsedStates_valid (kernels : String → Option Kernel)
    (valid : ∀ d ∈ l, isValidType d.hdr.type = true)
    : parsedStates kernels l
      = l.mapM (validState (l.map (·.hdr.emulator)) (kernelOf kernels l)) := by
  have counts : ∀ d ∈ (load l).dumps, d.cpus.length = d.hdr.cpusno := by
    intro d mem
    obtain ⟨i, below, rfl⟩ := mem_mapIdx.mp mem
    exact load_count (valid _ (getElem_mem below))
  unfold parsedStates
  rw [borrowCpus_valid valid]
  refine (parsed_eq counts).trans (mapM_mapIdx ?_)
  intro i d found
  have cpus : (loadDump i d).cpus.map (finalHeap (load l).dumps (load l).heap)
      = d.cpus.map (normalized (l.map (·.hdr.emulator)) d.hdr.emulator) := by
    rw [← load_heap found, map_map]
    refine map_congr_left ?_
    intro r mem
    obtain ⟨j, below, rfl⟩ := mem_map.mp mem
    rw [finalHeap_single (uses_load found (mem_range.mp below)), load_emulators]
    rfl
  rw [cpus, load_emulators]
  rfl

end

/-- The memory before normalisation. -/
def rawMem (size : Nat) (d : Dump) : List UInt8 :=
  if isValidType d.hdr.type then d.mem else replicate size questionMark

/-- A dump as it is compared, if the borrowed CPU is `r`. -/
def completed (r : Ref) (size : Nat) (i : Nat) (d : Dump) : Loaded :=
  if isValidType d.hdr.type then loadDump i d
  else
    { hdr := { d.hdr with memSize := size, cpusno := 1 }
      cpus := [r]
      mem := replicate size questionMark }

/-- Keys of some CPUs. -/
def cpuKeys (cpus : List Cpu) : List Path := (cpusEntries (cpus.map keepMsrs)).map Prod.fst

/-- What is known of a state, whichever dump the CPU `c` was borrowed from. -/
structure StateOf (emulators : List Nat) (kernel : Option Kernel) (size : Nat) (c : Cpu)
    (d : Dump) (s : Dict)
    : Prop where
  type : s.numAt typeKey = d.hdr.type
  mem : normMem emulators kernel size (rawMem size d) = some s.mem
  keys
    : ∀ k,
        k ∈ s
        ↔ k = memKey
          ∨ k ∈ headerKeys
          ∨ k ∈ cpuKeys (if isValidType d.hdr.type then d.cpus else [c])
  header
    : isValidType d.hdr.type = true
      → ∀ k ∈ headerKeys, Dict.get s k = Dict.get (insertAll ∅ d.hdr.entries) k
  cpu
    : ∀ k, k ∈ s → k ≠ memKey → k ∉ headerKeys → ∃ n, Dict.get s k = some (.num n)

section

variable {l : List Dump} {t : Nat} {lender : Dump} {c : Cpu} {others : List Cpu}
  {kernel : Option Kernel}

theorem stateOf_dictOf {size : Nat} {d : Dump} {hdr : Header} {cpus : List Cpu} {mem : List UInt8}
    (res : normMem emulators kernel size (rawMem size d) = some mem)
    (sameType : hdr.type = d.hdr.type) (same : isValidType d.hdr.type = true → hdr = d.hdr)
    (msrs
      : cpus.map Cpu.msrsState
        = ((if isValidType d.hdr.type then d.cpus else [c]).map keepMsrs).map Cpu.msrsState)
    : StateOf emulators kernel size c d (dictOf hdr cpus mem) where
  type := numAt_type.trans sameType
  mem := by rw [mem_dictOf_mem, res]
  keys k := by
    rw [mem_dictOf, cpuKeys, cpusEntries_keys msrs]
  header valid k header := by
    rw [get_dictOf_header header, same valid]
  cpu k member notMem notHeader := by
    rcases mem_dictOf.mp member with mem | header | cpu
    · exact absurd mem notMem
    · exact absurd header notHeader
    · exact get_dictOf_cpu cpu

theorem borrowCpus_some (found : (load l).dumps.find? (fun d => isValidType d.hdr.type)
      = some (loadDump t lender)) (cpus : lender.cpus = c :: others)
    : borrowCpus (load l)
      = some
          { heap := (load l).heap
            dumps := l.mapIdx (completed (t, 0) lender.hdr.memSize) } := by
  have refs : (loadDump t lender).cpus
      = (t, 0) :: (List.range others.length).map (fun j => (t, j + 1)) := by
    simp only [loadDump, cpus, length_cons, range_succ_eq_map, map_cons, map_map]
    rfl
  have each : (load l).dumps.mapM (borrow (loadDump t lender))
      = some (l.mapIdx (completed (t, 0) lender.hdr.memSize)) := by
    have step (i : Nat) (d : Dump)
        : borrow (loadDump t lender) (loadDump i d)
          = some (completed (t, 0) lender.hdr.memSize i d) := by
      have type : (loadDump i d).hdr.type = d.hdr.type := rfl
      simp only [borrow, completed, type, refs]
      cases valid : isValidType d.hdr.type with
      | true => rfl
      | false =>
        have none : (loadDump i d).cpus = [] := by simp [loadDump, d.cpus_invalid valid]
        simp only [none]
        rfl
    exact mapM_mapIdx_some step
  unfold borrowCpus
  rw [found]
  simp only [each, Option.bind_eq_bind, Option.bind_some]

theorem completed_emulators (r : Ref) (size : Nat)
    : (l.mapIdx (completed r size)).map (·.hdr.emulator) = l.map (·.hdr.emulator) := by
  refine ext_getElem? (fun i => ?_)
  simp only [List.getElem?_map, List.getElem?_mapIdx, Option.map_map]
  congr 1
  funext d
  simp only [Function.comp_apply, completed]
  split <;> rfl

theorem completed_state {heap : Ref → Cpu} {r : Ref} {size i : Nat} {d : Dump}
    (sizes : isValidType d.hdr.type = true → d.hdr.memSize = size)
    : (normMem emulators kernel (completed r size i d).hdr.memSize (completed r size i d).mem).map
        (dictOf (completed r size i d).hdr ((completed r size i d).cpus.map heap))
      = (normMem emulators kernel size (rawMem size d)).map
          (dictOf (completed r size i d).hdr ((completed r size i d).cpus.map heap)) := by
  cases valid : isValidType d.hdr.type with
  | true => simp [completed, rawMem, valid, loadDump, sizes valid]
  | false => simp [completed, rawMem, valid]

theorem parsedStates_eq (kernels : String → Option Kernel)
    (found : (load l).dumps.find? (fun d => isValidType d.hdr.type) = some (loadDump t lender))
    (cpus : lender.cpus = c :: others)
    : parsedStates kernels l
      = (l.mapIdx (completed (t, 0) lender.hdr.memSize)).mapM (fun d =>
          (normMem (l.map (·.hdr.emulator)) (kernelOf kernels l) d.hdr.memSize d.mem).map
            (dictOf d.hdr
              (d.cpus.map
                (finalHeap (l.mapIdx (completed (t, 0) lender.hdr.memSize)) (load l).heap)))) := by
  have counts : ∀ d ∈ l.mapIdx (completed (t, 0) lender.hdr.memSize),
      d.cpus.length = d.hdr.cpusno := by
    intro d mem
    obtain ⟨i, below, rfl⟩ := mem_mapIdx.mp mem
    unfold completed
    split
    next valid =>
      exact load_count valid
    · rfl
  unfold parsedStates
  rw [borrowCpus_some found cpus, ← completed_emulators (t, 0) lender.hdr.memSize]
  exact parsed_eq (w := ⟨(load l).heap, l.mapIdx (completed (t, 0) lender.hdr.memSize)⟩) counts

/-- A valid dump with a CPU lends it to all dumps of failed runs. -/
theorem parsedStates_completed (kernels : String → Option Kernel)
    (found : (load l).dumps.find? (fun d => isValidType d.hdr.type) = some (loadDump t lender))
    (place : l[t]? = some lender) (cpus : lender.cpus = c :: others)
    (sizes : ∀ d ∈ l, isValidType d.hdr.type = true → d.hdr.memSize = lender.hdr.memSize)
    : ((∃ states, parsedStates kernels l = some states)
        ↔ ∀ d ∈ l,
            ∃ mem,
              normMem (l.map (·.hdr.emulator)) (kernelOf kernels l) lender.hdr.memSize
                (rawMem lender.hdr.memSize d)
              = some mem)
      ∧ ∀ states,
          parsedStates kernels l = some states
          → List.Forall₂
              (StateOf (l.map (·.hdr.emulator)) (kernelOf kernels l) lender.hdr.memSize c)
              l states := by
  rw [parsedStates_eq kernels found cpus]
  constructor
  · rw [exists_mapM]
    constructor
    · intro all d member
      obtain ⟨i, here⟩ := mem_iff_getElem?.mp member
      obtain ⟨below, rfl⟩ := List.getElem?_eq_some_iff.mp here
      obtain ⟨s, made⟩ := all _ (mem_mapIdx.mpr ⟨i, below, rfl⟩)
      rw [completed_state (sizes _ member)] at made
      obtain ⟨mem, res, _⟩ := Option.map_eq_some_iff.mp made
      exact ⟨mem, res⟩
    · intro all d member
      obtain ⟨i, below, rfl⟩ := mem_mapIdx.mp member
      have inside := getElem_mem below
      obtain ⟨mem, res⟩ := all _ inside
      rw [completed_state (sizes _ inside), res]
      exact ⟨_, rfl⟩
  · intro states res
    refine forall₂_mapIdx res ?_
    intro i d s here made
    have member := mem_of_getElem? here
    rw [completed_state (sizes d member)] at made
    obtain ⟨mem, normal, rfl⟩ := Option.map_eq_some_iff.mp made
    refine stateOf_dictOf normal ?_ ?_ ?_
    · unfold completed
      split <;> rfl
    · intro valid
      simp only [completed, valid, if_true]
      rfl
    · have objects : (completed (t, 0) lender.hdr.memSize i d).cpus.map (load l).heap
          = if isValidType d.hdr.type then d.cpus else [c] := by
        unfold completed
        split
        · exact load_heap here
        · simp [load, place, cpus]
      rw [← objects, map_map, map_map, map_map]
      refine map_congr_left ?_
      intro r used
      obtain ⟨below, rfl⟩ := List.getElem?_eq_some_iff.mp here
      exact finalHeap_msrs (uses_ne_nil (mem_mapIdx.mpr ⟨i, below, rfl⟩) used)

end

end FastPokeEmu.CpuState
