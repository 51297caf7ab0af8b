import FastPokeEmu.CpuState.Reports

/-! The dictionary of a dump, and the CPUs and memories that normalisation leaves.
-/

namespace FastPokeEmu.CpuState

section

variable {h : Dict} {es : List (Path × Value)} {k : Path}

theorem get_insert (p : Path) (v : Value)
    : Dict.get (h.insert p v) k = if k = p then some v else Dict.get h k := by
  unfold Dict.get
  by_cases same : k = p
  · subst same
    simp
  · rw [AList.lookup_insert_ne same, if_neg same]

theorem mem_iff_get : k ∈ h ↔ ∃ v, Dict.get h k = some v := by
  rw [← AList.lookup_isSome, Option.isSome_iff_exists]
  rfl

theorem mem_insertAll : k ∈ insertAll h es ↔ k ∈ h ∨ k ∈ es.map Prod.fst := by
  induction es generalizing h with
  | nil => simp [insertAll]
  | cons e rest ih =>
    have step : insertAll h (e :: rest) = insertAll (h.insert e.1 e.2) rest := rfl
    rw [step, ih, AList.mem_insert, List.map_cons, List.mem_cons]
    tauto

theorem get_insertAll_of_notMem (absent : k ∉ es.map Prod.fst)
    : Dict.get (insertAll h es) k = Dict.get h k := by
  induction es generalizing h with
  | nil => rfl
  | cons e rest ih =>
    rw [List.map_cons, List.mem_cons, not_or] at absent
    have step : insertAll h (e :: rest) = insertAll (h.insert e.1 e.2) rest := rfl
    rw [step, ih absent.2, get_insert, if_neg absent.1]

/-- The last entry under a key counts. -/
theorem get_insertAll_of_mem (present : k ∈ es.map Prod.fst)
    : ∃ e ∈ es, e.1 = k ∧ Dict.get (insertAll h es) k = some e.2 := by
  induction es generalizing h with
  | nil => cases present
  | cons e rest ih =>
    have step : insertAll h (e :: rest) = insertAll (h.insert e.1 e.2) rest := rfl
    rw [step]
    by_cases later : k ∈ rest.map Prod.fst
    · obtain ⟨found, mem, same, value⟩ := ih later
      exact ⟨found, List.mem_cons_of_mem _ mem, same, value⟩
    · have here : k = e.1 := by
        rcases List.mem_cons.mp present with same | inRest
        · exact same
        · exact absurd inRest later
      refine ⟨e, List.mem_cons_self, here.symm, ?_⟩
      rw [get_insertAll_of_notMem later, get_insert, if_pos here]

end

def Header.entries (hdr : Header) : List (Path × Value) := hdr.view.entries [.field "hdr"]

def headerKeys : List Path := (default : Header).entries.map Prod.fst

theorem Header.keys_entries (hdr : Header) : hdr.entries.map Prod.fst = headerKeys := rfl

theorem headerKeys_head : ∀ k ∈ headerKeys, k.head? = some (.field "hdr") := by decide

theorem memKey_notMem_header : memKey ∉ headerKeys := by decide

def cpusEntries (cpus : List Cpu) : List (Path × Value) :=
  (cpus.mapIdx (fun i c => c.entries i)).flatten

/-- All keys and values of a dump. -/
def dictOf (hdr : Header) (cpus : List Cpu) (mem : List UInt8) : Dict :=
  (insertAll ∅ (hdr.entries ++ cpusEntries cpus)).insert memKey (.bytes mem)

theorem parse_header (hdr : Header)
    : parseStateRecurse hdr.view [.field "hdr"] ∅ = some (insertAll ∅ hdr.entries) := by
  rfl

theorem mem_cpusEntries {cpus : List Cpu} {e : Path × Value}
    : e ∈ cpusEntries cpus ↔ ∃ i, ∃ c : Cpu, cpus[i]? = some c ∧ e ∈ c.entries i := by
  simp only [cpusEntries, List.mem_flatten, List.mem_mapIdx]
  constructor
  · rintro ⟨_, ⟨i, below, rfl⟩, mem⟩
    exact ⟨i, _, List.getElem?_eq_getElem below, mem⟩
  · rintro ⟨i, c, found, mem⟩
    obtain ⟨below, rfl⟩ := List.getElem?_eq_some_iff.mp found
    exact ⟨_, ⟨i, below, rfl⟩, mem⟩

theorem cpusEntries_concat (cpus : List Cpu) (c : Cpu)
    : cpusEntries (cpus ++ [c]) = cpusEntries cpus ++ c.entries cpus.length := by
  simp [cpusEntries, List.mapIdx_append]

theorem foldlM_parseCpu {heap : Ref → Cpu} {d : Loaded} (h : Dict) {n : Nat}
    (fits : n ≤ d.cpus.length) (msrs : ∀ r ∈ d.cpus, (heap r).msrsState.n ≤ 0x20)
    : (List.range n).foldlM (parseCpu heap d) h
      = some (insertAll h (cpusEntries ((d.cpus.take n).map heap))) := by
  induction n with
  | zero => rfl
  | succ n ih =>
    obtain ⟨r, found⟩ : ∃ r, d.cpus[n]? = some r := ⟨_, List.getElem?_eq_getElem fits⟩
    have here (h : Dict) := parse_cpu (heap r) n h (msrs r (List.mem_of_getElem? found))
    have size : ((d.cpus.take n).map heap).length = n := by
      simp only [List.length_map, List.length_take]
      omega
    rw [List.range_succ, List.foldlM_append, ih (Nat.le_of_succ_le fits), List.take_add_one,
      found]
    simp only [Option.bind_eq_bind, Option.bind_some, List.foldlM_cons, List.foldlM_nil,
      parseCpu, found, here, Option.toList_some, List.map_append, List.map_cons, List.map_nil,
      cpusEntries_concat, insertAll_append, size]
    rfl

theorem parseState_eq {heap : Ref → Cpu} {d : Loaded} (count : d.cpus.length = d.hdr.cpusno)
    (msrs : ∀ r ∈ d.cpus, (heap r).msrsState.n ≤ 0x20)
    : parseState heap d = some (dictOf d.hdr (d.cpus.map heap) d.mem) := by
  have cpusno : Dict.get (insertAll ∅ d.hdr.entries) cpusnoKey = some (.num d.hdr.cpusno) := rfl
  have cpus := foldlM_parseCpu (insertAll ∅ d.hdr.entries) (Nat.le_refl d.cpus.length) msrs
  rw [List.take_length, count] at cpus
  simp [parseState, parse_header, cpusno, cpus, dictOf, insertAll_append]

section

variable {hdr : Header} {cpus : List Cpu} {mem : List UInt8} {k : Path}

theorem cpusEntries_head {e : Path × Value} (mem : e ∈ cpusEntries cpus)
    : ∃ i, e.1.head? = some (.cpu i) := by
  obtain ⟨i, c, _, inside⟩ := mem_cpusEntries.mp mem
  exact ⟨i, (Cpu.mem_entries inside).1⟩

theorem mem_dictOf
    : k ∈ dictOf hdr cpus mem
      ↔ k = memKey ∨ k ∈ headerKeys ∨ k ∈ (cpusEntries cpus).map Prod.fst := by
  rw [dictOf, AList.mem_insert, mem_insertAll, List.map_append, List.mem_append,
    Header.keys_entries]
  simp

theorem mem_dictOf_mem : (dictOf hdr cpus mem).mem = mem := by
  simp [Dict.mem, dictOf, get_insert]

theorem get_dictOf_header (header : k ∈ headerKeys)
    : Dict.get (dictOf hdr cpus mem) k = Dict.get (insertAll ∅ hdr.entries) k := by
  have notMem : k ≠ memKey := fun same => memKey_notMem_header (same ▸ header)
  have notCpu : k ∉ (cpusEntries cpus).map Prod.fst := by
    intro inside
    obtain ⟨e, member, rfl⟩ := List.mem_map.mp inside
    obtain ⟨i, head⟩ := cpusEntries_head member
    rw [headerKeys_head _ header] at head
    cases head
  rw [dictOf, get_insert, if_neg notMem, insertAll_append, get_insertAll_of_notMem notCpu]

theorem numAt_type : (dictOf hdr cpus mem).numAt typeKey = hdr.type := by
  have value : Dict.get (insertAll ∅ hdr.entries) typeKey = some (.num hdr.type) := rfl
  rw [Dict.numAt, get_dictOf_header (by decide), value]

theorem get_dictOf_cpu (cpu : k ∈ (cpusEntries cpus).map Prod.fst)
    : ∃ n, Dict.get (dictOf hdr cpus mem) k = some (.num n) := by
  obtain ⟨e, member, same, value⟩ := get_insertAll_of_mem (h := insertAll ∅ hdr.entries) cpu
  obtain ⟨i, c, _, inside⟩ := mem_cpusEntries.mp member
  obtain ⟨head, n, number⟩ := Cpu.mem_entries inside
  have notMem : k ≠ memKey := by
    rintro rfl
    rw [same] at head
    cases head
  refine ⟨n, ?_⟩
  rw [dictOf, get_insert, if_neg notMem, insertAll_append, value, number]

end

section

variable {p : Path}

theorem keys_items {α β : Type} {view : α → Data} {view' : β → Data}
    (each : ∀ x y p, ((view x).entries p).map Prod.fst = ((view' y).entries p).map Prod.fst)
    {xs : List α} {ys : List β} (length : xs.length = ys.length) (k : Nat)
    : ((Items.ofList (xs.map view)).entries p k).map Prod.fst
      = ((Items.ofList (ys.map view')).entries p k).map Prod.fst := by
  induction xs generalizing ys k with
  | nil =>
    cases ys with
    | nil => rfl
    | cons y ys => cases length
  | cons x xs ih =>
    cases ys with
    | nil => cases length
    | cons y ys =>
      have rest := ih (Nat.succ.inj length) (k + 1)
      simp only [List.map_cons, Items.ofList, Items.entries, List.map_append, each x y, rest]

theorem keys_array {α : Type} {n : Nat} {view : α → Data}
    (each : ∀ x y p, ((view x).entries p).map Prod.fst = ((view y).entries p).map Prod.fst)
    (v w : Vector α n)
    : ((Data.array (.ofList (v.toList.map view))).entries p).map Prod.fst
      = ((Data.array (.ofList (w.toList.map view))).entries p).map Prod.fst :=
  keys_items each (by simp) 0

theorem keys_num (n m : Nat) (p : Path)
    : ((Data.num n).entries p).map Prod.fst = ((Data.num m).entries p).map Prod.fst := rfl

theorem FpuSt.keys (st st' : FpuSt) (p : Path)
    : (st.view.entries p).map Prod.fst = (st'.view.entries p).map Prod.fst := by
  have reserved := keys_array (p := p ++ [.field "reserved"]) keys_num st.reserved st'.reserved
  simp only [FpuSt.view, bytesOf, Data.entries, Fields.ofList, Fields.entries, List.map_append,
    List.map_cons, List.map_nil] at reserved ⊢
  rw [reserved]

theorem FpuXmm.keys (xmm xmm' : FpuXmm) (p : Path)
    : (xmm.view.entries p).map Prod.fst = (xmm'.view.entries p).map Prod.fst := by
  have data := keys_array (p := p ++ [.field "data"]) keys_num xmm.data xmm'.data
  simp only [FpuXmm.view, bytesOf, Data.entries, Fields.ofList, Fields.entries, List.map_append,
    List.map_nil] at data ⊢
  rw [data]

theorem FpuState.keys (f f' : FpuState) (p : Path)
    : (f.view.entries p).map Prod.fst = (f'.view.entries p).map Prod.fst := by
  have st := keys_array (p := p ++ [.field "st"]) FpuSt.keys f.st f'.st
  have xmm := keys_array (p := p ++ [.field "xmm"]) FpuXmm.keys f.xmm f'.xmm
  have reserved := keys_array (p := p ++ [.field "xmm_reserved"]) FpuXmm.keys
    f.xmmReserved f'.xmmReserved
  simp only [FpuState.view, Data.entries, Fields.ofList, Fields.entries, List.map_append,
    List.map_cons, List.map_nil] at st xmm reserved ⊢
  rw [st, xmm, reserved]

theorem Cpu.keys_congr {c c' : Cpu} (same : c.msrsState = c'.msrsState) (i : Nat)
    : (c.entries i).map Prod.fst = (c'.entries i).map Prod.fst := by
  have fpu := FpuState.keys c.fpuState c'.fpuState [.cpu i, .field "fpu_state"]
  have regs : (c.regsState.view.entries [.cpu i, .field "regs_state"]).map Prod.fst
      = (c'.regsState.view.entries [.cpu i, .field "regs_state"]).map Prod.fst := rfl
  have sregs : (c.sregsState.view.entries [.cpu i, .field "sregs_state"]).map Prod.fst
      = (c'.sregsState.view.entries [.cpu i, .field "sregs_state"]).map Prod.fst := rfl
  have exception
      : (c.exceptionState.view.entries [.cpu i, .field "exception_state"]).map Prod.fst
        = (c'.exceptionState.view.entries [.cpu i, .field "exception_state"]).map Prod.fst := rfl
  simp only [Cpu.entries, List.map_append, fpu, regs, sregs, exception, same]

theorem cpusEntries_keys {cs cs' : List Cpu}
    (same : cs.map Cpu.msrsState = cs'.map Cpu.msrsState)
    : (cpusEntries cs).map Prod.fst = (cpusEntries cs').map Prod.fst := by
  induction cs using List.reverseRecOn generalizing cs' with
  | nil =>
    have none : cs' = [] := by simpa using same.symm
    rw [none]
  | append_singleton cs c ih =>
    rw [List.map_append] at same
    obtain ⟨before, last, split, here, there⟩ := List.map_eq_append_iff.mp same.symm
    obtain ⟨c', rfl, final⟩ := List.map_eq_singleton_iff.mp there
    have length : before.length = cs.length := by simpa using congrArg List.length here
    rw [split, cpusEntries_concat, cpusEntries_concat, List.map_append, List.map_append,
      ih here.symm, length, Cpu.keys_congr final.symm]

end

/-- The emulators of the dumps that use a CPU object, once for each use. -/
def uses (dumps : List Loaded) (r : Ref) : List Nat :=
  dumps.flatMap (fun d => (d.cpus.filter (· = r)).map (fun _ => d.hdr.emulator))

section

variable {f : Nat → Cpu → Cpu} {heap : Ref → Cpu} {dumps : List Loaded} {r : Ref}

theorem touchDump_apply (d : Loaded)
    : touchDump f heap d r
      = ((d.cpus.filter (· = r)).map (fun _ => d.hdr.emulator)).foldl (fun c e => f e c)
          (heap r) := by
  unfold touchDump
  generalize d.cpus = refs
  induction refs generalizing heap with
  | nil => rfl
  | cons first rest ih =>
    rw [List.foldl_cons, ih]
    by_cases same : first = r
    · subst same
      simp
    · simp [same, Function.update_of_ne (Ne.symm same)]

theorem touch_apply : touch f dumps heap r = (uses dumps r).foldl (fun c e => f e c) (heap r) := by
  unfold touch uses
  induction dumps generalizing heap with
  | nil => rfl
  | cons d rest ih =>
    rw [List.foldl_cons, ih, List.flatMap_cons, List.foldl_append, touchDump_apply]

theorem uses_ne_nil {d : Loaded} (mem : d ∈ dumps) (used : r ∈ d.cpus) : uses dumps r ≠ [] := by
  intro none
  have inside : d.hdr.emulator ∈ uses dumps r :=
    List.mem_flatMap.mpr ⟨d, mem, List.mem_map.mpr ⟨r, by simpa using used, rfl⟩⟩
  rw [none] at inside
  cases inside

theorem touch_idempotent {g : Cpu → Cpu} (again : ∀ c, g (g c) = g c)
    (used : uses dumps r ≠ [])
    : touch (fun _ => g) dumps heap r = g (heap r) := by
  rw [touch_apply]
  generalize uses dumps r = es at used
  cases es with
  | nil => exact absurd rfl used
  | cons e rest =>
    rw [List.foldl_cons]
    clear used
    induction rest with
    | nil => rfl
    | cons e' rest ih => rw [List.foldl_cons, again, ih]

theorem ignoreDebug_again (c : Cpu) : ignoreDebug (ignoreDebug c) = ignoreDebug c := rfl

theorem keepMsrs_again (c : Cpu) : keepMsrs (keepMsrs c) = keepMsrs c := by
  have once (r : MsrReg) : (if (if r.idx ∈ msrRegs then r else { idx := 0, val := 0 }).idx ∈ msrRegs
      then (if r.idx ∈ msrRegs then r else { idx := 0, val := 0 }) else { idx := 0, val := 0 })
      = if r.idx ∈ msrRegs then r else { idx := 0, val := 0 } := by
    by_cases kept : r.idx ∈ msrRegs
    · simp [kept]
    · simp only [if_neg kept]
      split <;> rfl
  simp only [keepMsrs, Vector.map_map, Function.comp_def, once]

/-- The heap after all loops of the normalisation. -/
def finalHeap (dumps : List Loaded) (heap : Ref → Cpu) : Ref → Cpu :=
  touch (fun _ => keepMsrs) dumps
    (touch (fun _ => ignoreDebug) dumps
      (touch (normalizeCpu (dumps.map (·.hdr.emulator))) dumps heap))

/-- A CPU that is used by one dump. -/
def normalized (emulators : List Nat) (emulator : Nat) (c : Cpu) : Cpu :=
  keepMsrs (ignoreDebug (normalizeCpu emulators emulator c))

theorem finalHeap_used (used : uses dumps r ≠ [])
    : finalHeap dumps heap r
      = keepMsrs (ignoreDebug
          ((uses dumps r).foldl (fun c e => normalizeCpu (dumps.map (·.hdr.emulator)) e c)
            (heap r))) := by
  rw [finalHeap, touch_idempotent keepMsrs_again used, touch_idempotent ignoreDebug_again used,
    touch_apply]

theorem finalHeap_single {e : Nat} (used : uses dumps r = [e])
    : finalHeap dumps heap r = normalized (dumps.map (·.hdr.emulator)) e (heap r) := by
  rw [finalHeap_used (by simp [used]), used]
  rfl

theorem finalHeap_msrs (used : uses dumps r ≠ [])
    : (finalHeap dumps heap r).msrsState = (keepMsrs (heap r)).msrsState := by
  rw [finalHeap_used used]
  generalize uses dumps r = es
  generalize dumps.map (·.hdr.emulator) = emulators
  generalize heap r = c
  have kept : (es.foldl (fun c e => normalizeCpu emulators e c) c).msrsState = c.msrsState := by
    induction es generalizing c with
    | nil => rfl
    | cons e rest ih => exact (ih _).trans rfl
  simp only [keepMsrs, ignoreDebug, kept]

end

end FastPokeEmu.CpuState
