import FastPokeEmu.CpuState.Records

/-! Flattening a CPU state into a dictionary (`parse_state_recurse`).
-/

namespace FastPokeEmu.CpuState

open List Option

/-- A step of a key such as `cpu[0].msrs_state.msr_regs[00000174]`. -/
inductive Step where
  | field (name : String)
  | index (i : Nat)
  | cpu (i : Nat)
  | msr (idx : Nat)
deriving DecidableEq

/-- A key, from the root on. -/
abbrev Path := List Step

inductive Value where
  | num (n : Nat)
  | text (s : String)
  | bytes (data : List UInt8)
deriving DecidableEq

abbrev Dict := AList (fun _ : Path => Value)

/-- The value stored under a key. -/
def Dict.get (h : Dict) (p : Path) : Option Value := AList.lookup p h

def textKeys : List Path :=
  [[.field "hdr", .field "kernel_version"], [.field "hdr", .field "kernel_checksum"],
    [.field "hdr", .field "testcase_checksum"]]

/-- `"msrs_state.msr_regs" in p` -/
def Path.inMsrRegs : Path → Bool
  | [] => false
  | step :: rest =>
    (step = .field "msrs_state" ∧ rest.head? = some (.field "msr_regs")) || inMsrRegs rest

/-- `p.replace(".msr_regs", ".n")` -/
def Path.countKey (p : Path) : Path :=
  p.map (fun step => if step = .field "msr_regs" then .field "n" else step)

/-- MSRs are indexed by their number. -/
def parseMsr (items : Items) (p : Path) (h : Dict) (e : Nat) : Option Dict := do
  let d ← items.get e
  let idx ← d.attr "idx"
  let val ← d.attr "val"
  some (h.insert (p ++ [.msr idx]) (.num val))

mutual

/-- Any failure (of an index, a key or the recursion on characters) is `none`. -/
def parseStateRecurse : Data → Path → Dict → Option Dict
  | .num n, p, h => some (h.insert p (.num n))
  | .text s, p, h => if p ∈ textKeys then some (h.insert p (.text s)) else none
  | .array items, p, h =>
    if p.inMsrRegs then
      match Dict.get h p.countKey with
      | some (.num n) => (List.range n).foldlM (parseMsr items p) h
      | _ => none
    else parseItems items p 0 h
  | .struct fields, p, h => parseFields fields p h

def parseFields : Fields → Path → Dict → Option Dict
  | .nil, _, h => some h
  | .cons name d rest, p, h => do
      let h ← parseStateRecurse d (p ++ [.field name]) h
      parseFields rest p h

def parseItems : Items → Path → Nat → Dict → Option Dict
  | .nil, _, _, h => some h
  | .cons d rest, p, e, h => do
      let h ← parseStateRecurse d (p ++ [.index e]) h
      parseItems rest p (e + 1) h

end

mutual

/-- Keys and values below a path, in the order they are stored. -/
def Data.entries : Data → Path → List (Path × Value)
  | .num n, p => [(p, .num n)]
  | .text s, p => [(p, .text s)]
  | .array items, p => items.entries p 0
  | .struct fields, p => fields.entries p

def Fields.entries : Fields → Path → List (Path × Value)
  | .nil, _ => []
  | .cons name d rest, p => d.entries (p ++ [.field name]) ++ rest.entries p

def Items.entries : Items → Path → Nat → List (Path × Value)
  | .nil, _, _ => []
  | .cons d rest, p, e => d.entries (p ++ [.index e]) ++ rest.entries p (e + 1)

end

mutual

/-- Numbers only, and no array of MSRs. -/
def Data.Plain : Data → Prop
  | .num _ => True
  | .text _ => False
  | .array items => items.Plain
  | .struct fields => fields.Plain

def Fields.Plain : Fields → Prop
  | .nil => True
  | .cons name d rest => name ≠ "msr_regs" ∧ d.Plain ∧ rest.Plain

def Items.Plain : Items → Prop
  | .nil => True
  | .cons d rest => d.Plain ∧ rest.Plain

end

/-- Store all entries. -/
def insertAll (h : Dict) (entries : List (Path × Value)) : Dict :=
  entries.foldl (fun h e => h.insert e.1 e.2) h

theorem insertAll_append (h : Dict) (es fs : List (Path × Value))
    : insertAll h (es ++ fs) = insertAll (insertAll h es) fs :=
  foldl_append

theorem inMsrRegs_append {p : Path} {step : Step} (outside : p.inMsrRegs = false)
    (other : step ≠ .field "msr_regs")
    : Path.inMsrRegs (p ++ [step]) = false := by
  induction p with
  | nil => simp [Path.inMsrRegs]
  | cons first rest ih =>
    simp only [Path.inMsrRegs, Bool.or_eq_false_iff, decide_eq_false_iff_not] at outside
    simp only [cons_append, Path.inMsrRegs, Bool.or_eq_false_iff, decide_eq_false_iff_not]
    refine ⟨?_, ih outside.2⟩
    cases rest with
    | nil => simp [other]
    | cons second rest => simpa using outside.1

mutual

theorem parseStateRecurse_plain {d : Data} (plain : d.Plain) {p : Path}
    (outside : p.inMsrRegs = false) (h : Dict)
    : parseStateRecurse d p h = some (insertAll h (d.entries p)) := by
  cases d with
  | num n => rfl
  | text s => exact plain.elim
  | array items =>
    simp only [parseStateRecurse, outside, Data.entries]
    exact parseItems_plain plain outside 0 h
  | struct fields => exact parseFields_plain plain outside h

theorem parseFields_plain {fields : Fields} (plain : fields.Plain) {p : Path}
    (outside : p.inMsrRegs = false) (h : Dict)
    : parseFields fields p h = some (insertAll h (fields.entries p)) := by
  cases fields with
  | nil => rfl
  | cons name d rest =>
    obtain ⟨other, first, later⟩ := plain
    have below : Path.inMsrRegs (p ++ [.field name]) = false :=
      inMsrRegs_append outside (by simpa using other)
    simp only [parseFields, Fields.entries, parseStateRecurse_plain first below,
      bind_eq_bind, bind_some, insertAll_append]
    exact parseFields_plain later outside _

theorem parseItems_plain {items : Items} (plain : items.Plain) {p : Path}
    (outside : p.inMsrRegs = false) (e : Nat) (h : Dict)
    : parseItems items p e h = some (insertAll h (items.entries p e)) := by
  cases items with
  | nil => rfl
  | cons d rest =>
    obtain ⟨first, later⟩ := plain
    have below : Path.inMsrRegs (p ++ [.index e]) = false := inMsrRegs_append outside (by simp)
    simp only [parseItems, Items.entries, parseStateRecurse_plain first below,
      bind_eq_bind, bind_some, insertAll_append]
    exact parseItems_plain later outside _ _

end

mutual

/-- Entries lie below the path, and plain data has numbers only. -/
theorem Data.mem_entries {d : Data} {p : Path} {e : Path × Value} (mem : e ∈ d.entries p)
    : p <+: e.1 ∧ (d.Plain → ∃ n, e.2 = .num n) := by
  cases d with
  | num n => simp_all [Data.entries]
  | text s => simp_all [Data.entries, Data.Plain]
  | array items => exact Items.mem_entries mem
  | struct fields => exact Fields.mem_entries mem

theorem Fields.mem_entries {fields : Fields} {p : Path} {e : Path × Value}
    (mem : e ∈ fields.entries p)
    : p <+: e.1 ∧ (fields.Plain → ∃ n, e.2 = .num n) := by
  cases fields with
  | nil => cases mem
  | cons name d rest =>
    rcases mem_append.mp mem with here | there
    · obtain ⟨below, number⟩ := Data.mem_entries here
      exact ⟨(prefix_append _ _).trans below, fun plain => number plain.2.1⟩
    · obtain ⟨below, number⟩ := Fields.mem_entries there
      exact ⟨below, fun plain => number plain.2.2⟩

theorem Items.mem_entries {items : Items} {p : Path} {k : Nat} {e : Path × Value}
    (mem : e ∈ items.entries p k)
    : p <+: e.1 ∧ (items.Plain → ∃ n, e.2 = .num n) := by
  cases items with
  | nil => cases mem
  | cons d rest =>
    rcases mem_append.mp mem with here | there
    · obtain ⟨below, number⟩ := Data.mem_entries here
      exact ⟨(prefix_append _ _).trans below, fun plain => number plain.1⟩
    · obtain ⟨below, number⟩ := Items.mem_entries there
      exact ⟨below, fun plain => number plain.2⟩

end

theorem plain_items {ds : List Data} (each : ∀ d ∈ ds, d.Plain) : (Items.ofList ds).Plain := by
  induction ds with
  | nil => trivial
  | cons d rest ih =>
    exact ⟨each d mem_cons_self, ih (fun x mem => each x (mem_cons_of_mem _ mem))⟩

theorem plain_array {α : Type} {view : α → Data} (each : ∀ x, (view x).Plain) (xs : List α)
    : (Data.array (.ofList (xs.map view))).Plain := by
  refine plain_items ?_
  intro d mem
  obtain ⟨x, _, rfl⟩ := mem_map.mp mem
  exact each x

theorem plain_num (n : Nat) : (Data.num n).Plain := trivial

theorem plain_struct {fs : List (String × Data)} (each : ∀ f ∈ fs, f.1 ≠ "msr_regs" ∧ f.2.Plain)
    : (Data.struct (.ofList fs)).Plain := by
  induction fs with
  | nil => trivial
  | cons f rest ih =>
    obtain ⟨first, later⟩ := forall_mem_cons.mp each
    exact ⟨first.1, first.2, ih later⟩

theorem plain_record {fs : List (String × Nat)} (each : ∀ f ∈ fs, f.1 ≠ "msr_regs")
    : (record fs).Plain := by
  refine plain_struct ?_
  intro f mem
  obtain ⟨g, here, rfl⟩ := mem_map.mp mem
  exact ⟨each g here, plain_num _⟩

theorem plain_bytesOf {n : Nat} (v) : (bytesOf (n := n) v).Plain := plain_array plain_num _

theorem FpuSt.plain (st : FpuSt) : st.view.Plain :=
  plain_struct (by simp [plain_num, plain_bytesOf])

theorem FpuXmm.plain (xmm : FpuXmm) : xmm.view.Plain := plain_struct (by simp [plain_bytesOf])

theorem FpuState.plain (f : FpuState) : f.view.Plain :=
  plain_struct (by simp [plain_num, plain_array FpuSt.plain, plain_array FpuXmm.plain])

theorem RegsState.plain (r : RegsState) : r.view.Plain := plain_record (by simp)

theorem SegmentReg.plain (r : SegmentReg) : r.view.Plain := plain_record (by simp)

theorem DtableReg.plain (r : DtableReg) : r.view.Plain := plain_record (by simp)

theorem SregsState.plain (r : SregsState) : r.view.Plain :=
  plain_struct (by simp [plain_num, SegmentReg.plain, DtableReg.plain])

theorem ExceptionState.plain (e : ExceptionState) : e.view.Plain := plain_record (by simp)

def MsrsState.entries (m : MsrsState) (p : Path) : List (Path × Value) :=
  (p ++ [.field "n"], .num m.n)
    :: (m.msrRegs.toList.take m.n).map
        (fun r => (p ++ [.field "msr_regs", .msr r.idx], .num r.val))

def Cpu.entries (c : Cpu) (i : Nat) : List (Path × Value) :=
  c.fpuState.view.entries [.cpu i, .field "fpu_state"]
    ++ c.regsState.view.entries [.cpu i, .field "regs_state"]
    ++ c.sregsState.view.entries [.cpu i, .field "sregs_state"]
    ++ c.exceptionState.view.entries [.cpu i, .field "exception_state"]
    ++ c.msrsState.entries [.cpu i, .field "msrs_state"]

theorem MsrsState.mem_entries {m : MsrsState} {p : Path} {e : Path × Value} (mem : e ∈ m.entries p)
    : p <+: e.1 ∧ ∃ n, e.2 = .num n := by
  rcases mem_cons.mp mem with rfl | msr
  · exact ⟨prefix_append _ _, _, rfl⟩
  · obtain ⟨r, _, rfl⟩ := mem_map.mp msr
    exact ⟨prefix_append _ _, _, rfl⟩

theorem Cpu.mem_entries {c : Cpu} {i : Nat} {e : Path × Value} (mem : e ∈ c.entries i)
    : e.1.head? = some (.cpu i) ∧ ∃ n, e.2 = .num n := by
  have starts {name : String} (below : [.cpu i, .field name] <+: e.1)
      : e.1.head? = some (.cpu i) := by
    obtain ⟨rest, same⟩ := below
    rw [← same]
    rfl
  simp only [Cpu.entries, mem_append] at mem
  rcases mem with (((fpu | regs) | sregs) | exception) | msrs
  · exact (Data.mem_entries fpu).imp starts (· c.fpuState.plain)
  · exact (Data.mem_entries regs).imp starts (· c.regsState.plain)
  · exact (Data.mem_entries sregs).imp starts (· c.sregsState.plain)
  · exact (Data.mem_entries exception).imp starts (· c.exceptionState.plain)
  · exact (MsrsState.mem_entries msrs).imp_left starts

theorem Items.get_ofList (ds : List Data) (e : Nat) : (Items.ofList ds).get e = ds[e]? := by
  induction ds generalizing e with
  | nil => rfl
  | cons d rest ih =>
    cases e with
    | zero => rfl
    | succ e => simpa [Items.ofList, Items.get] using ih e

theorem parseMsr_view {rs : List MsrReg} {e : Nat} {r : MsrReg} (found : rs[e]? = some r)
    (p : Path) (h : Dict)
    : parseMsr (.ofList (rs.map MsrReg.view)) p h e
      = some (h.insert (p ++ [.msr r.idx]) (.num r.val)) := by
  have item : (Items.ofList (rs.map MsrReg.view)).get e = some r.view := by
    rw [Items.get_ofList, List.getElem?_map, found, map_some]
  have idx : r.view.attr "idx" = some r.idx := by
    simp [MsrReg.view, record, Data.attr, Fields.ofList, Fields.get]
  have val : r.view.attr "val" = some r.val := by
    simp [MsrReg.view, record, Data.attr, Fields.ofList, Fields.get]
  simp [parseMsr, item, idx, val]

theorem foldlM_parseMsr (rs : List MsrReg) (p : Path) (h : Dict) {n : Nat} (fits : n ≤ rs.length)
    : (List.range n).foldlM (parseMsr (.ofList (rs.map MsrReg.view)) p) h
      = some (insertAll h ((rs.take n).map (fun r => (p ++ [.msr r.idx], .num r.val)))) := by
  induction n with
  | zero => rfl
  | succ n ih =>
    obtain ⟨r, found⟩ : ∃ r, rs[n]? = some r := ⟨_, List.getElem?_eq_getElem fits⟩
    rw [range_succ, foldlM_append, ih (Nat.le_of_succ_le fits), take_add_one, found]
    simp only [bind_eq_bind, bind_some, foldlM_cons, foldlM_nil,
      parseMsr_view found, toList_some, map_append, map_cons, map_nil, insertAll_append]
    rfl

theorem parse_msrsState (m : MsrsState) (i : Nat) (h : Dict) (fits : m.n ≤ 0x20)
    : parseStateRecurse m.view [.cpu i, .field "msrs_state"] h
      = some (insertAll h (m.entries [.cpu i, .field "msrs_state"])) := by
  have msrs := foldlM_parseMsr m.msrRegs.toList
    [.cpu i, .field "msrs_state", .field "msr_regs"]
    (h.insert [.cpu i, .field "msrs_state", .field "n"] (.num m.n)) (n := m.n) (by simpa using fits)
  have counted
      : Dict.get (h.insert [.cpu i, .field "msrs_state", .field "n"] (.num m.n))
          [.cpu i, .field "msrs_state", .field "n"]
        = some (.num m.n) :=
    AList.lookup_insert _
  simp only [cons_append, nil_append] at msrs
  simp [MsrsState.view, parseStateRecurse, Fields.ofList, parseFields, Path.inMsrRegs,
    Path.countKey, counted, msrs, MsrsState.entries, insertAll]

theorem parse_cpu (c : Cpu) (i : Nat) (h : Dict) (fits : c.msrsState.n ≤ 0x20)
    : parseStateRecurse c.view [.cpu i] h = some (insertAll h (c.entries i)) := by
  have fpu (h : Dict) := parseStateRecurse_plain c.fpuState.plain
    (p := [.cpu i, .field "fpu_state"]) (by simp [Path.inMsrRegs]) h
  have regs (h : Dict) := parseStateRecurse_plain c.regsState.plain
    (p := [.cpu i, .field "regs_state"]) (by simp [Path.inMsrRegs]) h
  have sregs (h : Dict) := parseStateRecurse_plain c.sregsState.plain
    (p := [.cpu i, .field "sregs_state"]) (by simp [Path.inMsrRegs]) h
  have exception (h : Dict) := parseStateRecurse_plain c.exceptionState.plain
    (p := [.cpu i, .field "exception_state"]) (by simp [Path.inMsrRegs]) h
  have msrs (h : Dict) := parse_msrsState c.msrsState i h fits
  simp [Cpu.view, parseStateRecurse, Fields.ofList, parseFields, fpu, regs, sregs, exception, msrs,
    Cpu.entries, insertAll_append]

end FastPokeEmu.CpuState
