import FastPokeEmu.CpuState.Outcomes

/-! Which differences of MSRs are reported.
The normalisation sets the count of the MSRs to the number of those that it keeps, and leaves
these where they are. So only the first three places of the list are ever compared.
-/

namespace FastPokeEmu.CpuState

open List Option

/-- Keys below `cpu[i].msrs_state` -/
def msrsPath (i : Nat) : Path := [.cpu i, .field "msrs_state"]

def msrKey (i idx : Nat) : Path := msrsPath i ++ [.field "msr_regs", .msr idx]

/-- The count that the normalisation sets. -/
def comparedMsrs : Nat := msrRegs.length

/-- A value of an MSR, at any place below the count. -/
def MsrsState.Stored (m : MsrsState) (idx val : Nat) : Prop :=
  ∃ r ∈ m.msrRegs.toList.take m.n, r.idx = idx ∧ r.val = val

/-- The value that is compared: the last one in the first three places, whatever the count. -/
def MsrsState.seen (m : MsrsState) (idx : Nat) : Option Nat :=
  ((m.msrRegs.toList.take comparedMsrs).filter (fun r => r.idx = idx)).getLast?.map MsrReg.val

/-- The comparison sees different values of an MSR. -/
def SeenDifferent (m₁ m₂ : MsrsState) (idx : Nat) : Prop :=
  ∃ v₁ v₂, m₁.seen idx = some v₁ ∧ m₂.seen idx = some v₂ ∧ v₁ ≠ v₂

/-- A property of all pairs of values of the three MSRs that differ. -/
def ForallDifferent (d₁ d₂ : Dump) (holds : Nat → MsrsState → MsrsState → Nat → Prop) : Prop :=
  ∀ i c₁ c₂,
    d₁.cpus[i]? = some c₁
    → d₂.cpus[i]? = some c₂
    → ∀ idx ∈ msrRegs, ∀ v₁ v₂,
        c₁.msrsState.Stored idx v₁
        → c₂.msrsState.Stored idx v₂
        → v₁ ≠ v₂
        → holds i c₁.msrsState c₂.msrsState idx

section

variable {h : Dict} {es : List (Path × Value)} {k : Path}

/-- Only the entries under a key matter, and of these the last one. -/
theorem get_insertAll_filter
    : Dict.get (insertAll h es) k
      = ((es.filter (fun e => e.1 = k)).getLast?.map Prod.snd).or (Dict.get h k) := by
  induction es using reverseRecOn with
  | nil => rfl
  | append_singleton es e ih =>
    have step : insertAll h (es ++ [e]) = (insertAll h es).insert e.1 e.2 :=
      insertAll_append h es [e]
    rw [step, get_insert, filter_append]
    by_cases same : k = e.1
    · simp [same]
    · have other : ¬ e.1 = k := fun equal => same equal.symm
      simp only [if_neg same, ih, filter_cons, other, decide_false, Bool.false_eq_true,
        if_false, filter_nil, append_nil]

theorem filter_of_not_below {p : Path} (below : p <+: k)
    (others : ∀ e ∈ es, ∀ q : Path, q.length = p.length → q <+: e.1 → q ≠ p)
    : es.filter (fun e => e.1 = k) = [] := by
  refine filter_eq_nil_iff.mpr fun e mem same => ?_
  have equal : e.1 = k := by simpa using same
  exact others e mem p rfl (equal ▸ below) rfl

theorem filter_msrsPath {p : Path} {i : Nat} (below : msrsPath i <+: k) (two : p.length = 2)
    (ne : p ≠ msrsPath i) (all : ∀ e ∈ es, p <+: e.1)
    : es.filter (fun e => e.1 = k) = [] := by
  refine filter_of_not_below below fun e mem q length starts same => ?_
  have equal : p = q := (prefix_of_prefix_length_le (all e mem) starts
    (by rw [two, length]; rfl)).eq_of_length (by rw [two, length]; rfl)
  exact ne (equal.trans same)

end

section

variable {hdr : Header} {cpus : List Cpu} {mem : List UInt8} {k : Path} {i : Nat}

theorem filter_entries (c : Cpu) (below : msrsPath i <+: k)
    : (c.entries i).filter (fun e => e.1 = k)
      = (c.msrsState.entries (msrsPath i)).filter (fun e => e.1 = k) := by
  have others (d : Data) {name : String} (other : name ≠ "msrs_state")
      : (d.entries [.cpu i, .field name]).filter (fun e => e.1 = k) = [] :=
    filter_msrsPath below rfl (by simp [msrsPath, other]) fun _ mem => (Data.mem_entries mem).1
  simp only [Cpu.entries, filter_append, nil_append, others _ (by decide : "fpu_state" ≠ _),
    others _ (by decide : "regs_state" ≠ _), others _ (by decide : "sregs_state" ≠ _),
    others _ (by decide : "exception_state" ≠ _)]
  rfl

theorem head_of_below (below : msrsPath i <+: k) : k.head? = some (.cpu i) := by
  obtain ⟨rest, rfl⟩ := below
  rfl

theorem filter_cpusEntries (below : msrsPath i <+: k)
    : (cpusEntries cpus).filter (fun e => e.1 = k)
      = (cpus[i]?.map (fun c => (c.msrsState.entries (msrsPath i)).filter (fun e => e.1 = k))).getD
          [] := by
  have others (j : Nat) (c : Cpu) (differ : j ≠ i)
      : (c.entries j).filter (fun e => e.1 = k) = [] := by
    refine filter_eq_nil_iff.mpr fun e mem same => ?_
    have equal : e.1 = k := by simpa using same
    have head := (Cpu.mem_entries mem).1
    rw [equal, head_of_below below] at head
    cases head
    exact differ rfl
  have flat : (cpusEntries cpus).filter (fun e => e.1 = k)
      = (cpus.mapIdx (fun i c => c.entries i)).flatMap (List.filter (fun e => e.1 = k)) := by
    rw [cpusEntries, filter_flatten, List.flatMap]
  rw [flat]
  cases found : cpus[i]? with
  | none =>
    refine flatMap_eq_nil_iff.mpr fun es mem => ?_
    obtain ⟨j, inside, rfl⟩ := mem_mapIdx.mp mem
    refine others j _ fun same => ?_
    rw [← same, List.getElem?_eq_getElem inside] at found
    cases found
  | some c =>
    rw [Folds.flatMap_mapIdx_single found (fun j c _ differ => others j c differ),
      filter_entries c below]
    rfl

/-- What a state has under a key below the MSRs of a CPU. -/
theorem get_dictOf_msrs (below : msrsPath i <+: k)
    : Dict.get (dictOf hdr cpus mem) k
      = (cpus[i]?.bind (fun c =>
          ((c.msrsState.entries (msrsPath i)).filter (fun e => e.1 = k)).getLast?)).map
          Prod.snd := by
  have notMem : k ≠ memKey := by
    rintro rfl
    have head := head_of_below below
    cases head
  have header : hdr.entries.filter (fun e => e.1 = k) = [] := by
    refine filter_eq_nil_iff.mpr fun e member same => ?_
    have equal : e.1 = k := by simpa using same
    have head := headerKeys_head e.1
      (Header.keys_entries hdr ▸ mem_map_of_mem (f := Prod.fst) member)
    rw [equal, head_of_below below] at head
    cases head
  rw [dictOf, get_insert, if_neg notMem, get_insertAll_filter, filter_append, header,
    nil_append, filter_cpusEntries below]
  have none : Dict.get (∅ : Dict) k = none := rfl
  rw [none, or_none]
  cases cpus[i]? with
  | none => rfl
  | some c => rfl

end

section

variable {emulators : List Nat} {emulator i : Nat} {c : Cpu}

theorem normalized_entries
    : (normalized emulators emulator c).msrsState.entries (msrsPath i)
      = (msrsPath i ++ [.field "n"], .num comparedMsrs)
        :: ((c.msrsState.msrRegs.toList.take comparedMsrs).map
            (fun r => if r.idx ∈ msrRegs then r else { idx := 0, val := 0 })).map
            (fun r => (msrKey i r.idx, .num r.val)) := by
  have kept : (normalized emulators emulator c).msrsState = (keepMsrs c).msrsState := rfl
  rw [kept, keepMsrs, MsrsState.entries, Vector.toList_map]
  simp only [map_take]
  rfl

/-- An entry of the MSRs: the count, one of the three, or an MSR that was blanked. -/
theorem mem_normalized_entries {e : Path × Value}
    (mem : e ∈ (normalized emulators emulator c).msrsState.entries (msrsPath i))
    : e = (msrsPath i ++ [.field "n"], .num comparedMsrs)
      ∨ (∃ idx ∈ msrRegs, e.1 = msrKey i idx)
      ∨ e = (msrKey i 0, .num 0) := by
  rw [normalized_entries] at mem
  rcases mem_cons.mp mem with count | inside
  · exact Or.inl count
  · obtain ⟨r, kept, rfl⟩ := mem_map.mp inside
    obtain ⟨old, _, rfl⟩ := mem_map.mp kept
    by_cases meant : old.idx ∈ msrRegs
    · rw [if_pos meant]
      exact Or.inr (Or.inl ⟨old.idx, meant, rfl⟩)
    · rw [if_neg meant]
      exact Or.inr (Or.inr rfl)

theorem msrKey_injective {idx idx' : Nat} (same : msrKey i idx = msrKey i idx') : idx = idx' := by
  simpa [msrKey, msrsPath] using same

/-- Entries under one key differ only if it is one of the three MSRs. -/
theorem same_or_msrKey {c' : Cpu} {emulator' : Nat} {e e' : Path × Value}
    (mem : e ∈ (normalized emulators emulator c).msrsState.entries (msrsPath i))
    (mem' : e' ∈ (normalized emulators emulator' c').msrsState.entries (msrsPath i))
    (same : e.1 = e'.1)
    : e.2 = e'.2 ∨ ∃ idx ∈ msrRegs, e.1 = msrKey i idx := by
  have count (idx : Nat) : msrsPath i ++ [.field "n"] ≠ msrKey i idx := by simp [msrKey]
  rcases mem_normalized_entries mem with rfl | kept | rfl
  · rcases mem_normalized_entries mem' with rfl | ⟨idx, _, key⟩ | rfl
    · exact Or.inl rfl
    · exact absurd (same.trans key) (count idx)
    · exact absurd same (count 0)
  · exact Or.inr kept
  · rcases mem_normalized_entries mem' with rfl | ⟨idx, meant, key⟩ | rfl
    · exact absurd same.symm (count 0)
    · exact Or.inr ⟨idx, meant, same.trans key⟩
    · exact Or.inl rfl

/-- Under the key of one of the three there is the value that is seen. -/
theorem getLast_msrKey {idx : Nat} (meant : idx ∈ msrRegs)
    : (((normalized emulators emulator c).msrsState.entries (msrsPath i)).filter
        (fun e => e.1 = msrKey i idx)).getLast?.map Prod.snd
      = (c.msrsState.seen idx).map .num := by
  have count : ¬ msrsPath i ++ [.field "n"] = msrKey i idx := by simp [msrKey]
  rw [normalized_entries, MsrsState.seen, filter_cons, if_neg (by simpa using count)]
  generalize c.msrsState.msrRegs.toList.take comparedMsrs = rs
  induction rs using reverseRecOn with
  | nil => rfl
  | append_singleton rs r ih =>
    simp only [map_append, filter_append, map_cons, map_nil]
    by_cases same : r.idx = idx
    · simp [same, meant]
    · have other : ¬ msrKey i (if r.idx ∈ msrRegs then r else { idx := 0, val := 0 }).idx
          = msrKey i idx := by
        intro equal
        have index := msrKey_injective equal
        by_cases kept : r.idx ∈ msrRegs
        · rw [if_pos kept] at index
          exact same index
        · rw [if_neg kept] at index
          rw [← index] at meant
          exact absurd meant (by decide)
      simpa [same, other] using ih

end

theorem ne_memKey_of_below {i : Nat} {k : Path} (below : msrsPath i <+: k)
    : k ≠ memKey ∧ k ≠ emulatorKey := by
  have head := head_of_below below
  constructor
  · rintro rfl
    cases head
  · rintro rfl
    cases head

section

variable {kernels : String → Option Kernel} {d₁ d₂ : Dump} {status : Nat} {dd : List Difference}
  (valid₁ : isValidType d₁.hdr.type = true) (valid₂ : isValidType d₂.hdr.type = true)
  (returned : diffDumps kernels [d₁, d₂] = some (status, dd))

include valid₁ valid₂ returned

/-- A key other than the memory is reported exactly if both states have it, with different
values.
-/
theorem exists_states
    : ∃ mem₁ mem₂,
        ∀ k, k ≠ memKey → k ≠ emulatorKey →
          ((∃ x ∈ dd, x.key = k)
            ↔ ∃ v₁ v₂,
                Dict.get (dictOf d₁.hdr
                  (d₁.cpus.map (normalized [d₁.hdr.emulator, d₂.hdr.emulator] d₁.hdr.emulator))
                  mem₁) k = some v₁
                ∧ Dict.get (dictOf d₂.hdr
                    (d₂.cpus.map (normalized [d₁.hdr.emulator, d₂.hdr.emulator] d₂.hdr.emulator))
                    mem₂) k = some v₂
                ∧ v₁ ≠ v₂) := by
  have io : ∀ d ∈ [d₁, d₂], d.hdr.type &&& ioTestcase = 0 := by
    simp [valid_not_io valid₁, valid_not_io valid₂]
  obtain ⟨_, _, _, states, parsed, compared⟩ := (diffDumps_some io).mp returned
  obtain ⟨s₁, s₂, rfl, state₁, state₂⟩ := parsedStates_pair valid₁ valid₂ parsed
  obtain ⟨type₁, _, hasMem⟩ := validState_some state₁
  obtain ⟨type₂, _, _⟩ := validState_some state₂
  obtain ⟨mem₁, _, rfl⟩ := map_eq_some_iff.mp state₁
  obtain ⟨mem₂, _, rfl⟩ := map_eq_some_iff.mp state₂
  refine ⟨mem₁, mem₂, fun k notMem notEmulator => ?_⟩
  have fields := fieldReported_pair (type₁ ▸ valid₁) (type₂ ▸ valid₂) (k := k)
  constructor
  · rintro ⟨x, mem, rfl⟩
    have pair : (x.key, x.offset) ∈ pairs dd := mem_pairs.mpr ⟨x, mem, rfl⟩
    rcases (mem_compareStates rfl hasMem compared _).mp pair with ⟨k, same, reported⟩ | ⟨j, same, _⟩
    · obtain ⟨rfl, _⟩ := Prod.mk.inj same
      obtain ⟨_, _, has₁, has₂, differ⟩ := fields.mp reported
      obtain ⟨v₁, here₁⟩ := mem_iff_get.mp has₁
      obtain ⟨v₂, here₂⟩ := mem_iff_get.mp has₂
      rw [here₁, here₂] at differ
      exact ⟨v₁, v₂, here₁, here₂, fun equal => differ (congrArg some equal)⟩
    · exact absurd (Prod.mk.inj same).1 notMem
  · rintro ⟨v₁, v₂, here₁, here₂, differ⟩
    have reported := fields.mpr ⟨notEmulator, notMem, mem_iff_get.mpr ⟨v₁, here₁⟩,
      mem_iff_get.mpr ⟨v₂, here₂⟩, by
        rw [here₁, here₂]
        exact fun equal => differ (Option.some.inj equal)⟩
    obtain ⟨x, mem, same⟩ := mem_pairs.mp
      ((mem_compareStates rfl hasMem compared (k, none)).mpr (Or.inl ⟨k, rfl, reported⟩))
    exact ⟨x, mem, (Prod.mk.inj same).1⟩

/-- One of the three MSRs of a CPU. -/
theorem msrKey_reported {i : Nat} {c₁ c₂ : Cpu} (found₁ : d₁.cpus[i]? = some c₁)
    (found₂ : d₂.cpus[i]? = some c₂) {idx : Nat} (meant : idx ∈ msrRegs)
    : (∃ x ∈ dd, x.key = msrKey i idx) ↔ SeenDifferent c₁.msrsState c₂.msrsState idx := by
  obtain ⟨mem₁, mem₂, reported⟩ := exists_states valid₁ valid₂ returned
  have below : msrsPath i <+: msrKey i idx := prefix_append _ _
  obtain ⟨notMem, notEmulator⟩ := ne_memKey_of_below below
  rw [reported _ notMem notEmulator, get_dictOf_msrs below, get_dictOf_msrs below,
    List.getElem?_map, List.getElem?_map, found₁, found₂, map_some, map_some,
    bind_some, bind_some, getLast_msrKey meant, getLast_msrKey meant]
  constructor
  · rintro ⟨_, _, here₁, here₂, differ⟩
    obtain ⟨v₁, seen₁, rfl⟩ := map_eq_some_iff.mp here₁
    obtain ⟨v₂, seen₂, rfl⟩ := map_eq_some_iff.mp here₂
    exact ⟨v₁, v₂, seen₁, seen₂, fun same => differ (congrArg Value.num same)⟩
  · rintro ⟨v₁, v₂, seen₁, seen₂, differ⟩
    rw [seen₁, seen₂]
    exact ⟨_, _, rfl, rfl, fun same => differ (Value.num.inj same)⟩

/-- Whatever is reported about MSRs is about one of the three. -/
theorem msrKey_of_reported {i : Nat} {x : Difference} (mem : x ∈ dd) (below : msrsPath i <+: x.key)
    : ∃ idx ∈ msrRegs,
        x.key = msrKey i idx ∧ ∃ c₁ c₂, d₁.cpus[i]? = some c₁ ∧ d₂.cpus[i]? = some c₂ := by
  obtain ⟨mem₁, mem₂, reported⟩ := exists_states valid₁ valid₂ returned
  obtain ⟨notMem, notEmulator⟩ := ne_memKey_of_below below
  obtain ⟨v₁, v₂, here₁, here₂, differ⟩ := (reported _ notMem notEmulator).mp ⟨x, mem, rfl⟩
  rw [get_dictOf_msrs below, List.getElem?_map] at here₁ here₂
  obtain ⟨e₁, last₁, rfl⟩ := map_eq_some_iff.mp here₁
  obtain ⟨e₂, last₂, rfl⟩ := map_eq_some_iff.mp here₂
  obtain ⟨_, at₁, last₁⟩ := bind_eq_some_iff.mp last₁
  obtain ⟨_, at₂, last₂⟩ := bind_eq_some_iff.mp last₂
  obtain ⟨c₁, found₁, rfl⟩ := map_eq_some_iff.mp at₁
  obtain ⟨c₂, found₂, rfl⟩ := map_eq_some_iff.mp at₂
  obtain ⟨inside₁, key₁⟩ := mem_filter.mp (mem_of_getLast? last₁)
  obtain ⟨inside₂, key₂⟩ := mem_filter.mp (mem_of_getLast? last₂)
  have key₁ : e₁.1 = x.key := by simpa using key₁
  have key₂ : e₂.1 = x.key := by simpa using key₂
  rcases same_or_msrKey inside₁ inside₂ (key₁.trans key₂.symm) with same | ⟨idx, meant, key⟩
  · exact absurd same differ
  · exact ⟨idx, meant, key₁.symm.trans key, c₁, c₂, found₁, found₂⟩

/-- Different values of one of the three MSRs are reported exactly if the first three places of
both lists show different values; and nothing else is reported about MSRs.
-/
theorem msrs_reported_iff
    : (ForallDifferent d₁ d₂ (fun i _ _ idx => ∃ x ∈ dd, x.key = msrKey i idx)
        ↔ ForallDifferent d₁ d₂ (fun _ m₁ m₂ idx => SeenDifferent m₁ m₂ idx))
      ∧ ∀ i, ∀ x ∈ dd,
          msrsPath i <+: x.key
          → ∃ idx ∈ msrRegs,
              x.key = msrKey i idx
              ∧ ∃ c₁ c₂,
                  d₁.cpus[i]? = some c₁
                  ∧ d₂.cpus[i]? = some c₂
                  ∧ SeenDifferent c₁.msrsState c₂.msrsState idx := by
  refine ⟨⟨?_, ?_⟩, ?_⟩
  · intro all i c₁ c₂ found₁ found₂ idx meant v₁ v₂ stored₁ stored₂ differ
    apply (msrKey_reported valid₁ valid₂ returned found₁ found₂ meant).mp
    exact all i c₁ c₂ found₁ found₂ idx meant v₁ v₂ stored₁ stored₂ differ
  · intro all i c₁ c₂ found₁ found₂ idx meant v₁ v₂ stored₁ stored₂ differ
    apply (msrKey_reported valid₁ valid₂ returned found₁ found₂ meant).mpr
    exact all i c₁ c₂ found₁ found₂ idx meant v₁ v₂ stored₁ stored₂ differ
  · intro i x member below
    obtain ⟨idx, meant, key, c₁, c₂, found₁, found₂⟩ :=
      msrKey_of_reported valid₁ valid₂ returned member below
    refine ⟨idx, meant, key, c₁, c₂, found₁, found₂, ?_⟩
    exact (msrKey_reported valid₁ valid₂ returned found₁ found₂ meant).mp ⟨x, member, key⟩

end

/-- A CPU with the code selector of `sysenter`, and blank MSRs in front of it. -/
def sysenterCpu (place cs : Nat) : Cpu :=
  { (default : Cpu) with
    msrsState :=
      { n := place + 1
        msrRegs := (Vector.replicate 0x20 ⟨0, 0⟩).setIfInBounds place ⟨0x174, cs⟩ } }

def sysenterDump (place cs : Nat) : Dump where
  hdr := { smallHeader 1 1 with memSize := 108 }
  cpus := [sysenterCpu place cs]
  mem := replicate 108 0
  cpus_valid := fun _ => rfl
  cpus_invalid := fun invalid => absurd invalid (by decide)
  mem_invalid := fun invalid => absurd invalid (by decide)

theorem sysenter_valid (place cs : Nat) : isValidType (sysenterDump place cs).hdr.type = true := by
  simp [sysenterDump, smallHeader, isValidType]

theorem sysenter_returns (place cs cs' : Nat)
    : ∃ dd,
        diffDumps filledKernels [sysenterDump place cs, sysenterDump place cs'] = some (0, dd) := by
  have length (cs : Nat) : (sysenterDump place cs).mem.length = 108 := length_replicate
  have header : (sysenterDump place cs').hdr = (sysenterDump place cs).hdr := rfl
  have sized : (sysenterDump place cs).hdr.memSize = 108 := rfl
  obtain ⟨_, dd, _, _, returned⟩ := filled_returns header (sysenter_valid place cs) rfl sized
    (length cs) (length cs') (by decide) (by decide)
  exact ⟨dd, returned⟩

theorem sysenter_toList (place cs : Nat)
    : (sysenterCpu place cs).msrsState.msrRegs.toList
      = (replicate 0x20 ⟨0, 0⟩).set place ⟨0x174, cs⟩ := by
  simp [sysenterCpu]

theorem sysenter_stored (cs : Nat) {place : Nat} (inside : place < 0x20)
    : (sysenterCpu place cs).msrsState.Stored 0x174 cs := by
  refine ⟨⟨0x174, cs⟩, ?_, rfl, rfl⟩
  rw [sysenter_toList, mem_take_iff_getElem]
  refine ⟨place, ?_, ?_⟩
  · simp [sysenterCpu, inside]
  · simp

/-- In the first place, the difference is reported. -/
theorem msrs_reported_iff_first
    : ∃ dd,
        diffDumps filledKernels [sysenterDump 0 1, sysenterDump 0 2] = some (0, dd)
        ∧ ForallDifferent (sysenterDump 0 1) (sysenterDump 0 2)
            (fun i _ _ idx => ∃ x ∈ dd, x.key = msrKey i idx) := by
  obtain ⟨dd, returned⟩ := sysenter_returns 0 1 2
  refine ⟨dd, returned,
    (msrs_reported_iff (sysenter_valid 0 1) (sysenter_valid 0 2) returned).1.mpr ?_⟩
  intro i c₁ c₂ found₁ found₂ idx _ v₁ v₂ stored₁ _ _
  obtain ⟨rfl, rfl⟩ : i = 0 ∧ sysenterCpu 0 1 = c₁ := by
    simpa [sysenterDump, List.getElem?_singleton] using found₁
  obtain rfl : sysenterCpu 0 2 = c₂ := by simpa [sysenterDump] using found₂
  obtain ⟨r, member, rfl, _⟩ := stored₁
  rw [sysenter_toList] at member
  obtain rfl := mem_singleton.mp member
  refine ⟨1, 2, ?_, ?_, by decide⟩
  · rw [MsrsState.seen, sysenter_toList]
    rfl
  · rw [MsrsState.seen, sysenter_toList]
    rfl

/-- In the fourth place, it is not. -/
theorem msr_difference_unseen
    : ∃ dd,
        diffDumps filledKernels [sysenterDump 3 1, sysenterDump 3 2] = some (0, dd)
        ∧ (sysenterCpu 3 1).msrsState.Stored 0x174 1
        ∧ (sysenterCpu 3 2).msrsState.Stored 0x174 2
        ∧ ¬ ∃ x ∈ dd, x.key = msrKey 0 0x174 := by
  obtain ⟨dd, returned⟩ := sysenter_returns 3 1 2
  refine ⟨dd, returned, sysenter_stored 1 (by decide), sysenter_stored 2 (by decide), ?_⟩
  have sysenterCs : 0x174 ∈ msrRegs := by decide
  have found (cs : Nat) : (sysenterDump 3 cs).cpus[0]? = some (sysenterCpu 3 cs) := rfl
  have reported := msrKey_reported (sysenter_valid 3 1) (sysenter_valid 3 2) returned (found 1)
    (found 2) sysenterCs
  rw [reported]
  rintro ⟨v₁, v₂, seen, _⟩
  rw [MsrsState.seen, sysenter_toList] at seen
  cases seen

end FastPokeEmu.CpuState
