import FastPokeEmu.CpuState.Runs

/-! What the normalisation does to a memory, byte by byte.
-/

namespace FastPokeEmu.CpuState

open List

section

variable {data : List UInt8} {size a : Nat}

/-- The first byte of an entry of a page table, where the accessed bit is. -/
def EntryAt (s : Symbol) (x : Nat) : Prop :=
  s.address ≤ x ∧ x < s.address + s.size ∧ 4 ∣ x - s.address

instance (s : Symbol) (x : Nat) : Decidable (EntryAt s x) := inferInstanceAs (Decidable (_ ∧ _ ∧ _))

/-- A memory without the accessed bits of a page table. -/
def clearAccessed (s : Symbol) (data : List UInt8) : List UInt8 :=
  data.mapIdx (fun x b => if EntryAt s x then b &&& 0xdf else b)

/-- A memory with a TSS at `a` whose byte 35 is dropped, and one byte more is copied. -/
def shiftTss (a : Nat) (data : List UInt8) : List UInt8 :=
  data.take a ++ ((data.drop a).take 35 ++ [0, 0] ++ (data.drop (a + 38)).take 67)
    ++ data.drop (a + 104)

theorem slice_congr {data' : List UInt8} {i : Nat} (same : ∀ x, i ≤ x → data'[x]? = data[x]?)
    (n : Nat)
    : slice i n data' = slice i n data := by
  refine ext_getElem? (fun x => ?_)
  simp only [slice, List.getElem?_take, List.getElem?_drop, same (i + x) (Nat.le_add_right i x)]

theorem clearAccessed_length (s : Symbol) : (clearAccessed s data).length = data.length :=
  length_mapIdx

theorem getElem_clearAccessed (s : Symbol) (x : Nat)
    : (clearAccessed s data)[x]?
      = (data[x]?).map (fun b => if EntryAt s x then b &&& 0xdf else b) :=
  List.getElem?_mapIdx

theorem clearAccessed_outside {s : Symbol} {x : Nat} (outside : ¬ EntryAt s x)
    : (clearAccessed s data)[x]? = data[x]? := by
  simp [getElem_clearAccessed, outside]

theorem entryChunk_eq {s : Symbol} {k : Nat} (below : 4 * k + 4 ≤ s.size)
    (inside : s.address + s.size ≤ data.length)
    : entryChunk data (s.address + 4 * k)
      = some (slice (s.address + 4 * k) 4 (clearAccessed s data)) := by
  obtain ⟨b, byte⟩ : ∃ b, data[s.address + 4 * k]? = some b :=
    ⟨_, List.getElem?_eq_getElem (by omega)⟩
  rw [entryChunk, byte, Option.map_some, Option.some_inj]
  refine ext_getElem? (fun x => ?_)
  cases x with
  | zero =>
    have start : EntryAt s (s.address + 4 * k) := ⟨by omega, by omega, by omega⟩
    simp [slice, getElem_clearAccessed, byte, start]
  | succ x =>
    simp only [slice, List.getElem?_cons_succ, List.getElem?_take, List.getElem?_drop]
    by_cases inner : x < 3
    · have plain : ¬ EntryAt s (s.address + 4 * k + (x + 1)) := by
        rintro ⟨_, _, aligned⟩
        omega
      rw [if_pos inner, if_pos (by omega), clearAccessed_outside plain]
      congr 1
      omega
    · rw [if_neg inner, if_neg (by omega)]

/-- A page table is rewritten entry by entry. -/
theorem rewriteTable_eq {s : Symbol} (length : data.length = size) (words : 4 ∣ s.size)
    (inside : s.address + s.size ≤ size)
    : rewriteSymbol 4 entryChunk size s data = some (clearAccessed s data) := by
  subst length
  have parts : (List.range ((s.size + (4 - 1)) / 4)).mapM
      (entryChunk data ∘ fun k => s.address + 4 * k)
      = some ((List.range ((s.size + (4 - 1)) / 4)).map
          (fun k => slice (s.address + 4 * k) 4 (clearAccessed s data))) := by
    refine Folds.mapM_eq_some_map (fun k mem => ?_)
    have below := mem_range.mp mem
    exact entryChunk_eq (by omega) inside
  have joined (n : Nat)
      : ((List.range n).map (fun k => slice (s.address + 4 * k) 4 (clearAccessed s data))).flatten
        = slice s.address (4 * n) (clearAccessed s data) := by
    induction n with
    | zero => simp [slice]
    | succ n ih =>
      rw [range_succ, map_append, flatten_append, ih]
      simp [slice, Nat.mul_succ, take_add]
  have all : 4 * ((s.size + (4 - 1)) / 4) = s.size := by omega
  have front : data.take s.address = (clearAccessed s data).take s.address := by
    refine ext_getElem? (fun x => ?_)
    simp only [List.getElem?_take]
    split
    next low => rw [clearAccessed_outside (fun entry => absurd entry.1 (Nat.not_le.mpr low))]
    · rfl
  have back : data.drop (s.address + s.size)
      = (clearAccessed s data).drop (s.address + s.size) := by
    refine ext_getElem? (fun x => ?_)
    rw [List.getElem?_drop, List.getElem?_drop, clearAccessed_outside]
    exact fun entry => absurd entry.2.1 (by omega)
  have whole : data.take s.address ++ slice s.address s.size (clearAccessed s data)
      ++ data.drop (s.address + s.size)
      = clearAccessed s data := by
    rw [front, back, slice, ← take_add, take_append_drop]
  simp only [rewriteSymbol, mapM_map, parts, joined, all, whole, Option.bind_eq_bind,
    Option.bind_some, clearAccessed_length, if_true]

theorem getElem_shiftTss (room : a + 105 ≤ data.length) (x : Nat)
    : (shiftTss a data)[x]?
      = if x < a + 35 then data[x]?
        else if x < a + 37 then some 0
        else if x < a + 104 then data[x + 1]?
        else data[x]? := by
  simp only [shiftTss, List.getElem?_append, length_append, length_take,
    length_drop, length_cons, length_nil, List.getElem?_take, List.getElem?_drop]
  grind

theorem shiftTss_length (present : a + 37 < data.length)
    : (shiftTss a data).length = data.length ↔ a + 105 ≤ data.length := by
  simp only [shiftTss, length_append, length_take, length_drop, length_cons, length_nil]
  omega

theorem shiftTss_above (room : a + 105 ≤ data.length) {x : Nat} (high : a + 104 ≤ x)
    : (shiftTss a data)[x]? = data[x]? := by
  rw [getElem_shiftTss room, if_neg (by omega), if_neg (by omega), if_neg (by omega)]

/-- A TSS of the usual size can be rewritten if a byte follows it. -/
theorem ignoreEflags_eq {name : String} {getSymbol : Kernel}
    (symbol : getSymbol name = some { address := a, size := 104 }) (length : data.length = size)
    : ignoreEflags name (some getSymbol) size data
      = if a + 105 ≤ size then some (shiftTss a data) else none := by
  subst length
  have start : (List.range ((104 + (105 - 1)) / 105)).map (fun k => a + 105 * k) = [a] := rfl
  simp only [ignoreEflags, Option.bind_eq_bind, Option.bind_some, symbol, rewriteSymbol, start,
    mapM_cons, mapM_nil]
  by_cases present : a + 37 < data.length
  · have chunk : tssChunk data a
        = some ((data.drop a).take 35 ++ [0, 0] ++ (data.drop (a + 38)).take 67) := by
      have before : a + 36 < data.length := by omega
      simp [tssChunk, present, before]
    simp only [chunk, Option.bind_some, Option.pure_def, flatten_cons, flatten_nil, append_nil]
    exact if_congr (shiftTss_length present) rfl rfl
  · have chunk : tssChunk data a = none := by
      simp [tssChunk, List.getElem?_eq_none (Nat.not_lt.mp present)]
    rw [chunk, if_neg (by omega)]
    rfl

end

section

theorem maskRegs_clearResume (r : RegsState)
    : maskRegs (clearResume r) = clearResume (maskRegs r) := by
  simp [maskRegs, clearResume, Nat.and_assoc]

instance (emulators : List Nat) : RightCommutative (fun c e => normalizeCpu emulators e c) where
  right_comm c e e' := by
    unfold normalizeCpu
    congr 1
    split <;> split <;> simp [maskRegs_clearResume]

theorem normalizeCpu_again (emulators : List Nat) (c : Cpu) (e : Nat)
    : normalizeCpu emulators e (normalizeCpu emulators e c) = normalizeCpu emulators e c := by
  have fpu (f : FpuState) : ignoreFpu (ignoreFpu f) = ignoreFpu f := by
    simp [ignoreFpu, Function.comp_def]
  unfold normalizeCpu
  simp only [fpu]
  congr 1
  · split <;> simp [maskRegs, clearResume, Nat.and_assoc]
  · split <;> simp [Nat.or_assoc]

variable {dumps : List Loaded} {heap : Ref → Cpu}

/-- Another normalisation does not change the heap. -/
theorem finalHeap_again : finalHeap dumps (finalHeap dumps heap) = finalHeap dumps heap := by
  funext r
  by_cases used : uses dumps r = []
  · simp [finalHeap, touch_apply, used]
  · rw [finalHeap_used used, finalHeap_used used]
    generalize dumps.map (·.hdr.emulator) = emulators
    have outer (c : Cpu) (e : Nat)
        : normalizeCpu emulators e (keepMsrs (ignoreDebug c))
          = keepMsrs (ignoreDebug (normalizeCpu emulators e c)) := by
      unfold normalizeCpu ignoreDebug keepMsrs
      congr 1
      split <;> rfl
    rw [foldl_hom (fun c => keepMsrs (ignoreDebug c)) outer,
      Folds.foldl_again (normalizeCpu_again emulators)]
    generalize foldl _ (heap r) _ = c
    exact keepMsrs_again (ignoreDebug c)

end

/-- The emulators that are compared. -/
abbrev World.emulators (w : World) : List Nat := w.dumps.map (·.hdr.emulator)

/-- Where a kernel has its page tables and the TSSs of two exceptions. -/
structure Layout (getSymbol : Kernel) where
  pd : Symbol
  pt : Symbol
  tss05 : Nat
  tss32 : Nat
  pd_symbol : getSymbol "pd" = some pd
  pt_symbol : getSymbol "pt" = some pt
  tss05_symbol : getSymbol "tssEXCP05" = some { address := tss05, size := 104 }
  tss32_symbol : getSymbol "tssEXCP32" = some { address := tss32, size := 104 }
  entries : ∀ s ∈ [pd, pt], 4 ∣ s.size
  tables_apart
    : ∀ s ∈ [pd, pt], ∀ t ∈ [tss05, tss32], s.address + s.size ≤ t ∨ t + 104 ≤ s.address
  tss_apart : tss05 + 104 ≤ tss32 ∨ tss32 + 104 ≤ tss05

/-- Byte 35 of a TSS is 0, and the bytes from 38 on are all like the one behind the TSS. -/
def Settled (data : List UInt8) (t : Nat) : Prop :=
  t + 105 ≤ data.length
  ∧ data[t + 35]? = some 0
  ∧ ∀ x, t + 38 ≤ x → x < t + 104 → data[x]? = data[x + 1]?

namespace Layout

variable {getSymbol : Kernel} (layout : Layout getSymbol)

section

variable {emulators : List Nat} {data : List UInt8} {size : Nat}

def tss : List Nat := [layout.tss05, layout.tss32]

/-- Every TSS is followed by a byte. -/
def Fits (size : Nat) : Prop := ∀ t ∈ layout.tss, t + 105 ≤ size

instance (size : Nat) : Decidable (layout.Fits size) :=
  inferInstanceAs (Decidable (∀ t ∈ layout.tss, t + 105 ≤ size))

/-- A memory without the accessed bits, if BOCHS is compared. -/
def cleared (emulators : List Nat) (data : List UInt8) : List UInt8 :=
  if emulatorBochs ∈ emulators then clearAccessed layout.pt (clearAccessed layout.pd data)
  else data

def shifted (data : List UInt8) : List UInt8 := shiftTss layout.tss32 (shiftTss layout.tss05 data)

/-- Saved flags, which may differ. -/
def InFlags (x : Nat) : Prop := ∃ t ∈ layout.tss, t + 36 ≤ x ∧ x < t + 40

instance (x : Nat) : Decidable (layout.InFlags x) :=
  inferInstanceAs (Decidable (∃ t ∈ layout.tss, t + 36 ≤ x ∧ x < t + 40))

/-- What is to be compared of a byte. -/
def visible (emulators : List Nat) (data : List UInt8) (x : Nat) : Option UInt8 :=
  if layout.InFlags x then none else (layout.cleared emulators data)[x]?

variable {layout}

theorem cleared_length : (layout.cleared emulators data).length = data.length := by
  unfold cleared
  split
  · rw [clearAccessed_length, clearAccessed_length]
  · rfl

theorem getElem_shifted (room : layout.Fits data.length) (x : Nat)
    : (layout.shifted data)[x]?
      = if ∃ t ∈ layout.tss, t + 35 ≤ x ∧ x < t + 37 then some 0
        else if ∃ t ∈ layout.tss, t + 37 ≤ x ∧ x < t + 104 then data[x + 1]?
        else data[x]? := by
  have apart := layout.tss_apart
  simp only [Fits, tss, mem_pair, forall_eq_or_imp, forall_eq, exists_eq_or_imp, exists_eq_left]
    at room ⊢
  have room' : layout.tss32 + 105 ≤ (shiftTss layout.tss05 data).length := by
    rw [(shiftTss_length (by omega)).mpr room.1]
    exact room.2
  simp only [shifted, getElem_shiftTss room', getElem_shiftTss room.1]
  grind

theorem apart {t t' : Nat} (mem : t ∈ layout.tss) (mem' : t' ∈ layout.tss)
    : t = t' ∨ t + 104 ≤ t' ∨ t' + 104 ≤ t := by
  have apart := layout.tss_apart
  simp only [tss, mem_pair] at mem mem'
  omega

theorem shifted_length (room : layout.Fits data.length)
    : (layout.shifted data).length = data.length := by
  have first := room layout.tss05 (by simp [tss])
  have second := room layout.tss32 (by simp [tss])
  have length := (shiftTss_length (a := layout.tss05) (by omega)).mpr first
  rw [shifted, (shiftTss_length (by omega)).mpr (by omega), length]

section

variable (room : layout.Fits data.length)

include room

theorem room_shifted : layout.Fits (layout.shifted data).length := by
  rwa [shifted_length room]

theorem shifted_moved {t x : Nat} (mem : t ∈ layout.tss) (low : t + 37 ≤ x) (high : x < t + 104)
    : (layout.shifted data)[x]? = data[x + 1]? := by
  rw [getElem_shifted room, if_neg, if_pos ⟨t, mem, low, high⟩]
  rintro ⟨t', mem', low', high'⟩
  have apart := apart mem mem'
  omega

/-- If nothing but flags changes, and nothing the second time, the bytes that move are alike. -/
theorem settled_of_kept (kept : ∀ x, ¬ layout.InFlags x → (layout.shifted data)[x]? = data[x]?)
    (again : layout.shifted (layout.shifted data) = layout.shifted data) {t : Nat}
    (mem : t ∈ layout.tss)
    : Settled data t := by
  have apart := fun t' (mem' : t' ∈ layout.tss) => apart mem mem'
  have plain (x : Nat) (outside : x < t + 36 ∨ t + 40 ≤ x) (low : t ≤ x) (high : x < t + 104)
      : ¬ layout.InFlags x := by
    unfold InFlags
    grind
  have moved (x : Nat) (low : t + 37 ≤ x) (high : x < t + 104) :=
    shifted_moved room mem low high
  refine ⟨room t mem, ?_, ?_⟩
  · rw [← kept _ (plain (t + 35) (by omega) (by omega) (by omega)), getElem_shifted room,
      if_pos ⟨t, mem, by omega, by omega⟩]
  · intro x low high
    by_cases inFlags : x < t + 40
    · -- bytes 38 and 39 may change, but not a second time
      obtain ⟨y, rfl⟩ : ∃ y, x = y + 1 := ⟨x - 1, by omega⟩
      have twice := shifted_moved (room_shifted room) mem (by omega : t + 37 ≤ y) (by omega)
      rw [again, moved y (by omega) (by omega), moved (y + 1) (by omega) high] at twice
      exact twice
    · rw [← kept x (plain x (by omega) (by omega) high), moved x (by omega) high]

end

section

variable (settled : ∀ t ∈ layout.tss, Settled data t)

include settled

theorem room_of_settled : layout.Fits data.length := fun t mem => (settled t mem).1

theorem kept_of_settled {x : Nat} (outside : ¬ layout.InFlags x)
    : (layout.shifted data)[x]? = data[x]? := by
  rw [getElem_shifted (room_of_settled settled)]
  unfold InFlags at outside
  split
  next zero =>
    obtain ⟨t, mem, low, high⟩ := zero
    obtain rfl : x = t + 35 := by grind
    exact (settled t mem).2.1.symm
  next =>
    split
    next moved =>
      obtain ⟨t, mem, low, high⟩ := moved
      exact ((settled t mem).2.2 x (by grind) high).symm
    · rfl

theorem shifted_again : layout.shifted (layout.shifted data) = layout.shifted data := by
  have room := room_of_settled settled
  refine ext_getElem? (fun x => ?_)
  by_cases moved : ∃ t ∈ layout.tss, t + 37 ≤ x ∧ x < t + 104
  · obtain ⟨t, mem, low, high⟩ := moved
    rw [shifted_moved (room_shifted room) mem low high, shifted_moved room mem low high]
    rcases Nat.lt_or_eq_of_le (Nat.succ_le_of_lt high) with inner | last
    · -- the byte has moved once already, and its successor is the same
      rw [shifted_moved room mem (by omega) inner]
      exact ((settled t mem).2.2 _ (by omega) inner).symm
    · rw [getElem_shifted room, if_neg, if_neg] <;>
        rintro ⟨t', mem', _, _⟩ <;> have apart := apart mem mem' <;> omega
  · rw [getElem_shifted (room_shifted room), if_neg moved]
    split
    next zero => rw [getElem_shifted room, if_pos zero]
    · rfl

end

/-- The accessed bits stay cleared. -/
theorem cleared_shifted
    (room : layout.Fits (layout.cleared emulators data).length)
    : layout.cleared emulators (layout.shifted (layout.cleared emulators data))
      = layout.shifted (layout.cleared emulators data) := by
  have bytes := getElem_shifted room
  unfold cleared at bytes ⊢
  split
  next bochs =>
    simp only [if_pos bochs] at bytes
    refine ext_getElem? (fun x => ?_)
    by_cases entry : ∃ s ∈ [layout.pd, layout.pt], EntryAt s x
    · -- entries are never in a TSS
      have apart (t : Nat) (mem : t ∈ layout.tss) : x < t ∨ t + 104 ≤ x := by
        obtain ⟨s, table, low, high, _⟩ := entry
        have apart := layout.tables_apart s table t mem
        omega
      have same := bytes x
      rw [if_neg (by grind), if_neg (by grind)] at same
      simp only [getElem_clearAccessed, same, Option.map_map]
      congr 1
      funext b
      simp only [Function.comp_apply]
      split <;> split <;> simp [UInt8.and_assoc]
    · simp only [mem_pair, exists_eq_or_imp, exists_eq_left, not_or] at entry
      rw [clearAccessed_outside entry.2, clearAccessed_outside entry.1]
  · rfl

theorem normMem_eq (length : data.length = size)
    (inside : ∀ s ∈ [layout.pd, layout.pt], s.address + s.size ≤ size)
    : normMem emulators (some getSymbol) size data
      = if layout.Fits size then some (layout.shifted (layout.cleared emulators data))
        else none := by
  have accessed : ignoreAccessed emulators (some getSymbol) size data
      = some (layout.cleared emulators data) := by
    unfold ignoreAccessed cleared
    split
    · have pd := rewriteTable_eq length (layout.entries _ (by simp)) (inside layout.pd (by simp))
      have pt := rewriteTable_eq ((clearAccessed_length layout.pd).trans length)
        (layout.entries _ (by simp)) (inside layout.pt (by simp))
      simp only [layout.pd_symbol, layout.pt_symbol, Option.bind_eq_bind, Option.bind_some, pd, pt]
    · rfl
  have length' : (layout.cleared emulators data).length = size := cleared_length.trans length
  rw [normMem, accessed, Option.bind_some, ignoreEflags_eq layout.tss05_symbol length']
  simp only [Fits, tss, mem_pair, forall_eq_or_imp, forall_eq]
  by_cases room : layout.tss05 + 105 ≤ size
  · have length'' : (shiftTss layout.tss05 (layout.cleared emulators data)).length = size := by
      rw [(shiftTss_length (by omega)).mpr (by omega), length']
    rw [if_pos room, Option.bind_some, ignoreEflags_eq layout.tss32_symbol length'']
    simp only [room, true_and]
    rfl
  · simp [room]

end

section

variable {w : World}

/-- All dumps have their memory, and the page tables are in it. -/
def Holds (w : World) : Prop :=
  ∀ d ∈ w.dumps,
    d.mem.length = d.hdr.memSize ∧ ∀ s ∈ [layout.pd, layout.pt], s.address + s.size ≤ d.hdr.memSize

/-- The normalisation keeps what is to be compared, so that no difference is hidden or moved,
and is the same if it is done twice.
-/
def Faithful (w : World) : Prop :=
  ∃ w',
    normalizeStates (some getSymbol) w = some w'
    ∧ (∀ p ∈ w.dumps.zip w'.dumps, ∀ x,
        layout.visible w.emulators p.2.mem x = layout.visible w.emulators p.1.mem x)
    ∧ (∀ p ∈ w.dumps.zip w'.dumps, ∀ q ∈ w.dumps.zip w'.dumps, ∀ x,
        layout.visible w.emulators p.2.mem x = layout.visible w.emulators q.2.mem x
        ↔ layout.visible w.emulators p.1.mem x = layout.visible w.emulators q.1.mem x)
    ∧ normalizeStates (some getSymbol) w' = some w'

def AllSettled (w : World) : Prop :=
  ∀ d ∈ w.dumps, ∀ t ∈ layout.tss, Settled (layout.cleared w.emulators d.mem) t

/-- A dump after its normalisation. -/
def finished (emulators : List Nat) (d : Loaded) : Loaded :=
  { d with mem := layout.shifted (layout.cleared emulators d.mem) }

def normal (w : World) : World where
  heap := finalHeap w.dumps w.heap
  dumps := w.dumps.map (layout.finished w.emulators)

def Room (w : World) : Prop := ∀ d ∈ w.dumps, layout.Fits d.hdr.memSize

variable {layout}

theorem normalizeStates_iff {w' : World} (holds : layout.Holds w)
    : normalizeStates (some getSymbol) w = some w' ↔ layout.Room w ∧ layout.normal w = w' := by
  rw [normalizeStates_eq, Option.map_eq_some_iff]
  have each (d : Loaded) (mem : d ∈ w.dumps)
      : d.mapMem (normMem w.emulators (some getSymbol))
        = if layout.Fits d.hdr.memSize then some (layout.finished w.emulators d) else none := by
    obtain ⟨length, inside⟩ := holds d mem
    rw [Loaded.mapMem, normMem_eq length inside]
    split <;> rfl
  constructor
  · rintro ⟨dumps, made, rfl⟩
    have room : layout.Room w := by
      intro d mem
      obtain ⟨d', normal⟩ := Folds.exists_mapM.mp ⟨dumps, made⟩ d mem
      rw [each d mem] at normal
      exact (Option.ite_none_right_eq_some.mp normal).1
    rw [Folds.mapM_eq_some_map (fun d mem => (each d mem).trans (if_pos (room d mem)))]
      at made
    cases made
    exact ⟨room, rfl⟩
  · rintro ⟨room, rfl⟩
    exact ⟨_, Folds.mapM_eq_some_map
      (fun d mem => (each d mem).trans (if_pos (room d mem))), rfl⟩

section

variable (holds : layout.Holds w) (room : layout.Room w)

include holds room

theorem room_cleared {d : Loaded} (mem : d ∈ w.dumps)
    : layout.Fits (layout.cleared w.emulators d.mem).length := by
  rw [cleared_length, (holds d mem).1]
  exact room d mem

theorem cleared_finished {d : Loaded} (mem : d ∈ w.dumps)
    : layout.cleared w.emulators (layout.finished w.emulators d).mem
      = (layout.finished w.emulators d).mem :=
  cleared_shifted (room_cleared holds room mem)

/-- The second normalisation shifts the TSSs again. -/
theorem normalizeStates_again
    : normalizeStates (some getSymbol) (layout.normal w) = some (layout.normal w)
      ↔ ∀ d ∈ w.dumps,
          layout.shifted (layout.finished w.emulators d).mem
          = (layout.finished w.emulators d).mem := by
  have emulators : (layout.normal w).emulators = w.emulators := by
    simp only [World.emulators, normal, map_map]
    rfl
  have heap : finalHeap (layout.normal w).dumps = finalHeap w.dumps := by
    funext heap
    rw [finalHeap, show (layout.normal w).dumps.map (·.hdr.emulator) = _ from emulators]
    simp only [normal, touch, foldl_map]
    rfl
  have holds' : layout.Holds (layout.normal w) := by
    intro d' mem'
    obtain ⟨d, mem, rfl⟩ := mem_map.mp mem'
    have length := shifted_length (room_cleared holds room mem)
    exact ⟨length.trans (cleared_length.trans (holds d mem).1), (holds d mem).2⟩
  have room' : layout.Room (layout.normal w) := by
    intro d' mem'
    obtain ⟨d, mem, rfl⟩ := mem_map.mp mem'
    exact room d mem
  rw [normalizeStates_iff holds', and_iff_right room']
  conv_lhs => lhs; rw [normal, emulators, heap]
  simp only [normal, finalHeap_again, World.mk.injEq, true_and, map_map, map_inj_left]
  refine forall₂_congr (fun d mem => ?_)
  have stays := cleared_finished holds room mem
  simp only [Function.comp_apply, finished, Loaded.mk.injEq, true_and] at stays ⊢
  rw [stays]

end

theorem settled_of_faithful (holds : layout.Holds w) (faithful : layout.Faithful w)
    : layout.AllSettled w := by
  obtain ⟨w', res, kept, _, again⟩ := faithful
  obtain ⟨room, rfl⟩ := (normalizeStates_iff holds).mp res
  rw [normalizeStates_again holds room] at again
  intro d mem t
  refine settled_of_kept (room_cleared holds room mem) ?_ (again d mem)
  intro x outside
  have place := mem_map_of_mem (f := fun d => (d, layout.finished w.emulators d)) mem
  rw [map_prod_left_eq_zip] at place
  have seen := kept _ place x
  simp only [visible, if_neg outside, cleared_finished holds room mem] at seen
  exact seen

/-- The normalisation is faithful exactly if in all memories byte 35 of each TSS is 0, and
bytes 38 to 103 are all the same as the byte after the TSS: those are the bytes that move.
-/
theorem normalizeStates_faithful_iff (holds : layout.Holds w)
    : layout.Faithful w ↔ layout.AllSettled w := by
  refine ⟨settled_of_faithful holds, fun settled => ?_⟩
  have room : layout.Room w := by
    intro d member
    rw [← (holds d member).1, ← cleared_length]
    exact room_of_settled (settled d member)
  have kept : ∀ p ∈ w.dumps.zip (layout.normal w).dumps, ∀ x,
      layout.visible w.emulators p.2.mem x = layout.visible w.emulators p.1.mem x := by
    intro p place x
    rw [normal, ← map_prod_left_eq_zip] at place
    obtain ⟨d, member, rfl⟩ := mem_map.mp place
    simp only [visible, cleared_finished holds room member]
    split
    · rfl
    next outside => exact kept_of_settled (settled d member) outside
  refine ⟨_, (normalizeStates_iff holds).mpr ⟨room, rfl⟩, kept, ?_, ?_⟩
  · intro p member q member' x
    rw [kept p member, kept q member']
  · rw [normalizeStates_again holds room]
    exact fun d member => shifted_again (settled d member)

end

end Layout

def packedKernel : Kernel
  | "pd" => some { address := 0, size := 4 }
  | "pt" => some { address := 4, size := 4 }
  | "tssEXCP05" => some { address := 8, size := 104 }
  | "tssEXCP32" => some { address := 112, size := 104 }
  | _ => none

def packedLayout : Layout packedKernel where
  pd := { address := 0, size := 4 }
  pt := { address := 4, size := 4 }
  tss05 := 8
  tss32 := 112
  pd_symbol := rfl
  pt_symbol := rfl
  tss05_symbol := rfl
  tss32_symbol := rfl
  entries := by decide
  tables_apart := by decide
  tss_apart := by decide

/-- The dumps of a run without BOCHS. -/
def packedWorld (mems : List (List UInt8)) : World where
  heap := default
  dumps := mems.map fun mem =>
    { hdr := { (default : Header) with emulator := 2, memSize := 217 }, cpus := [], mem }

theorem packed_holds {mems : List (List UInt8)} (sized : ∀ mem ∈ mems, mem.length = 217)
    : packedLayout.Holds (packedWorld mems) := by
  refine forall_mem_map.mpr fun mem member => ⟨sized mem member, ?_⟩
  exact (by decide : ∀ s ∈ [packedLayout.pd, packedLayout.pt], s.address + s.size ≤ 217)

/-- Byte 35 of a TSS is overwritten. -/
theorem eflags_overwrite_byte
    : packedLayout.Holds (packedWorld [replicate 217 1])
      ∧ ¬ packedLayout.Faithful (packedWorld [replicate 217 1]) := by
  have holds : packedLayout.Holds (packedWorld [replicate 217 1]) :=
    packed_holds (by decide +kernel)
  refine ⟨holds, fun faithful => ?_⟩
  have settled := Layout.settled_of_faithful holds faithful _ mem_cons_self 8 mem_cons_self
  cases settled.2.1

/-- The dumps differ in a byte of the page directory and in one of a TSS. -/
def packedDumps : List (List UInt8) :=
  [1 :: replicate 216 0, replicate 8 0 ++ 5 :: replicate 208 0]

theorem packed_settled : ∀ mem ∈ packedDumps, ∀ t ∈ packedLayout.tss, Settled mem t := by
  unfold Settled
  decide +kernel

theorem normalizeStates_faithful_iff_packed : packedLayout.Faithful (packedWorld packedDumps) :=
  (Layout.normalizeStates_faithful_iff (packed_holds (by decide +kernel))).mpr
    (forall_mem_map.mpr packed_settled)

end FastPokeEmu.CpuState
