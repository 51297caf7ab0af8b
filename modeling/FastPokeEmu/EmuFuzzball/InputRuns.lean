import FastPokeEmu.EmuFuzzball.SymbolicInputs
import FastPokeEmu.Library.Folds

/-! What the loops of `run-emu-fuzzball.py` add to the command line and to the two lists of
bytes, as one list of inputs in the order in which they are processed.
-/

namespace FastPokeEmu.SymbolicInputs

open Numerals LazyMemory InputNames List

/-- A byte that the script processes; mask `0xff` makes it concrete. -/
structure Input where
  haddr : Nat
  name : List Char
  value : Nat
  mask : Nat
  mindist : Bool

/-- The byte gets a `-symbolic-byte` option. -/
def Input.symbolic (x : Input) : Bool := x.mask < 0xff

/-- The options that declare bytes, at once or lazily, or constrain them. -/
def CmdOption.declaring : CmdOption → Bool
  | .symbolicByte .. => true
  | .extraCondition .. => true
  | .symbolicBytesLazy .. => true
  | _ => false

def Input.options (x : Input) : List CmdOption :=
  if x.symbolic then
    .symbolicByte x.haddr x.name
      :: (if x.mask > 0 then [.extraCondition x.name x.mask (x.value &&& x.mask)] else [])
  else []

/-- The state after processing some inputs, up to options of other kinds. -/
structure Puts (s : State) (xs : List Input) (s' : State) : Prop where
  symbolic : s'.symbolicBytes = s.symbolicBytes ++ (xs.filter Input.symbolic).map Input.haddr
  concrete
    : s'.concreteBytes = s.concreteBytes ++ (xs.filter (!·.symbolic)).map Input.haddr
  options
    : s'.cmdline.filter CmdOption.declaring
      = s.cmdline.filter CmdOption.declaring ++ xs.flatMap Input.options

section

variable {s s' s'' : State} {xs ys : List Input}

theorem Puts.refl (s : State) : Puts s [] s := ⟨by simp, by simp, by simp⟩

theorem Puts.trans (first : Puts s xs s') (second : Puts s' ys s'') : Puts s (xs ++ ys) s'' where
  symbolic := by simp [second.symbolic, first.symbolic]
  concrete := by simp [second.concrete, first.concrete]
  options := by simp [second.options, first.options]

theorem Puts.add (puts : Puts s xs s') {options : List CmdOption}
    (others : ∀ o ∈ options, o.declaring = false)
    : Puts s xs (s'.add options) where
  symbolic := puts.symbolic
  concrete := puts.concrete
  options := by
    have none_left : options.filter CmdOption.declaring = [] := by simpa using others
    rw [State.add, filter_append, none_left, append_nil, puts.options]

theorem puts_makeByteSymbolic (s : State) (x : Input)
    : Puts s [x] (makeByteSymbolic s x.haddr x.name x.value x.mask x.mindist) := by
  by_cases symbolic : x.mask < 0xff
  · rw [makeByteSymbolic, if_pos symbolic]
    refine ⟨by simp [Input.symbolic, symbolic], by simp [Input.symbolic, symbolic], ?_⟩
    have last : (if x.mindist then [CmdOption.preferredValue x.name x.value] else []).filter
        CmdOption.declaring = [] := by
      cases x.mindist <;> simp [CmdOption.declaring]
    rw [filter_append, filter_append, filter_append, last]
    by_cases pinned : x.mask > 0 <;>
      simp [Input.options, Input.symbolic, symbolic, pinned, CmdOption.declaring, List.filter]
  · rw [makeByteSymbolic, if_neg symbolic]
    exact ⟨by simp [Input.symbolic, symbolic], by simp [Input.symbolic, symbolic],
      by simp [Input.options, Input.symbolic, symbolic]⟩

theorem puts_foldl {α : Type} {step : State → α → State} {f : α → Input} {is : List α}
    (each : ∀ i ∈ is, ∀ s, Puts s [f i] (step s i)) (s : State)
    : Puts s (is.map f) (is.foldl step s) := by
  induction is generalizing s with
  | nil => exact Puts.refl s
  | cons i is ih =>
    have later := ih (fun j mem => each j (mem_cons_of_mem _ mem)) (step s i)
    exact (each i mem_cons_self s).trans later

/-- Process some inputs in turn. -/
def State.puts (s : State) (xs : List Input) : State :=
  xs.foldl (fun s x => makeByteSymbolic s x.haddr x.name x.value x.mask x.mindist) s

theorem puts_puts (s : State) (xs : List Input) : Puts s xs (s.puts xs) := by
  have puts := puts_foldl (f := id) (fun x (_ : x ∈ xs) s => puts_makeByteSymbolic s x) s
  rwa [map_id] at puts

theorem puts_foldlM {α : Type} {step : State → α → Option State} {f : α → List Input}
    {is : List α} (each : ∀ i ∈ is, ∀ s, ∃ s', step s i = some s' ∧ Puts s (f i) s') (s : State)
    : ∃ s', is.foldlM step s = some s' ∧ Puts s (is.flatMap f) s' := by
  induction is generalizing s with
  | nil => exact ⟨s, rfl, Puts.refl s⟩
  | cons i is ih =>
    obtain ⟨s', first, puts⟩ := each i mem_cons_self s
    obtain ⟨s'', rest, later⟩ := ih (fun j mem => each j (mem_cons_of_mem _ mem)) s'
    refine ⟨s'', ?_, puts.trans later⟩
    rw [foldlM_cons, first]
    exact rest

end

/-- An input that belongs to a register. -/
def OfRegister (script : Script) (x : Input) : Prop :=
  ∃ r size a n i, (r, size, a) ∈ script.cpuRegs ∧ i < max size 2 ∧ x.haddr = a + i
    ∧ x.name = regName r n i ∧ r ≠ [] ∧ r.head? ≠ some 'm'

section

variable {script : Script} {snap : Snapshot} {s s' : State}

theorem puts_makeRegSymbolic {haddr size value mask : Nat} {name : List Char} {mindist : Bool}
    (res : makeRegSymbolic s haddr name size value mask mindist = some s')
    : ∃ xs, Puts s xs s'
      ∧ ∀ x ∈ xs, ∃ i < size, x.haddr = haddr + i ∧ x.name = regName name size i := by
  obtain ⟨values, _, res⟩ := Option.bind_eq_some_iff.mp res
  obtain ⟨masks, _, res⟩ := Option.bind_eq_some_iff.mp res
  let f := fun i => (⟨haddr + i, regName name size i, values.getD i 0, masks.getD i 0, mindist⟩
    : Input)
  refine ⟨(List.range size).map f, ?_, ?_⟩
  · rw [← Option.some.inj res]
    exact puts_foldl (f := f) (fun i _ s => puts_makeByteSymbolic s (f i)) s
  · intro x mem
    obtain ⟨i, inside, rfl⟩ := mem_map.mp mem
    exact ⟨i, mem_range.mp inside, rfl, rfl⟩

theorem startsWith_cons {r pat : List Char} {c : Char}
    (starts : startsWith r (c :: pat) = true) (other : c ≠ 'm')
    : r ≠ [] ∧ r.head? ≠ some 'm' := by
  obtain ⟨rest, rfl⟩ := startsWith_iff.mp starts
  exact ⟨cons_ne_nil _ _, fun same => other (Option.some.inj same)⟩

theorem puts_makeRegister {r pat : List Char} {c : Char} {size a n value mask dumped : Nat}
    {mindist : Bool} (mem : (r, size, a) ∈ script.cpuRegs)
    (starts : startsWith r (c :: pat) = true) (other : c ≠ 'm') (enough : n ≤ max size 2)
    (res : makeRegister s a r n value mask mindist dumped = some s')
    : ∃ xs, Puts s xs s' ∧ ∀ x ∈ xs, OfRegister script x := by
  obtain ⟨nonempty, kind⟩ := startsWith_cons starts other
  obtain ⟨t, made, rfl⟩ := Option.map_eq_some_iff.mp res
  obtain ⟨xs, puts, all⟩ := puts_makeRegSymbolic made
  refine ⟨xs, puts.add ?_, ?_⟩
  · intro o inside
    rw [mem_singleton.mp inside]
    rfl
  · intro x inside
    obtain ⟨i, small, address, name⟩ := all x inside
    exact ⟨r, size, a, n, i, mem, by omega, address, name, nonempty, kind⟩

theorem puts_branch {P : Prop} [Decidable P] {taken : Option State}
    (branch : P → taken = some s' → ∃ xs, Puts s xs s' ∧ ∀ x ∈ xs, OfRegister script x)
    (res : (if P then taken else some s) = some s')
    : ∃ xs, Puts s xs s' ∧ ∀ x ∈ xs, OfRegister script x := by
  split at res
  next holds =>
    exact branch holds res
  · cases res
    exact ⟨[], Puts.refl s, fun x inside => (not_mem_nil inside).elim⟩

theorem puts_registerStep {reg : List Char × Nat × Nat} (mem : reg ∈ script.cpuRegs)
    (res : registerStep script snap s reg = some s')
    : ∃ xs, Puts s xs s' ∧ ∀ x ∈ xs, OfRegister script x := by
  obtain ⟨r, size, a⟩ := reg
  simp only [registerStep, Option.bind_eq_bind, Option.bind_eq_some_iff] at res
  obtain ⟨s₁, general, s₂, segment, s₃, control, debug⟩ := res
  obtain ⟨xs₁, puts₁, all₁⟩ := puts_branch
    (fun holds => puts_makeRegister mem holds.1 (by decide) (Nat.le_max_left size 2)) general
  obtain ⟨xs₂, puts₂, all₂⟩ : ∃ xs, Puts s₁ xs s₂ ∧ ∀ x ∈ xs, OfRegister script x := by
    refine puts_branch (fun holds made => ?_) segment
    split at made
    · exact puts_makeRegister mem holds.1 (by decide) (Nat.le_max_right size 2) made
    · cases made
  obtain ⟨xs₃, puts₃, all₃⟩ := puts_branch
    (fun holds => puts_makeRegister mem holds.1 (by decide) (Nat.le_max_left size 2)) control
  obtain ⟨xs₄, puts₄, all₄⟩ := puts_branch
    (fun holds => puts_makeRegister mem holds.1 (by decide) (Nat.le_max_left size 2)) debug
  refine ⟨xs₁ ++ (xs₂ ++ (xs₃ ++ xs₄)), puts₁.trans (puts₂.trans (puts₃.trans puts₄)), ?_⟩
  intro x inside
  simp only [mem_append] at inside
  rcases inside with inside | inside | inside | inside
  · exact all₁ x inside
  · exact all₂ x inside
  · exact all₃ x inside
  · exact all₄ x inside

def start : State := { cmdline := [], symbolicBytes := [], concreteBytes := [] }

theorem puts_registers (res : registers script snap = some s)
    : ∃ xs, Puts start xs s ∧ ∀ x ∈ xs, OfRegister script x := by
  refine Folds.foldlM_induction
    (P := fun _ t => ∃ xs, Puts start xs t ∧ ∀ x ∈ xs, OfRegister script x) ?_ ?_ res
  · exact ⟨[], Puts.refl start, fun x inside => (not_mem_nil inside).elim⟩
  · rintro done reg rest t t' whole ⟨xs, puts, all⟩ step
    have mem : reg ∈ script.cpuRegs := by rw [whole]; simp
    obtain ⟨ys, later, others⟩ := puts_registerStep mem step
    refine ⟨xs ++ ys, puts.trans later, ?_⟩
    intro x inside
    rcases mem_append.mp inside with inside | inside
    · exact all x inside
    · exact others x inside

end

section

variable (script : Script) (snap : Snapshot)

/-- Value of a byte of the snapshot. -/
def byteOf (gaddr : Nat) : Nat := (snap.mem.getD gaddr 0).toNat

/-- The bytes of one entry, each with its own mask. -/
def entryInputs (gaddr : Nat) (sym : Bytes) (masks : List Nat) (mindist : Bool)
    : List Input :=
  (List.range masks.length).map
    (fun k =>
      { haddr := gaddr + script.physMem.1 + k
        name := memName (gaddr + k) (byteSym sym k)
        value := byteOf snap (gaddr + k)
        mask := masks.getD k 0
        mindist })

/-- The masks of an entry that is symbolic only under a condition. -/
def masksIf (P : Prop) [Decidable P] (masks : List Nat) : List Nat :=
  if P then masks else replicate masks.length 0xff

theorem length_masksIf (P : Prop) [Decidable P] (masks : List Nat)
    : (masksIf P masks).length = masks.length := by
  rw [masksIf]
  split
  · rfl
  · exact length_replicate

variable {script snap}

theorem length_slice {data : Bytes} {a n : Nat} (inside : a + n ≤ data.length)
    : (slice data a (a + n)).length = n := by
  rw [slice, length_drop, length_take]
  omega

theorem getD_slice (data : Bytes) {a n k : Nat} (small : k < n)
    : (slice data a (a + n)).getD k 0 = data.getD (a + k) 0 := by
  rw [slice, getD_eq_getElem?_getD, getD_eq_getElem?_getD, List.getElem?_drop,
    List.getElem?_take_of_lt (by omega)]

theorem slice_slice (data : Bytes) (x : Nat) {a b n : Nat} (inside : b ≤ n)
    : slice (slice data x (x + n)) a b = slice data (x + a) (x + b) := by
  rw [slice, slice, slice, take_drop, take_take, drop_drop, Nat.min_eq_left (by omega)]

variable (script) in
/-- An entry that is symbolic only under a condition. -/
theorem entry_puts {P : Prop} [Decidable P] {gaddr : Nat} {masks : List Nat}
    (inside : gaddr + masks.length ≤ snap.mem.length) (sym : Bytes) (mindist : Bool) (s : State)
    : (if P then
        makeMemSymbolic s (gaddr + script.physMem.1) gaddr sym
          (slice snap.mem gaddr (gaddr + masks.length)) masks mindist
      else
        some (makeMemConcrete s (gaddr + script.physMem.1)
          (slice snap.mem gaddr (gaddr + masks.length)).length))
      = some (s.puts (entryInputs script snap gaddr sym (masksIf P masks) mindist)) := by
  have length := length_slice inside
  rw [State.puts, entryInputs, foldl_map, length_masksIf, length]
  by_cases holds : P
  · rw [if_pos holds, makeMemSymbolic, length, if_pos rfl]
    refine congrArg some (foldl_ext _ _ _ fun s k mem => ?_)
    -- inside the loop's range the slice reads the memory
    simp only [masksIf, if_pos holds, getD_slice snap.mem (mem_range.mp mem)]
    rfl
  · rw [if_neg holds]
    refine congrArg some (foldl_ext _ _ _ fun s k mem => ?_)
    have full : (masksIf P masks).getD k 0 = 0xff := by
      rw [getD_eq_getElem?_getD, masksIf, if_neg holds,
        List.getElem?_replicate_of_lt (mem_range.mp mem)]
      rfl
    rw [makeByteSymbolic, if_neg (by rw [full]; exact Nat.lt_irrefl _)]

end

section

variable (script : Script) (snap : Snapshot)

/-- A double word of the snapshot. -/
def wordOf (x : Nat) : Nat := (deref4 snap.mem x).getD 0

/-- Physical address of the page directory. -/
def directory : Nat := snap.cr3 &&& pagingMask

/-- The present bit of a directory or table entry. -/
def Present (entry : Nat) : Prop := wordOf snap entry &&& 1 ≠ 0

instance (entry : Nat) : Decidable (Present snap entry) := inferInstanceAs (Decidable (_ ≠ _))

/-- Directory entry `i`. -/
def pdeOf (i : Nat) : Nat := directory snap + i * 4

/-- The page table that directory entry `i` points to. -/
def tableOf (i : Nat) : Nat := wordOf snap (pdeOf snap i) &&& pagingMask

/-- The first directory entry that points to its page table. -/
def FirstUse (i : Nat) : Prop :=
  Present snap (pdeOf snap i)
  ∧ ∀ k < i, Present snap (pdeOf snap k) → tableOf snap k ≠ tableOf snap i

instance (i : Nat) : Decidable (FirstUse snap i) := inferInstanceAs (Decidable (_ ∧ _))

/-- Entry `i` of a descriptor table. -/
def descriptorInputs (table : TableRegister) (kind : String) (flag : Bool) (i : Nat)
    : List Input :=
  entryInputs script snap (table.base + i * 8) (entrySym kind i 8) (masksIf (flag = true) mask)
    true

/-- An entry of the page directory or of a page table. -/
def pageEntryInputs (entry : Nat) (sym : Bytes) (mindist : Bool) : List Input :=
  entryInputs script snap entry sym
    (masksIf (Present snap entry ∧ script.symbolicPt = true) pteMask) mindist

def pdeInputs (i : Nat) : List Input :=
  pageEntryInputs script snap (pdeOf snap i) (entrySym "PDE" i 4) false

/-- The page table that directory entry `i` points to. -/
def tableInputs (i : Nat) : List Input :=
  (List.range (2 ^ 10)).flatMap
    (fun j => pageEntryInputs script snap (tableOf snap i + j * 4) (entrySym "PTE" i 4) true)

/-- A directory entry, with its page table the first time. -/
def pageInputs (i : Nat) : List Input :=
  pdeInputs script snap i ++ if FirstUse snap i then tableInputs script snap i else []

def memoryInputs : List Input :=
  snap.gdtr.entries.flatMap (descriptorInputs script snap snap.gdtr "GDT" script.symbolicGdt)
  ++ (snap.idtr.entries.flatMap
      (descriptorInputs script snap snap.idtr "IDT" script.symbolicIdt)
    ++ (List.range (2 ^ 10)).flatMap (pageInputs script snap))

/-- An address in a range, given by its first address and its length. -/
def Has (range : Nat × Nat) (a : Nat) : Prop := range.1 ≤ a ∧ a < range.1 + range.2

/-- Ranges of the distinct page tables. -/
def pageRanges : List (Nat × Nat) :=
  (((List.range (2 ^ 10)).filter (fun i => Present snap (pdeOf snap i))).map
    (tableOf snap)).dedup.map (fun t => (t, 2 ^ 12))

/-- Ranges of the descriptor tables, the page directory and the distinct page tables. -/
def tables : List (Nat × Nat) :=
  (snap.gdtr.base, snap.gdtr.limit)
    :: (snap.idtr.base, snap.idtr.limit)
    :: (directory snap, 2 ^ 12)
    :: pageRanges snap

variable {script snap}

theorem mem_tables_gdt : (snap.gdtr.base, snap.gdtr.limit) ∈ tables snap := by
  simp [tables]

theorem mem_tables_idt : (snap.idtr.base, snap.idtr.limit) ∈ tables snap := by
  simp [tables]

theorem mem_tables_directory : (directory snap, 2 ^ 12) ∈ tables snap := by
  simp [tables]

theorem mem_pageRanges {i : Nat} (small : i < 2 ^ 10) (present : Present snap (pdeOf snap i))
    : (tableOf snap i, 2 ^ 12) ∈ pageRanges snap := by
  refine mem_map_of_mem (mem_dedup.mpr (mem_map_of_mem ?_))
  exact mem_filter.mpr ⟨mem_range.mpr small, by simpa using present⟩

theorem mem_tables_of_page {range : Nat × Nat} (mem : range ∈ pageRanges snap)
    : range ∈ tables snap :=
  mem_cons_of_mem _ (mem_cons_of_mem _ (mem_cons_of_mem _ mem))

theorem mem_entries {table : TableRegister} {i : Nat}
    : i ∈ table.entries ↔ 1 ≤ i ∧ (i + 1) * 8 ≤ table.limit := by
  rw [TableRegister.entries, mem_range'_1]
  omega

theorem le_of_has {range : Nat × Nat} {bound a n : Nat}
    (inside : ∀ a, Has range a → a < bound) (first : range.1 ≤ a) (some : 0 < n)
    (last : a + n ≤ range.1 + range.2)
    : a + n ≤ bound := by
  have reached := inside (a + n - 1) ⟨by omega, by omega⟩
  omega

theorem descriptor_slice {table : TableRegister} {i : Nat} (entry : i ∈ table.entries)
    : slice (table.data snap.mem) (i * 8) ((i + 1) * 8)
      = slice snap.mem (table.base + i * 8) (table.base + i * 8 + mask.length) := by
  rw [TableRegister.data, slice_slice _ _ (mem_entries.mp entry).2, Nat.add_mul, ← Nat.add_assoc]
  rfl

theorem State.add_nil (s : State) : s.add [] = s := by rw [State.add, append_nil]

/-- An option for a descriptor cache. -/
def CmdOption.Derived (o : CmdOption) : Prop :=
  ∃ haddr cond, o = .symbolicByteExprFromFile haddr cond

/-- Options for the descriptor caches follow the bytes of a segment descriptor. -/
theorem derived_options (script : Script) (ga : Nat) (sym data : Bytes) (descs : List DescCache)
    (s : State)
    : ∃ options,
        descs.foldl (fun s desc => s.add (makeExtraCondDesc script s ga sym data desc)) s
          = s.add options
        ∧ ∀ o ∈ options, o.Derived := by
  induction descs generalizing s with
  | nil => exact ⟨[], s.add_nil.symm, forall_mem_nil _⟩
  | cons desc descs ih =>
    obtain ⟨options, folded, all⟩ := ih (s.add (makeExtraCondDesc script s ga sym data desc))
    refine ⟨makeExtraCondDesc script s ga sym data desc ++ options,
      folded.trans (by simp only [State.add, append_assoc]), ?_⟩
    refine forall_mem_append.mpr ⟨fun o mem => ?_, all⟩
    obtain ⟨line, _, rfl⟩ := mem_map.mp mem
    exact ⟨_, _, rfl⟩

/-- A step processes the inputs of the entry; options for the descriptor caches may follow. -/
def Processes (step : State → Nat → Option State) (i : Nat) (xs : List Input) : Prop :=
  ∀ s, ∃ options, step s i = some ((s.puts xs).add options) ∧ ∀ o ∈ options, o.Derived

theorem Processes.puts {step : State → Nat → Option State} {i : Nat} {xs : List Input}
    (processes : Processes step i xs) (s : State)
    : ∃ s', step s i = some s' ∧ Puts s xs s' := by
  obtain ⟨options, made, derived⟩ := processes s
  refine ⟨_, made, (puts_puts s xs).add fun o mem => ?_⟩
  obtain ⟨haddr, cond, rfl⟩ := derived o mem
  rfl

theorem processes_gdtStep {i : Nat} (entry : i ∈ snap.gdtr.entries)
    (inside : snap.gdtr.base + i * 8 + mask.length ≤ snap.mem.length)
    : Processes (gdtStep script snap) i
        (descriptorInputs script snap snap.gdtr "GDT" script.symbolicGdt i) := by
  intro s
  have puts := entry_puts script (P := script.symbolicGdt = true) inside (entrySym "GDT" i 8) true s
  simp only [gdtStep, descriptor_slice entry]
  by_cases flag : script.symbolicGdt = true
  · rw [if_pos flag] at puts ⊢
    rw [puts]
    obtain ⟨options, folded, all⟩ := derived_options script _ _ _ _ (s.puts _)
    exact ⟨options, congrArg some folded, all⟩
  · rw [if_neg flag] at puts ⊢
    exact ⟨[], puts.trans (congrArg some (State.add_nil _).symm), forall_mem_nil _⟩

theorem processes_idtStep {i : Nat} (entry : i ∈ snap.idtr.entries)
    (inside : snap.idtr.base + i * 8 + mask.length ≤ snap.mem.length)
    : Processes (idtStep script snap) i
        (descriptorInputs script snap snap.idtr "IDT" script.symbolicIdt i) := by
  intro s
  simp only [idtStep, descriptor_slice entry]
  rw [entry_puts script inside (entrySym "IDT" i 8) true s]
  exact ⟨[], congrArg some (State.add_nil _).symm, forall_mem_nil _⟩

theorem deref4_eq_some {x : Nat} (inside : x + 4 ≤ snap.mem.length)
    : deref4 snap.mem x = some (wordOf snap x) := by
  have length := length_slice inside
  rw [wordOf]
  match shape : slice snap.mem x (x + 4) with
  | [a, b, c, d] => simp only [deref4, shape, Option.getD_some]
  | [] | [_] | [_, _] | [_, _, _] | _ :: _ :: _ :: _ :: _ :: _ =>
    rw [shape] at length
    simp at length

variable (script) in
theorem puts_makeEntry {entry : Nat} (inside : entry + 4 ≤ snap.mem.length) (sym : Bytes)
    (mindist : Bool) (s : State)
    : ∃ s', makeEntry script snap s entry (wordOf snap entry) sym mindist = some s'
        ∧ Puts s (pageEntryInputs script snap entry sym mindist) s' := by
  have four : pteMask.length = 4 := rfl
  have puts := entry_puts script
    (P := Present snap entry ∧ script.symbolicPt = true) (four ▸ inside) sym mindist s
  rw [four] at puts
  refine ⟨_, ?_, puts_puts s _⟩
  simp only [makeEntry]
  by_cases present : wordOf snap entry &&& 1 ≠ 0
  · by_cases flag : script.symbolicPt = true
    · rw [if_pos ⟨present, flag⟩] at puts
      rwa [if_pos present, if_pos flag]
    · rw [if_neg (fun both => flag both.2)] at puts
      rwa [if_pos present, if_neg flag]
  · rw [if_neg (fun both => present both.1)] at puts
    rwa [if_neg present]

variable (script) in
theorem puts_tableLoop {i : Nat} (inside : tableOf snap i + 2 ^ 12 ≤ snap.mem.length) (s : State)
    : ∃ s', (List.range (2 ^ 10)).foldlM (pteStep script snap i (tableOf snap i)) s = some s'
        ∧ Puts s (tableInputs script snap i) s' := by
  refine puts_foldlM (fun j mem s => ?_) s
  have entry : tableOf snap i + j * 4 + 4 ≤ snap.mem.length := by
    have := mem_range.mp mem
    omega
  simp only [pteStep, deref4_eq_some entry]
  exact puts_makeEntry script entry _ true s

variable (snap) in
/-- The snapshot has directory entry `i` and, if it is present, the page table. -/
def PageInside (i : Nat) : Prop :=
  pdeOf snap i + 4 ≤ snap.mem.length
  ∧ (Present snap (pdeOf snap i) → tableOf snap i + 2 ^ 12 ≤ snap.mem.length)

variable (script) in
/-- One more directory entry: its page table is walked unless an earlier entry pointed to
it.
-/
theorem puts_pdeStep {i : Nat} (inside : PageInside snap i) {done : List Nat} (s : State)
    (seen : ∀ t, t ∈ done ↔ ∃ k < i, Present snap (pdeOf snap k) ∧ tableOf snap k = t)
    : ∃ s' done', pdeStep script snap (s, done) i = some (s', done')
        ∧ Puts s (pageInputs script snap i) s'
        ∧ ∀ t, t ∈ done' ↔ ∃ k < i + 1, Present snap (pdeOf snap k) ∧ tableOf snap k = t := by
  obtain ⟨s₁, first, puts₁⟩ := puts_makeEntry script inside.1 (entrySym "PDE" i 4) false s
  have later (t : Nat)
      : (∃ k < i + 1, Present snap (pdeOf snap k) ∧ tableOf snap k = t)
        ↔ t ∈ done ∨ Present snap (pdeOf snap i) ∧ tableOf snap i = t := by
    rw [seen t]
    constructor
    · rintro ⟨k, bound, holds⟩
      rcases Nat.lt_succ_iff_lt_or_eq.mp bound with before | rfl
      · exact Or.inl ⟨k, before, holds⟩
      · exact Or.inr holds
    · rintro (⟨k, bound, holds⟩ | holds)
      · exact ⟨k, by omega, holds⟩
      · exact ⟨i, by omega, holds⟩
  have fresh : FirstUse snap i ↔ Present snap (pdeOf snap i) ∧ tableOf snap i ∉ done := by
    rw [seen, FirstUse]
    push Not
    rfl
  have walked : pdeStep script snap (s, done) i
      = if Present snap (pdeOf snap i) ∧ tableOf snap i ∉ done then
          ((List.range (2 ^ 10)).foldlM (pteStep script snap i (tableOf snap i)) s₁).bind
            (fun s' => some (s', tableOf snap i :: done))
        else some (s₁, done) := by
    change (deref4 snap.mem (pdeOf snap i)).bind _ = _
    rw [deref4_eq_some inside.1]
    change (makeEntry script snap s (pdeOf snap i) (wordOf snap (pdeOf snap i)) _ false).bind _ = _
    rw [first]
    rfl
  rw [walked, pageInputs]
  by_cases use : FirstUse snap i
  · obtain ⟨s₂, second, puts₂⟩ := puts_tableLoop script (inside.2 use.1) s₁
    rw [if_pos use, if_pos (fresh.mp use), second]
    refine ⟨s₂, tableOf snap i :: done, rfl, puts₁.trans puts₂, fun t => ?_⟩
    rw [later, mem_cons]
    constructor
    · rintro (rfl | mem)
      · exact Or.inr ⟨use.1, rfl⟩
      · exact Or.inl mem
    · rintro (mem | ⟨_, rfl⟩)
      · exact Or.inr mem
      · exact Or.inl rfl
  · rw [if_neg use, if_neg (fun both => use (fresh.mpr both)), append_nil]
    refine ⟨s₁, done, rfl, puts₁, fun t => ?_⟩
    rw [later]
    refine ⟨Or.inl, ?_⟩
    rintro (mem | ⟨present, rfl⟩)
    · exact mem
    · by_contra missing
      exact use (fresh.mpr ⟨present, missing⟩)

theorem puts_pdeLoop {n : Nat} (inside : ∀ i < n, PageInside snap i) (s : State)
    : ∃ s' done, (List.range n).foldlM (pdeStep script snap) (s, []) = some (s', done)
        ∧ Puts s ((List.range n).flatMap (pageInputs script snap)) s'
        ∧ ∀ t, t ∈ done ↔ ∃ k < n, Present snap (pdeOf snap k) ∧ tableOf snap k = t := by
  induction n with
  | zero => exact ⟨s, [], rfl, Puts.refl s, by simp⟩
  | succ n ih =>
    obtain ⟨s₁, done₁, sofar, puts₁, seen⟩ := ih fun i small => inside i (Nat.lt_succ_of_lt small)
    obtain ⟨s₂, done₂, step, puts₂, seen'⟩ := puts_pdeStep script (inside n n.lt_succ_self) s₁ seen
    refine ⟨s₂, done₂, ?_, ?_, seen'⟩
    · rw [range_succ, foldlM_append, sofar]
      simp [step]
    · rw [range_succ, flatMap_append, flatMap_singleton]
      exact puts₁.trans puts₂

variable (readable : ∀ range ∈ tables snap, ∀ a, Has range a → a < snap.mem.length)

include readable

theorem descriptor_inside {table : TableRegister}
    (mem : (table.base, table.limit) ∈ tables snap) {i : Nat} (entry : i ∈ table.entries)
    : table.base + i * 8 + mask.length ≤ snap.mem.length := by
  obtain ⟨first, last⟩ := mem_entries.mp entry
  have eight : mask.length = 8 := rfl
  exact le_of_has (readable _ mem) (by simp) (by decide) (by simp only; omega)

theorem pageInside_of_readable {i : Nat} (small : i < 2 ^ 10) : PageInside snap i := by
  constructor
  · exact le_of_has (readable _ mem_tables_directory) (by simp [pdeOf]) (by decide)
      (by simp only [pdeOf]; omega)
  · intro present
    exact le_of_has (readable _ (mem_tables_of_page (mem_pageRanges small present))) (by simp)
      (by decide) (by simp)

theorem puts_memory (paged : snap.paged = true) (s : State)
    : ∃ s', memory script snap s = some (s'.add (lazyOptions script s'))
        ∧ Puts s (memoryInputs script snap) s' := by
  obtain ⟨s₁, gdt, puts₁⟩ := puts_foldlM (fun i entry =>
    (processes_gdtStep entry (descriptor_inside readable mem_tables_gdt entry)).puts) s
  obtain ⟨s₂, idt, puts₂⟩ := puts_foldlM (fun i entry =>
    (processes_idtStep entry (descriptor_inside readable mem_tables_idt entry)).puts) s₁
  obtain ⟨s₃, done, pages, puts₃, _⟩ := puts_pdeLoop (fun i => pageInside_of_readable readable) s₂
  refine ⟨s₃, ?_, puts₁.trans (puts₂.trans puts₃)⟩
  simp only [memory, gdt, idt, pageTables, paged, if_true, pages, Option.bind_eq_bind,
    Option.bind_some, Option.map_some]

end

end FastPokeEmu.SymbolicInputs
