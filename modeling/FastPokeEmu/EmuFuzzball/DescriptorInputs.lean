import FastPokeEmu.EmuFuzzball.InputPartition
import FastPokeEmu.EmuFuzzball.InputChecks

/-! Where the descriptor tables are made symbolic.
The script takes the bases of the tables, which are linear addresses, for physical ones, and
uses the mask of the segment descriptors for the interrupt gates too.
-/

namespace FastPokeEmu.SymbolicInputs

open InputNames List Option Folds

/-- Nothing is taken away from the command line and the lists, and the variables that are
declared have some property.
-/
structure Grows (P : List Char → Prop) (s s' : State) : Prop where
  cmdline : s.cmdline <+: s'.cmdline
  symbolicBytes : s.symbolicBytes <+: s'.symbolicBytes
  concreteBytes : s.concreteBytes <+: s'.concreteBytes
  names : ∀ a n, .symbolicByte a n ∈ s'.cmdline → .symbolicByte a n ∈ s.cmdline ∨ P n

section

variable {script : Script} {snap : Snapshot} {s s' s'' : State} {P : List Char → Prop}

theorem Grows.refl (s : State) : Grows P s s :=
  ⟨prefix_refl _, prefix_refl _, prefix_refl _, fun _ _ => Or.inl⟩

theorem Grows.trans (first : Grows P s s') (second : Grows P s' s'') : Grows P s s'' where
  cmdline := first.cmdline.trans second.cmdline
  symbolicBytes := first.symbolicBytes.trans second.symbolicBytes
  concreteBytes := first.concreteBytes.trans second.concreteBytes
  names a n mem := by
    rcases second.names a n mem with before | new
    · exact first.names a n before
    · exact Or.inr new

theorem grows_add (s : State) {options : List CmdOption}
    (others : ∀ o ∈ options, ∀ a n, o ≠ .symbolicByte a n)
    : Grows P s (s.add options) := by
  refine ⟨prefix_append _ _, prefix_refl _, prefix_refl _, fun a n mem => Or.inl ?_⟩
  rcases mem_append.mp mem with before | new
  · exact before
  · exact absurd rfl (others _ new a n)

theorem grows_foldl {α : Type} {step : State → α → State} (each : ∀ s a, Grows P s (step s a))
    (as : List α) (s : State)
    : Grows P s (as.foldl step s) := by
  induction as generalizing s with
  | nil => exact Grows.refl s
  | cons a as ih => exact (each s a).trans (ih (step s a))

theorem grows_foldlM {α : Type} {step : State → α → Option State} {as : List α}
    (each : ∀ a s s', step s a = some s' → Grows P s s') (made : as.foldlM step s = some s')
    : Grows P s s' :=
  foldlM_rel Grows.refl (fun _ _ _ => Grows.trans) each made

theorem grows_makeByteSymbolic {name : List Char} (named : P name) (s : State)
    (haddr value mask : Nat) (mindist : Bool)
    : Grows P s (makeByteSymbolic s haddr name value mask mindist) := by
  rw [makeByteSymbolic]
  split
  · refine ⟨?_, prefix_append _ _, prefix_refl _, fun a n mem => ?_⟩
    · rw [append_assoc, append_assoc]
      exact prefix_append _ _
    · simp only [mem_append, mem_singleton, CmdOption.symbolicByte.injEq] at mem
      rcases mem with ((before | ⟨_, rfl⟩) | pinned) | preferred
      · exact Or.inl before
      · exact Or.inr named
      · split at pinned <;> simp at pinned
      · split at preferred <;> simp at preferred
  · exact ⟨prefix_refl _, prefix_refl _, prefix_append _ _, fun _ _ => Or.inl⟩

theorem grows_makeMemSymbolic {haddr gaddr : Nat} {sym values : Bytes} {masks : List Nat}
    {mindist : Bool} (named : ∀ g k, P (memName g (byteSym sym k)))
    (made : makeMemSymbolic s haddr gaddr sym values masks mindist = some s')
    : Grows P s s' := by
  rw [makeMemSymbolic] at made
  split at made
  · rw [← Option.some.inj made]
    exact grows_foldl (fun s k => grows_makeByteSymbolic (named _ k) s _ _ _ _) _ s
  · cases made

theorem grows_makeMemConcrete (s : State) (haddr size : Nat)
    : Grows P s (makeMemConcrete s haddr size) := by
  apply grows_foldl
  exact fun _ _ => ⟨prefix_refl _, prefix_refl _, prefix_append _ _, fun _ _ => Or.inl⟩

/-- The property holds for the bytes of all entries of a kind. -/
def Named (P : List Char → Prop) (kind : String) : Prop :=
  ∀ i size g k, P (memName g (byteSym (entrySym kind i size) k))

theorem grows_gdtStep {i : Nat} (named : Named P "GDT") (made : gdtStep script snap s i = some s')
    : Grows P s s' := by
  simp only [gdtStep] at made
  split at made
  · obtain ⟨t, first, made⟩ := bind_eq_some_iff.mp made
    obtain ⟨options, folded, derived⟩ := derived_options script _ _ _ _ t
    rw [← Option.some.inj made, folded]
    refine (grows_makeMemSymbolic (named i 8) first).trans (grows_add t fun o mem a n same => ?_)
    obtain ⟨haddr, cond, rfl⟩ := derived o mem
    cases same
  · rw [← Option.some.inj made]
    exact grows_makeMemConcrete s _ _

theorem grows_idtStep {i : Nat} (named : Named P "IDT") (made : idtStep script snap s i = some s')
    : Grows P s s' := by
  rw [idtStep] at made
  split at made
  · exact grows_makeMemSymbolic (named i 8) made
  · rw [← Option.some.inj made]
    exact grows_makeMemConcrete s _ _

theorem grows_makeEntry {entry word : Nat} {sym : Bytes} {mindist : Bool}
    (named : ∀ g k, P (memName g (byteSym sym k)))
    (made : makeEntry script snap s entry word sym mindist = some s')
    : Grows P s s' := by
  have concrete (made : some (makeMemConcrete s (entry + script.physMem.1)
      (slice snap.mem entry (entry + 4)).length) = some s') : Grows P s s' := by
    rw [← Option.some.inj made]
    exact grows_makeMemConcrete s _ _
  rw [makeEntry] at made
  split at made
  · split at made
    · exact grows_makeMemSymbolic named made
    · exact concrete made
  · exact concrete made

theorem grows_pdeStep {done done' : List Nat} {i : Nat} (named : Named P "PDE")
    (named' : Named P "PTE") (made : pdeStep script snap (s, done) i = some (s', done'))
    : Grows P s s' := by
  obtain ⟨word, _, made⟩ := bind_eq_some_iff.mp made
  obtain ⟨t, first, made⟩ := bind_eq_some_iff.mp made
  refine (grows_makeEntry (named i 4) first).trans ?_
  split at made
  · obtain ⟨t', walked, made⟩ := bind_eq_some_iff.mp made
    cases made
    refine grows_foldlM (fun j t t' step => ?_) walked
    obtain ⟨word, _, step⟩ := bind_eq_some_iff.mp step
    exact grows_makeEntry (named' i 4) step
  · cases made
    exact Grows.refl _

theorem grows_pageTables (named : Named P "PDE") (named' : Named P "PTE")
    (made : pageTables script snap s = some s')
    : Grows P s s' := by
  rw [pageTables] at made
  split at made
  · obtain ⟨last, walked, rfl⟩ := map_eq_some_iff.mp made
    exact foldlM_rel (R := fun t t' => Grows P t.1 t'.1) (fun t => Grows.refl t.1)
      (fun _ _ _ => Grows.trans) (fun _ _ _ step => grows_pdeStep named named' step) walked
  · cases made

theorem grows_pages (named : Named P "PDE") (named' : Named P "PTE")
    (made : (do
      let s ← pageTables script snap s
      some (s.add (lazyOptions script s))) = some s')
    : Grows P s s' := by
  obtain ⟨t, pages, made⟩ := bind_eq_some_iff.mp made
  rw [← Option.some.inj made]
  refine (grows_pageTables named named' pages).trans (grows_add t fun o mem a n same => ?_)
  obtain ⟨r, _, rfl⟩ := mem_map.mp mem
  cases same

/-- The turns for the entries of both tables. Nothing that they add is lost later. -/
theorem table_turns (made : inputs script snap = some s)
    : (∀ i ∈ snap.gdtr.entries,
        ∃ t t', gdtStep script snap t i = some t' ∧ Grows (fun _ => True) t' s)
      ∧ ∀ i ∈ snap.idtr.entries,
          ∃ t t', idtStep script snap t i = some t' ∧ Grows (fun _ => True) t' s := by
  obtain ⟨s₀, _, made⟩ := bind_eq_some_iff.mp made
  obtain ⟨s₁, segments, made⟩ := bind_eq_some_iff.mp made
  obtain ⟨s₂, gates, made⟩ := bind_eq_some_iff.mp made
  have named (kind : String) : Named (fun _ => True) kind := fun _ _ _ _ => trivial
  have pages := grows_pages (named _) (named _) made
  refine ⟨fun i entry => ?_, fun i entry => ?_⟩
  · obtain ⟨_, _, t, t', _, _, step, later⟩ := foldlM_turn entry segments
    exact ⟨t, t', step, (grows_foldlM (fun _ _ _ => grows_gdtStep (named _)) later).trans
      ((grows_foldlM (fun _ _ _ => grows_idtStep (named _)) gates).trans pages)⟩
  · obtain ⟨_, _, t, t', _, _, step, later⟩ := foldlM_turn entry gates
    exact ⟨t, t', step, (grows_foldlM (fun _ _ _ => grows_idtStep (named _)) later).trans pages⟩

/-- Registers have other names than the bytes of entries. -/
theorem names_registers (made : registers script snap = some s) {a gaddr : Nat} {sym : Bytes}
    : .symbolicByte a (memName gaddr sym) ∉ s.cmdline := by
  intro mem
  obtain ⟨xs, puts, all⟩ := puts_registers made
  have declared := mem_filter.mpr ⟨mem, (rfl : CmdOption.declaring _ = true)⟩
  rw [puts.options] at declared
  obtain ⟨x, member, option⟩ := mem_flatMap.mp declared
  obtain ⟨r, _, _, n, i, _, _, _, name, nonempty, kind⟩ := all x member
  unfold Input.options at option
  split at option
  · rcases mem_cons.mp option with same | pinned
    · rw [CmdOption.symbolicByte.injEq, name] at same
      exact regName_ne_memName kind nonempty n i gaddr sym same.2.symm
    · split at pinned <;> simp at pinned
  · cases option

/-- Without a turn of the loop over the gates, no byte has the name of a byte of a gate. -/
theorem names_gates (made : inputs script snap = some s) (short : snap.idtr.entries = [])
    {a g i size k : Nat}
    : .symbolicByte a (memName g (byteSym (entrySym "IDT" i size) k)) ∉ s.cmdline := by
  obtain ⟨s₀, first, made⟩ := bind_eq_some_iff.mp made
  obtain ⟨s₁, segments, made⟩ := bind_eq_some_iff.mp made
  obtain ⟨s₂, gates, made⟩ := bind_eq_some_iff.mp made
  rw [short] at gates
  cases gates
  -- The names of all other kinds of entries begin with another letter.
  have named {kind : String} (other : (ascii kind.toList).head? ≠ (ascii "IDT".toList).head?)
      (nonempty : kind.toList ≠ [])
      : Named (· ≠ memName g (byteSym (entrySym "IDT" i size) k)) kind := by
    intro j size' g' k' same
    obtain ⟨c, rest, shape⟩ := exists_cons_of_ne_nil nonempty
    have heads := congrArg head? (memName_injective same).2
    rw [shape] at other
    simp [byteSym, entrySym, ascii, shape] at heads other
    exact other heads
  have pages := grows_pages (named (by decide) (by decide)) (named (by decide) (by decide)) made
  have grows := (grows_foldlM (fun _ _ _ => grows_gdtStep (named (by decide) (by decide)))
    segments).trans pages
  intro mem
  rcases grows.names _ _ mem with before | differs
  · exact names_registers first before
  · exact differs rfl

/-- What the final state has for an input. -/
def Declares (s : State) (x : Input) : Prop :=
  if x.symbolic then
    x.haddr ∈ s.symbolicBytes
    ∧ .symbolicByte x.haddr x.name ∈ s.cmdline
    ∧ (x.mask > 0 → .extraCondition x.name x.mask (x.value &&& x.mask) ∈ s.cmdline)
    ∧ (x.mindist → .preferredValue x.name x.value ∈ s.cmdline)
  else x.haddr ∈ s.concreteBytes

theorem Declares.mono {x : Input} (declares : Declares s x) (grows : Grows P s s')
    : Declares s' x := by
  unfold Declares at declares ⊢
  split at declares
  next symbolic =>
    obtain ⟨byte, declared, pinned, preferred⟩ := declares
    rw [if_pos symbolic]
    exact ⟨grows.symbolicBytes.subset byte, grows.cmdline.subset declared,
      fun some => grows.cmdline.subset (pinned some),
      fun close => grows.cmdline.subset (preferred close)⟩
  next concrete =>
    rw [if_neg concrete]
    exact grows.concreteBytes.subset declares

theorem declares_puts (xs : List Input) (s : State) : ∀ x ∈ xs, Declares (s.puts xs) x := by
  induction xs generalizing s with
  | nil => exact forall_mem_nil _
  | cons x xs ih =>
    refine forall_mem_cons.mpr ⟨?_, ih _⟩
    have here : Declares
        (makeByteSymbolic s x.haddr x.name x.value x.mask x.mindist) x := by
      by_cases symbolic : x.mask < 0xff <;>
        simp +contextual [Declares, makeByteSymbolic, Input.symbolic, symbolic]
    exact here.mono (grows_foldl (P := fun _ => True)
      (fun s x => grows_makeByteSymbolic trivial s _ _ _ _) xs _)

theorem declares_turn {step : State → Nat → Option State} {i : Nat} {xs : List Input}
    (processes : Processes step i xs) {t t' : State} (made : step t i = some t')
    (later : Grows (fun _ => True) t' s)
    : ∀ x ∈ xs, Declares s x := by
  intro x mem
  obtain ⟨options, same, derived⟩ := processes t
  rw [made, some_inj] at same
  subst same
  refine (declares_puts xs t x mem).mono ((grows_add _ fun o mem a n same => ?_).trans later)
  obtain ⟨haddr, cond, rfl⟩ := derived o mem
  cases same

end

/-- The masks that are meant for interrupt gates: offset and selector are kept concrete. The
loop does not use them.
-/
def masks : List Nat := [0xff, 0xff, 0xff, 0xff, 0x0, 0x0, 0xff, 0xff]

section

variable (script : Script) (snap : Snapshot)

/-- Host address of byte `k` of gate `i`. -/
def gateByte (i k : Nat) : Nat := snap.idtr.base + i * 8 + script.physMem.1 + k

def gateName (i k : Nat) : List Char :=
  memName (snap.idtr.base + i * 8 + k) (byteSym (entrySym "IDT" i 8) k)

/-- Gate `i` is made symbolic as its masks prescribe. -/
structure GateKept (s : State) (i : Nat) : Prop where
  concrete
    : ∀ k < 8,
        masks.getD k 0 = 0xff
        → gateByte script snap i k ∈ s.concreteBytes
          ∧ gateByte script snap i k ∉ s.symbolicBytes
  symbolic
    : ∀ k < 8,
        masks.getD k 0 = 0
        → gateByte script snap i k ∈ s.symbolicBytes
          ∧ .symbolicByte (gateByte script snap i k) (gateName snap i k) ∈ s.cmdline
          ∧ s.conditions (gateName snap i k) = []

variable {script snap}

theorem gate_by_segment_mask (flag : script.symbolicIdt = true) {s : State}
    (made : inputs script snap = some s) {i : Nat} (entry : i ∈ snap.idtr.entries)
    : gateByte script snap i 0 ∈ s.symbolicBytes ∧ gateByte script snap i 4 ∈ s.concreteBytes := by
  have passes := exists_inputs.mp ⟨s, made⟩
  obtain ⟨t, t', step, later⟩ := (table_turns made).2 i entry
  have all := declares_turn (processes_idtStep entry (passes.idt flag i entry)) step later
  rw [descriptorInputs, flag, masksIf, if_pos rfl, entryInputs] at all
  have at0 := all _ (mem_map_of_mem (mem_range.mpr (show 0 < mask.length by decide)))
  have at4 := all _ (mem_map_of_mem (mem_range.mpr (show 4 < mask.length by decide)))
  simp only [Declares, Input.symbolic, mask] at at0 at4
  exact ⟨at0.1, at4⟩

/-- No gate is made symbolic as prescribed: the mask of the segment descriptors is used, and the
loop leaves out a gate that ends at the limit. So all are exactly if there is none.
-/
theorem gates_kept_iff (flag : script.symbolicIdt = true) {s : State}
    (made : inputs script snap = some s)
    : (∀ i, 1 ≤ i → 8 * i + 7 ≤ snap.idtr.limit → GateKept script snap s i)
      ↔ snap.idtr.limit < 15 := by
  constructor
  · intro kept
    by_contra long
    have first := kept 1 (Nat.le_refl 1) (by omega)
    by_cases visited : 16 ≤ snap.idtr.limit
    · have entry : 1 ∈ snap.idtr.entries := mem_entries.mpr ⟨Nat.le_refl 1, by omega⟩
      exact (first.concrete 0 (by decide) rfl).2 (gate_by_segment_mask flag made entry).1
    · -- With limit 15 the gate is complete, but the loop has no turn for it.
      have short : snap.idtr.entries = [] := by
        refine eq_nil_iff_forall_not_mem.mpr fun i entry => ?_
        have := mem_entries.mp entry
        omega
      exact names_gates made short (first.symbolic 4 (by decide) rfl).2.1
  · intro short i
    omega

end

theorem exists_inputs_sharedTable : ∃ s, inputs allSymbolic sharedTable = some s := by
  obtain ⟨paged, readable, _, _, _⟩ := layout_sharedTable
  exact exists_inputs.mpr ⟨by decide, fun _ _ => descriptor_inside readable mem_tables_gdt,
    fun _ _ => descriptor_inside readable mem_tables_idt, paged,
    fun _ => pageInside_of_readable readable⟩

theorem gates_kept_iff_sharedTable
    : ∃ s, inputs allSymbolic sharedTable = some s
        ∧ ((∀ i, 1 ≤ i → 8 * i + 7 ≤ sharedTable.idtr.limit → GateKept allSymbolic sharedTable s i)
          ↔ sharedTable.idtr.limit < 15) := by
  obtain ⟨s, made⟩ := exists_inputs_sharedTable
  exact ⟨s, made, gates_kept_iff rfl made⟩

/-- The low byte of the offset of the only gate becomes symbolic. -/
theorem gate_offset_symbolic
    : ∃ s, inputs allSymbolic sharedTable = some s
        ∧ 1 ∈ sharedTable.idtr.entries
        ∧ gateByte allSymbolic sharedTable 1 0 ∈ s.symbolicBytes
        ∧ ¬ GateKept allSymbolic sharedTable s 1 := by
  obtain ⟨s, made⟩ := exists_inputs_sharedTable
  have entry : 1 ∈ sharedTable.idtr.entries := by decide
  have offset := (gate_by_segment_mask rfl made entry).1
  refine ⟨s, made, entry, offset, ?_⟩
  intro kept
  exact (kept.concrete 0 (by decide) rfl).2 offset

/-- The processor's walk through the page tables of the snapshot: 32-bit paging, with large pages
if CR4 has them enabled.
-/
def Snapshot.translate (snap : Snapshot) (linear : Nat) : Option Nat := do
  let pde ← deref4 snap.mem (directory snap + linear / 2 ^ 22 % 2 ^ 10 * 4)
  if pde &&& 1 = 0 then none
  else if pde &&& 2 ^ 7 ≠ 0 ∧ snap.cr4 &&& 2 ^ 4 ≠ 0 then
    some (pde / 2 ^ 22 * 2 ^ 22 + linear % 2 ^ 22)
  else do
    let pte ← deref4 snap.mem ((pde &&& pagingMask) + linear / 2 ^ 12 % 2 ^ 10 * 4)
    if pte &&& 1 = 0 then none else some ((pte &&& pagingMask) + linear % 2 ^ 12)

section

variable (script : Script) (snap : Snapshot) (table : TableRegister)

/-- Inputs for entry `i` that are the bytes the processor reads: each at the host address of the
physical address that its linear address is translated to, with the value found there.
-/
def ReadByCpu (i : Nat) (xs : List Input) : Prop :=
  xs.length = 8
  ∧ ∀ k x,
      xs[k]? = some x
      → ∃ p,
          snap.translate (table.base + i * 8 + k) = some p
          ∧ x.haddr = p + script.physMem.1
          ∧ (snap.mem[p]?).map UInt8.toNat = some x.value

/-- The loop over the table has a turn for entry `i`, its inputs are the bytes that the processor
reads, and the script gets to its end with all of them declared.
-/
def Declared (kind : String) (flag : Bool) (i : Nat) : Prop :=
  let xs := descriptorInputs script snap table kind flag i
  i ∈ table.entries
  ∧ ReadByCpu script snap table i xs
  ∧ ∃ s, inputs script snap = some s ∧ ∀ x ∈ xs, Declares s x

/-- The entry ends below the limit, and its addresses are the same before and after translation,
and in the snapshot.
-/
def Direct (i : Nat) : Prop :=
  1 ≤ i
  ∧ (i + 1) * 8 ≤ table.limit
  ∧ table.base + i * 8 + 8 ≤ snap.mem.length
  ∧ ∀ k < 8, snap.translate (table.base + i * 8 + k) = some (table.base + i * 8 + k)

end

section

variable {script : Script} {snap : Snapshot} {table : TableRegister} {kind : String} {flag : Bool}
  {i : Nat}

theorem getElem?_descriptorInputs {k : Nat} (small : k < 8)
    : (descriptorInputs script snap table kind flag i)[k]?
      = some ⟨table.base + i * 8 + script.physMem.1 + k,
          memName (table.base + i * 8 + k) (byteSym (entrySym kind i 8) k),
          byteOf snap (table.base + i * 8 + k), (masksIf (flag = true) mask).getD k 0, true⟩ := by
  have eight : (masksIf (flag = true) mask).length = 8 := length_masksIf _ _
  rw [descriptorInputs, entryInputs, List.getElem?_map, eight, List.getElem?_range small]
  rfl

/-- The inputs are those that the processor reads just if translation does nothing. -/
theorem readByCpu_iff
    : ReadByCpu script snap table i (descriptorInputs script snap table kind flag i)
      ↔ table.base + i * 8 + 8 ≤ snap.mem.length
        ∧ ∀ k < 8, snap.translate (table.base + i * 8 + k) = some (table.base + i * 8 + k) := by
  have eight : (descriptorInputs script snap table kind flag i).length = 8 := by
    rw [descriptorInputs, entryInputs, length_map, length_range, length_masksIf]
    rfl
  constructor
  · rintro ⟨_, read⟩
    have direct (k : Nat) (small : k < 8)
        : snap.translate (table.base + i * 8 + k) = some (table.base + i * 8 + k)
          ∧ table.base + i * 8 + k < snap.mem.length := by
      obtain ⟨p, translated, place, value⟩ := read k _ (getElem?_descriptorInputs small)
      obtain rfl : p = table.base + i * 8 + k := by
        simp only at place
        omega
      obtain ⟨_, held, _⟩ := map_eq_some_iff.mp value
      exact ⟨translated, (List.getElem?_eq_some_iff.mp held).1⟩
    exact ⟨(direct 7 (by decide)).2, fun k small => (direct k small).1⟩
  · rintro ⟨inside, direct⟩
    refine ⟨eight, fun k x found => ?_⟩
    have small := (List.getElem?_eq_some_iff.mp found).1
    rw [eight] at small
    rw [getElem?_descriptorInputs small, some_inj] at found
    subst found
    have held : table.base + i * 8 + k < snap.mem.length := by omega
    exact ⟨_, direct k small, by simp only; omega, by simp [byteOf, held]⟩

theorem declared_iff
    (each : i ∈ table.entries → table.base + i * 8 + 8 ≤ snap.mem.length
      → ∀ s, inputs script snap = some s
      → ∀ x ∈ descriptorInputs script snap table kind flag i, Declares s x)
    : Declared script snap table kind flag i ↔ Passes script snap ∧ Direct snap table i := by
  constructor
  · rintro ⟨entry, read, s, made, _⟩
    obtain ⟨inside, direct⟩ := readByCpu_iff.mp read
    obtain ⟨first, last⟩ := mem_entries.mp entry
    exact ⟨exists_inputs.mp ⟨s, made⟩, first, last, inside, direct⟩
  · rintro ⟨passes, first, last, inside, direct⟩
    have entry := mem_entries.mpr ⟨first, last⟩
    obtain ⟨s, made⟩ := exists_inputs.mpr passes
    exact ⟨entry, readByCpu_iff.mpr ⟨inside, direct⟩, s, made, each entry inside s made⟩

end

/-- The bytes of a descriptor are declared where the processor reads them just if the script gets
to its end, the loop has a turn for the descriptor, translation leaves its addresses alone, and
the memory of the snapshot has it.
-/
theorem descriptors_declared_iff (script : Script) (snap : Snapshot) (i : Nat)
    : (Declared script snap snap.gdtr "GDT" script.symbolicGdt i
        ↔ Passes script snap ∧ Direct snap snap.gdtr i)
      ∧ (Declared script snap snap.idtr "IDT" script.symbolicIdt i
        ↔ Passes script snap ∧ Direct snap snap.idtr i) := by
  refine ⟨declared_iff fun entry inside s made => ?_, declared_iff fun entry inside s made => ?_⟩
  · obtain ⟨t, t', step, later⟩ := (table_turns made).1 i entry
    exact declares_turn (processes_gdtStep entry inside) step later
  · obtain ⟨t, t', step, later⟩ := (table_turns made).2 i entry
    exact declares_turn (processes_idtStep entry inside) step later

/-- A snapshot as of the kernel, with the GDT at an alias of `0x2000`: directory entry 4 points to
the page table at `0x1000`, and its entry 2 to the page.
-/
def aliasedGdt : Snapshot where
  selector _ := 0
  cr0 := 2 ^ 31
  cr3 := 0
  cr4 := 0
  gdtr := ⟨0x1002000, 24⟩
  idtr := ⟨0x2800, 0⟩
  mem := (List.range 0x3000).map fun a =>
    if a = 16 ∨ a = 0x1008 then 0x07 else if a = 17 then 0x10 else if a = 0x1009 then 0x20 else 0

/-- The GDT is read at the address that is its alias. -/
theorem aliased_gdt_not_declared
    : aliasedGdt.paged = true
      ∧ 1 ∈ aliasedGdt.gdtr.entries
      ∧ (∀ k < 8, aliasedGdt.translate (0x1002008 + k) = some (0x2008 + k))
      ∧ ¬ Declared allSymbolic aliasedGdt aliasedGdt.gdtr "GDT" true 1 := by
  have translated : ∀ k < 8, aliasedGdt.translate (0x1002008 + k) = some (0x2008 + k) := by
    decide +kernel
  refine ⟨by decide, by decide, translated, fun declared => ?_⟩
  have differ := ((readByCpu_iff.mp declared.2.1).2 0 (by decide)).symm.trans
    (translated 0 (by decide))
  revert differ
  decide

end FastPokeEmu.SymbolicInputs
