import FastPokeEmu.EmuFuzzball.InputLayout

/-! Every byte of the physical memory ends in one class: declared symbolic, concrete, or in
a lazy region. The tables of the snapshot must not overlap.
-/

namespace FastPokeEmu.SymbolicInputs

open Numerals LazyMemory InputNames List

/-- Names under which a host byte is declared. -/
def CmdOption.nameAt (a : Nat) : CmdOption → Option (List Char)
  | .symbolicByte haddr name => if haddr = a then some name else none
  | _ => none

/-- Mask and value of a condition on a variable. -/
def CmdOption.conditionOn (n : List Char) : CmdOption → Option (Nat × Nat)
  | .extraCondition name mask value => if name = n then some (mask, value) else none
  | _ => none

def CmdOption.lazyAt (a : Nat) : CmdOption → Bool
  | .symbolicBytesLazy first size _ => first ≤ a ∧ a < first + size
  | _ => false

def State.names (s : State) (a : Nat) : List (List Char) := s.cmdline.filterMap (·.nameAt a)

def State.conditions (s : State) (n : List Char) : List (Nat × Nat) :=
  s.cmdline.filterMap (·.conditionOn n)

def State.lazyRegions (s : State) (a : Nat) : List CmdOption := s.cmdline.filter (·.lazyAt a)

section

variable {s : State} {xs : List Input}

theorem filterMap_declaring {β : Type} {f : CmdOption → Option β}
    (others : ∀ o, o.declaring = false → f o = none) (options : List CmdOption)
    : (options.filter CmdOption.declaring).filterMap f = options.filterMap f := by
  rw [filterMap_filter]
  refine filterMap_congr fun o _ => ?_
  cases kind : o.declaring with
  | true => simp
  | false => simp [others o kind]

theorem Puts.filterMap {β : Type} {f : CmdOption → Option β}
    (others : ∀ o, o.declaring = false → f o = none) (puts : Puts start xs s)
    : s.cmdline.filterMap f = xs.flatMap (fun x => x.options.filterMap f) := by
  rw [← filterMap_declaring others, puts.options]
  simp [start, filterMap_flatMap]

theorem nameAt_of_not_declaring (a : Nat) (o : CmdOption) (kind : o.declaring = false)
    : o.nameAt a = none := by
  cases o with
  | symbolicByte => cases kind
  | _ => rfl

theorem conditionOn_of_not_declaring (n : List Char) (o : CmdOption)
    (kind : o.declaring = false)
    : o.conditionOn n = none := by
  cases o with
  | extraCondition => cases kind
  | _ => rfl

theorem options_names (x : Input) (a : Nat)
    : x.options.filterMap (·.nameAt a)
      = if x.symbolic = true ∧ x.haddr = a then [x.name] else [] := by
  rw [Input.options]
  by_cases symbolic : x.symbolic = true
  · by_cases pinned : x.mask > 0 <;> by_cases here : x.haddr = a <;>
      simp [symbolic, pinned, here, CmdOption.nameAt]
  · simp [symbolic]

/-- The condition that keeps the bits of a mask concrete, if there are any. -/
def pins (mask value : Nat) : List (Nat × Nat) := if mask = 0 then [] else [(mask, value &&& mask)]

theorem options_conditions (x : Input) (n : List Char)
    : x.options.filterMap (·.conditionOn n)
      = if x.symbolic = true ∧ x.name = n then pins x.mask x.value else [] := by
  rw [Input.options, pins]
  by_cases symbolic : x.symbolic = true
  · by_cases free : x.mask = 0 <;> by_cases here : x.name = n <;>
      simp [symbolic, free, here, CmdOption.conditionOn, Nat.pos_iff_ne_zero]
  · simp [symbolic]

theorem Puts.names (puts : Puts start xs s) (a : Nat)
    : s.names a
      = xs.flatMap (fun x => if x.symbolic = true ∧ x.haddr = a then [x.name] else []) := by
  rw [State.names, puts.filterMap (nameAt_of_not_declaring a)]
  exact flatMap_congr fun x _ => options_names x a

theorem Puts.conditions (puts : Puts start xs s) (n : List Char)
    : s.conditions n
      = xs.flatMap
          (fun x => if x.symbolic = true ∧ x.name = n then pins x.mask x.value else []) := by
  rw [State.conditions, puts.filterMap (conditionOn_of_not_declaring n)]
  exact flatMap_congr fun x _ => options_conditions x n

theorem options_lazy (x : Input) (a : Nat) : x.options.filter (·.lazyAt a) = [] := by
  rw [Input.options]
  by_cases symbolic : x.symbolic = true
  · by_cases pinned : x.mask > 0 <;> simp [symbolic, pinned, CmdOption.lazyAt]
  · simp [symbolic]

theorem Puts.lazyRegions (puts : Puts start xs s) (a : Nat) : s.lazyRegions a = [] := by
  have kinds : s.cmdline.filter (·.lazyAt a)
      = (s.cmdline.filter CmdOption.declaring).filter (·.lazyAt a) := by
    rw [filter_filter]
    refine filter_congr fun o _ => ?_
    cases o <;> simp [CmdOption.lazyAt, CmdOption.declaring]
  rw [State.lazyRegions, kinds, puts.options, start, filter_nil, nil_append, filter_flatMap]
  exact flatMap_eq_nil_iff.mpr fun x _ => options_lazy x a

theorem lazyRegions_lazyOptions (script : Script) (s : State) (a : Nat)
    : ((lazyOptions script s).filter (·.lazyAt a)).length
      = if a ∈ missing script.physMem s.symbolicBytes s.concreteBytes then 1 else 0 := by
  rw [← length_filter_locs, lazyOptions, filter_map, length_map]
  congr 1
  refine filter_congr fun r mem => ?_
  have ordered := locs_ordered mem
  simp only [Function.comp, CmdOption.lazyAt]
  congr 1
  simp only [eq_iff_iff, and_congr_right_iff]
  omega

theorem filterMap_add_lazy (script : Script) (s : State) {β : Type} {f : CmdOption → Option β}
    (nothing : ∀ a n name, f (.symbolicBytesLazy a n name) = none)
    : (s.add (lazyOptions script s)).cmdline.filterMap f = s.cmdline.filterMap f := by
  rw [State.add, filterMap_append, lazyOptions, filterMap_map]
  exact append_right_eq_self.mpr (filterMap_eq_nil_iff.mpr fun _ _ => nothing _ _ _)

theorem names_add_lazy (script : Script) (s : State) (a : Nat)
    : (s.add (lazyOptions script s)).names a = s.names a :=
  filterMap_add_lazy script s fun _ _ _ => rfl

theorem conditions_add_lazy (script : Script) (s : State) (n : List Char)
    : (s.add (lazyOptions script s)).conditions n = s.conditions n :=
  filterMap_add_lazy script s fun _ _ _ => rfl

end

/-- Exactly one class: declared by exactly one option, concrete, or in exactly one lazy
region.
-/
def State.Classified (s : State) (a : Nat) : Prop :=
  (∃ n, s.names a = [n]) ∧ a ∉ s.concreteBytes ∧ s.lazyRegions a = []
  ∨ s.names a = [] ∧ a ∈ s.concreteBytes ∧ s.lazyRegions a = []
  ∨ s.names a = [] ∧ a ∉ s.concreteBytes ∧ (s.lazyRegions a).length = 1

section

variable {script : Script} {snap : Snapshot} {s : State} {rs : List Input}

theorem not_has_of_register (layout : Layout script snap) {x : Input}
    (register : OfRegister script x)
    : ¬ Has script.physMem x.haddr := by
  obtain ⟨r, size, a, n, i, mem, small, address, _⟩ := register
  rw [address]
  exact layout.registers r size a mem i small

theorem has_of_memory (layout : Layout script snap) {x : Input}
    (mem : x ∈ memoryInputs script snap)
    : Has script.physMem x.haddr := by
  obtain ⟨gaddr, holds, range, table, has⟩ := inputAt_of_mem mem
  have inside := layout.inside range table gaddr has
  rw [holds.haddr]
  exact ⟨by omega, by omega⟩

theorem name_ne_of_register {x y : Input} (register : OfRegister script x)
    (mem : y ∈ memoryInputs script snap)
    : x.name ≠ y.name := by
  obtain ⟨r, size, a, n, i, _, _, _, name, nonempty, kind⟩ := register
  obtain ⟨gaddr, holds, _⟩ := inputAt_of_mem mem
  obtain ⟨sym, _, name'⟩ := holds.name
  rw [name, name']
  exact regName_ne_memName kind nonempty n i gaddr sym

theorem haddr_eq_of_name {x y : Input} (mem : x ∈ memoryInputs script snap)
    (mem' : y ∈ memoryInputs script snap) (same : x.name = y.name)
    : x.haddr = y.haddr := by
  obtain ⟨gaddr, holds, _⟩ := inputAt_of_mem mem
  obtain ⟨gaddr', holds', _⟩ := inputAt_of_mem mem'
  obtain ⟨sym, _, name⟩ := holds.name
  obtain ⟨sym', _, name'⟩ := holds'.name
  rw [holds.haddr, holds'.haddr, (memName_injective (name.symm.trans (same.trans name'))).1]

/-- What the script did before the lazy regions: registers, then tables. -/
structure Processed (script : Script) (snap : Snapshot) (rs : List Input) (s : State)
    : Prop where
  puts : Puts start (rs ++ memoryInputs script snap) s
  registers : ∀ x ∈ rs, OfRegister script x

variable (layout : Layout script snap) (done : Processed script snap rs s)

include layout done

theorem Processed.mem_of_has {x : Input} (mem : x ∈ rs ++ memoryInputs script snap)
    (has : Has script.physMem x.haddr)
    : x ∈ memoryInputs script snap := by
  rcases mem_append.mp mem with register | table
  · exact (not_has_of_register layout (done.registers x register) has).elim
  · exact table

omit done in
theorem flatMap_of_registers {β : Type} {f : Input → List β} {x : Input}
    (mem : x ∈ memoryInputs script snap) (registers : ∀ y ∈ rs, f y = [])
    (others : ∀ y ∈ memoryInputs script snap, y.haddr ≠ x.haddr → f y = [])
    : (rs ++ memoryInputs script snap).flatMap f = f x := by
  rw [flatMap_append, flatMap_eq_nil_iff.mpr registers, nil_append,
    Folds.flatMap_of_unique layout.nodup mem others]

theorem Processed.names_of_mem {x : Input} (mem : x ∈ memoryInputs script snap)
    : s.names x.haddr = if x.symbolic = true then [x.name] else [] := by
  rw [done.puts.names, flatMap_of_registers layout mem (fun y register => if_neg fun both => ?_)
    (fun y _ other => if_neg fun both => other both.2)]
  · simp
  · refine not_has_of_register layout (done.registers y register) ?_
    rw [both.2]
    exact has_of_memory layout mem

theorem Processed.names_of_not_mem {a : Nat} (has : Has script.physMem a)
    (absent : ∀ x ∈ memoryInputs script snap, x.haddr ≠ a)
    : s.names a = [] := by
  rw [done.puts.names]
  refine flatMap_eq_nil_iff.mpr fun y mem => if_neg fun both => ?_
  exact absent y (done.mem_of_has layout mem (both.2.symm ▸ has)) both.2

theorem Processed.mem_symbolicBytes {a : Nat} (has : Has script.physMem a)
    : a ∈ s.symbolicBytes ↔ ∃ x ∈ memoryInputs script snap, x.symbolic = true ∧ x.haddr = a := by
  rw [done.puts.symbolic]
  simp only [start, nil_append, mem_map, mem_filter]
  constructor
  · rintro ⟨x, ⟨mem, symbolic⟩, rfl⟩
    exact ⟨x, done.mem_of_has layout mem has, symbolic, rfl⟩
  · rintro ⟨x, mem, symbolic, rfl⟩
    exact ⟨x, ⟨mem_append_right _ mem, symbolic⟩, rfl⟩

theorem Processed.mem_concreteBytes {a : Nat} (has : Has script.physMem a)
    : a ∈ s.concreteBytes ↔ ∃ x ∈ memoryInputs script snap, x.symbolic = false ∧ x.haddr = a := by
  rw [done.puts.concrete]
  simp only [start, nil_append, mem_map, mem_filter, Bool.not_eq_true']
  constructor
  · rintro ⟨x, ⟨mem, concrete⟩, rfl⟩
    exact ⟨x, done.mem_of_has layout mem has, concrete, rfl⟩
  · rintro ⟨x, mem, concrete, rfl⟩
    exact ⟨x, ⟨mem_append_right _ mem, concrete⟩, rfl⟩

theorem Processed.count_le_one {a : Nat} (has : Has script.physMem a)
    : (s.symbolicBytes ++ s.concreteBytes).count a ≤ 1 := by
  have order : (s.symbolicBytes ++ s.concreteBytes).Perm
      ((rs ++ memoryInputs script snap).map Input.haddr) := by
    rw [done.puts.symbolic, done.puts.concrete]
    simp only [start, nil_append, ← map_append]
    exact (filter_append_perm _ _).map _
  rw [order.count_eq, map_append, count_append, count_eq_zero_of_not_mem, Nat.zero_add]
  · exact nodup_iff_count_le_one.mp layout.nodup a
  · intro mem
    obtain ⟨x, register, rfl⟩ := mem_map.mp mem
    exact not_has_of_register layout (done.registers x register) has

theorem Processed.conditions_of_mem {x : Input} (mem : x ∈ memoryInputs script snap)
    (symbolic : x.symbolic = true)
    : s.conditions x.name = pins x.mask x.value := by
  rw [done.puts.conditions, flatMap_of_registers layout mem
    (fun y register => if_neg fun both =>
      name_ne_of_register (done.registers y register) mem both.2)
    (fun y inside other => if_neg fun both => other (haddr_eq_of_name inside mem both.2))]
  simp [symbolic]

omit layout in
theorem Processed.name_unique {x : Input} (mem : x ∈ memoryInputs script snap) {b : Nat}
    (declared : x.name ∈ s.names b)
    : b = x.haddr := by
  rw [done.puts.names, mem_flatMap] at declared
  obtain ⟨y, inside, named⟩ := declared
  split at named
  next both =>
    have same := mem_singleton.mp named
    rcases mem_append.mp inside with register | table
    · exact (name_ne_of_register (done.registers y register) mem same.symm).elim
    · rw [← both.2, haddr_eq_of_name table mem same.symm]
  · cases named

theorem Processed.mem_missing {a : Nat} (has : Has script.physMem a)
    : a ∈ missing script.physMem s.symbolicBytes s.concreteBytes
      ↔ ∀ x ∈ memoryInputs script snap, x.haddr ≠ a := by
  rw [missing, mem_filter, mem_range'_1, decide_eq_true_eq,
    done.mem_symbolicBytes layout has, done.mem_concreteBytes layout has]
  constructor
  · rintro ⟨_, notSymbolic, notConcrete⟩ x mem same
    cases kind : x.symbolic with
    | true => exact notSymbolic ⟨x, mem, kind, same⟩
    | false => exact notConcrete ⟨x, mem, kind, same⟩
  · intro absent
    refine ⟨has, ?_, ?_⟩
    · rintro ⟨x, mem, _, same⟩
      exact absent x mem same
    · rintro ⟨x, mem, _, same⟩
      exact absent x mem same

/-- Lazy regions take exactly the bytes left over. -/
theorem Processed.classified {a : Nat} (has : Has script.physMem a)
    : (s.add (lazyOptions script s)).Classified a := by
  have regions : ((s.add (lazyOptions script s)).lazyRegions a).length
      = if a ∈ missing script.physMem s.symbolicBytes s.concreteBytes then 1 else 0 := by
    have before := done.puts.lazyRegions a
    rw [State.lazyRegions] at before
    rw [State.lazyRegions, State.add, filter_append, before, nil_append, lazyRegions_lazyOptions]
  rw [State.Classified, names_add_lazy]
  by_cases found : ∃ x ∈ memoryInputs script snap, x.haddr = a
  · obtain ⟨x, mem, rfl⟩ := found
    rw [if_neg fun left => (done.mem_missing layout has).mp left x mem rfl,
      length_eq_zero_iff] at regions
    rw [done.names_of_mem layout mem, regions]
    have concrete : x.haddr ∈ (s.add (lazyOptions script s)).concreteBytes
        ↔ x.symbolic = false := by
      refine (done.mem_concreteBytes layout has).trans ⟨?_, fun kind => ⟨x, mem, kind, rfl⟩⟩
      rintro ⟨y, inside, kind, same⟩
      rwa [inj_on_of_nodup_map layout.nodup inside mem same] at kind
    rw [concrete]
    cases kind : x.symbolic with
    | true => exact Or.inl ⟨⟨x.name, rfl⟩, by simp, rfl⟩
    | false => exact Or.inr (Or.inl ⟨rfl, rfl, rfl⟩)
  · have absent : ∀ x ∈ memoryInputs script snap, x.haddr ≠ a :=
      fun x mem same => found ⟨x, mem, same⟩
    rw [if_pos ((done.mem_missing layout has).mpr absent)] at regions
    refine Or.inr (Or.inr ⟨done.names_of_not_mem layout has absent, ?_, regions⟩)
    intro concrete
    obtain ⟨x, mem, _, same⟩ := (done.mem_concreteBytes layout has).mp concrete
    exact absent x mem same

end

/-- Two directory entries that point to one page table, and short descriptor tables. -/
def sharedTable : Snapshot where
  selector := fun _ => 0
  cr0 := 2 ^ 31 + 1
  cr3 := 0
  cr4 := 0
  gdtr := { base := 0x2000, limit := 24 }
  idtr := { base := 0x2100, limit := 16 }
  mem := [1, 0x10, 0, 0, 1, 0x10, 0, 0] ++ replicate 0x2ff8 0

def allSymbolic : Script where
  bochs := true
  cpuRegs := [("reg_EAX".toList, 4, 0x100), ("sreg_CS".toList, 2, 0x200)]
  descrs := []
  physMem := (0x10000, 0x3000)
  extraDescConds := []
  symbolicRegs := true
  symbolicSregs := true
  symbolicCregs := true
  symbolicDregs := false
  symbolicGdt := true
  symbolicIdt := true
  symbolicPt := true

theorem slice_zeros {first : Bytes} {n x : Nat} (low : first.length ≤ x)
    (high : x + 4 ≤ first.length + n)
    : slice (first ++ replicate n 0) x (x + 4) = replicate 4 0 := by
  rw [slice, drop_take, drop_append, drop_eq_nil_of_le low, nil_append,
    drop_replicate, take_replicate]
  congr 1
  omega

theorem wordOf_sharedTable {i : Nat} (low : 2 ≤ i) (high : i < 2 ^ 10)
    : wordOf sharedTable (pdeOf sharedTable i) = 0 := by
  have address : pdeOf sharedTable i = i * 4 := Nat.zero_add _
  have zeros : slice sharedTable.mem (i * 4) (i * 4 + 4) = replicate 4 0 :=
    slice_zeros (by simp only [length_cons, length_nil]; omega)
      (by simp only [length_cons, length_nil]; omega)
  rw [wordOf, address, deref4, zeros]
  rfl

theorem mem_pageRanges_sharedTable {range : Nat × Nat} (mem : range ∈ pageRanges sharedTable)
    : range = (0x1000, 2 ^ 12) := by
  obtain ⟨t, inside, rfl⟩ := mem_map.mp mem
  obtain ⟨i, used, rfl⟩ := mem_map.mp (mem_dedup.mp inside)
  obtain ⟨small, present⟩ := mem_filter.mp used
  have present : Present sharedTable (pdeOf sharedTable i) := by simpa using present
  match i with
  | 0 => rfl
  | 1 => rfl
  | i + 2 =>
    refine (present ?_).elim
    rw [wordOf_sharedTable (by omega) (mem_range.mp small)]
    rfl

theorem mem_tables_sharedTable {range : Nat × Nat} (mem : range ∈ tables sharedTable)
    : range = (0x2000, 24) ∨ range = (0x2100, 16) ∨ range = (0, 2 ^ 12)
      ∨ range = (0x1000, 2 ^ 12) := by
  simp only [tables, mem_cons] at mem
  rcases mem with rfl | rfl | rfl | page
  · exact Or.inl rfl
  · exact Or.inr (Or.inl rfl)
  · exact Or.inr (Or.inr (Or.inl rfl))
  · exact Or.inr (Or.inr (Or.inr (mem_pageRanges_sharedTable page)))

theorem layout_sharedTable : Layout allSymbolic sharedTable := by
  have length : sharedTable.mem.length = 0x3000 := by
    change (_ ++ replicate _ _).length = _
    rw [length_append, length_replicate]
    rfl
  have bound (range : Nat × Nat) (mem : range ∈ tables sharedTable) (a : Nat)
      (has : Has range a)
      : a < 0x3000 := by
    unfold Has at has
    rcases mem_tables_sharedTable mem with rfl | rfl | rfl | rfl <;> simp only at has <;> omega
  refine ⟨by decide, fun range mem a has => length ▸ bound range mem a has, bound, ?_, ?_⟩
  · refine pairwise_cons.mpr ⟨fun range mem => ?_, ?_⟩
    · rcases mem_cons.mp mem with rfl | mem
      · exact apart_of_le (by decide)
      rcases mem_cons.mp mem with rfl | mem
      · exact Std.Symm.symm _ _ (apart_of_le (by decide))
      · rw [mem_pageRanges_sharedTable mem]
        exact Std.Symm.symm _ _ (apart_of_le (by decide))
    refine pairwise_cons.mpr ⟨fun range mem => ?_, ?_⟩
    · rcases mem_cons.mp mem with rfl | mem
      · exact Std.Symm.symm _ _ (apart_of_le (by decide))
      · rw [mem_pageRanges_sharedTable mem]
        exact Std.Symm.symm _ _ (apart_of_le (by decide))
    refine pairwise_cons.mpr ⟨fun range mem => ?_, apart_pageRanges _⟩
    rw [mem_pageRanges_sharedTable mem]
    exact apart_of_le (by decide)
  · intro r size a mem i small has
    unfold Has at has
    simp only [allSymbolic, mem_cons, Prod.mk.injEq, not_mem_nil, or_false] at mem has
    omega

/-- The registers of the script before the tables. -/
def registersSharedTable : State := (registers allSymbolic sharedTable).getD start

end FastPokeEmu.SymbolicInputs
