import FastPokeEmu.Floppy.TestcaseLines

/-! Test-case files are read back as they were written: one register for each register with
an assigned byte, completed from the snapshot, and one memory byte for each assigned one.
-/

namespace FastPokeEmu.Testcase

open Numerals LazyMemory InputNames List

/-- Byte `i` of a number. -/
def byteAt (w i : Nat) : Nat := w / 256 ^ i % 256

theorem byteAt_zero (w : Nat) : byteAt w 0 = w % 256 := by
  rw [byteAt, pow_zero, Nat.div_one]

theorem byteAt_succ (w i : Nat) : byteAt w (i + 1) = byteAt (w / 256) i := by
  rw [byteAt, byteAt, Nat.pow_succ', Nat.div_div_eq_div_mul]

theorem eq_of_byteAt {n w w' : Nat} (small : w < 256 ^ n) (small' : w' < 256 ^ n)
    (same : ∀ i < n, byteAt w i = byteAt w' i)
    : w = w' := by
  induction n generalizing w w' with
  | zero => omega
  | succ n ih =>
    rw [Nat.pow_succ] at small small'
    have high : w / 256 = w' / 256 := by
      refine ih (Nat.div_lt_of_lt_mul (by omega)) (Nat.div_lt_of_lt_mul (by omega))
        fun i bound => ?_
      rw [← byteAt_succ, ← byteAt_succ]
      exact same (i + 1) (by omega)
    have low := same 0 (by omega)
    rw [byteAt_zero, byteAt_zero] at low
    omega

theorem byteAt_foldr (bytes : Bytes) (i : Nat)
    : byteAt (bytes.foldr (fun b w => b.toNat + 256 * w) 0) i = (bytes.getD i 0).toNat := by
  induction bytes generalizing i with
  | nil => simp [byteAt]
  | cons b bytes ih =>
    have small := b.toNat_lt
    cases i with
    | zero =>
      rw [foldr_cons, byteAt_zero, getD_cons_zero]
      omega
    | succ i =>
      rw [foldr_cons, byteAt_succ, getD_cons_succ, ← ih i]
      congr 1
      omega

theorem foldr_lt (bytes : Bytes)
    : bytes.foldr (fun b w => b.toNat + 256 * w) 0 < 256 ^ bytes.length := by
  induction bytes with
  | nil => simp
  | cons b bytes ih =>
    have small := b.toNat_lt
    rw [foldr_cons, length_cons, Nat.pow_succ]
    omega

/-- A register keeps the bytes read and takes the others from the snapshot. -/
theorem loadRegister_spec (kind : RegKind) (k : List Char) {size w : Nat}
    {v : List (Option UInt8)} (fits : w < 256 ^ size) (length : v.length = size)
    : ∃ value, loadRegister kind size k (some w) v = some { kind, name := k, value }
        ∧ value < 256 ^ size
        ∧ ∀ i < size,
            (∀ b, v[i]? = some (some b) → byteAt value i = b.toNat)
            ∧ (v[i]? = some none → byteAt value i = byteAt w i) := by
  let o : Bytes := (List.range size).map (fun i => UInt8.ofNat (w / 256 ^ i % 256))
  let r : Bytes := zipWith (fun b w => w.getD b) o v
  have lengthO : o.length = size := by simp [o]
  have lengthR : r.length = size := by simp [r, lengthO, length]
  refine ⟨r.foldr (fun b w => b.toNat + 256 * w) 0, ?_, ?_, fun i small => ?_⟩
  · simp only [loadRegister, pack, if_pos fits, merge, unpack, Option.bind_eq_bind,
      Option.bind_some]
    rw [if_pos (lengthO.trans length.symm), Option.bind_some, if_pos lengthR]
    rfl
  · exact lengthR ▸ foldr_lt r
  · have atI : r[i]? = (v[i]?).map (fun x => x.getD (UInt8.ofNat (w / 256 ^ i % 256))) := by
      have original : o[i]? = some (UInt8.ofNat (w / 256 ^ i % 256)) := by simp [o, small]
      rw [List.getElem?_zipWith, original]
      cases v[i]? <;> rfl
    have value (b : UInt8) (found : r[i]? = some b)
        : byteAt (r.foldr (fun b w => b.toNat + 256 * w) 0) i = b.toNat := by
      rw [byteAt_foldr, getD_eq_getElem?_getD, found, Option.getD_some]
    refine ⟨fun b found => value b ?_, fun missing => ?_⟩
    · rw [atI, found]
      rfl
    · rw [value (UInt8.ofNat (w / 256 ^ i % 256)) (by rw [atI, missing]; rfl), byteAt]
      exact UInt8.toNat_ofNat_of_lt (Nat.mod_lt _ (by decide))

/-- The register's bytes are the assigned ones, and the snapshot's where none is assigned. -/
def Completed (cpu : Cpu) (asg : List (Variable × UInt8)) (r : Register) : Prop :=
  ∃ w, r.kind.original cpu r.name = some w
    ∧ r.value < 256 ^ r.kind.size
    ∧ ∀ i < r.kind.size,
        (∀ b, (.register r.kind r.name i, b) ∈ asg → byteAt r.value i = b.toNat)
        ∧ ((∀ b, (.register r.kind r.name i, b) ∉ asg) → byteAt r.value i = byteAt w i)

/-- The memory byte has the assigned value. -/
def Assigned (asg : List (Variable × UInt8)) (m : Memory) : Prop :=
  ∃ b, m.value = some b ∧ (.memory m.address m.symbol, b) ∈ asg

/-- A finite assignment of bytes to input variables: one value for each, one information
string for each memory byte, and registers that the snapshot has.
-/
structure Valid (cpu : Cpu) (asg : List (Variable × UInt8)) : Prop where
  distinct : (asg.map Prod.fst).Nodup
  oneInfo
    : ∀ addr sym sym', .memory addr sym ∈ asg.map Prod.fst
        → .memory addr sym' ∈ asg.map Prod.fst → sym = sym'
  registers
    : ∀ kind name i, .register kind name i ∈ asg.map Prod.fst
        → i < kind.size ∧ Plain name
          ∧ ∃ w, kind.original cpu name = some w ∧ w < 256 ^ kind.size

def Register.key (r : Register) : Key := (r.kind.tag, r.name)

def Memory.key (m : Memory) : Key := ("mem".toList, hex8 m.address)

section

variable {cpu : Cpu} {asg : List (Variable × UInt8)}

theorem Valid.wellFormed (valid : Valid cpu asg) : ∀ p ∈ asg, p.1.WellFormed := by
  rintro ⟨x, v⟩ mem
  cases x with
  | register kind name i =>
    obtain ⟨small, plain, _⟩ := valid.registers kind name i (mem_map_of_mem mem)
    exact ⟨plain, small⟩
  | memory addr sym => trivial

theorem Valid.consistent (valid : Valid cpu asg) : Consistent asg := by
  rintro ⟨x, v⟩ mem ⟨y, w⟩ mem' same
  cases x with
  | register kind name i =>
    cases y with
    | register kind' name' i' =>
      obtain rfl := RegKind.tag_injective (Prod.mk.inj same).1
      exact ⟨rfl, rfl⟩
    | memory addr sym => exact (kind.tag_ne_mem (Prod.mk.inj same).1).elim
  | memory addr sym =>
    cases y with
    | register kind name i => exact (kind.tag_ne_mem (Prod.mk.inj same).1.symm).elim
    | memory addr' sym' =>
      obtain rfl := hex8_injective (Prod.mk.inj same).2
      exact ⟨valid.oneInfo addr sym sym' (mem_map_of_mem mem) (mem_map_of_mem mem'), rfl⟩

theorem Valid.perm {lines : List (Variable × UInt8)} (valid : Valid cpu asg)
    (order : lines.Perm asg)
    : Valid cpu lines := by
  have names := order.map Prod.fst
  refine ⟨names.nodup_iff.mpr valid.distinct, fun addr sym sym' first second => ?_,
    fun kind name i mem => ?_⟩
  · exact valid.oneInfo addr sym sym' (names.mem_iff.mp first) (names.mem_iff.mp second)
  · exact valid.registers kind name i (names.mem_iff.mp mem)

/-- Which registers and memory bytes come of an item. -/
inductive Yields (cpu : Cpu) (asg : List (Variable × UInt8))
    : Key → List Register → List Memory → Prop where
  | register (r : Register) (completed : Completed cpu asg r) : Yields cpu asg r.key [r] []
  | memory (m : Memory) (assigned : Assigned asg m) : Yields cpu asg m.key [] [m]

theorem loadItem_register (cpu : Cpu) (kind : RegKind) (name : List Char) (e : Entry)
    (out : List Register × List Memory)
    : loadItem cpu out ((kind.tag, name), e)
      = (loadRegister kind kind.size name (kind.original cpu name) e.vals).map
          (fun r => (out.1 ++ [r], out.2)) := by
  cases kind <;> rfl

/-- Without `0x` in front, all characters are digits. -/
theorem intHex_hex8 (addr : Nat) : intHex (hex8 addr) = some addr := by
  have plain (c : Char) (mem : c ∈ hex8 addr) : c ≠ 'x' ∧ c ≠ 'X' := by
    obtain ⟨d, small, rfl⟩ := mem_hex8 mem
    clear mem
    decide +revert
  have digits : parse 16 (hex8 addr) = some addr := by
    rw [hex8, parse_pad (by decide) (print_ne_nil 16 addr), parse_print (by decide) (by decide)]
  rw [← digits]
  unfold intHex
  split
  next shape =>
    exact ((plain 'x' (by simp [shape])).1 rfl).elim
  next shape =>
    exact ((plain 'X' (by simp [shape])).2 rfl).elim
  · rfl

theorem loadItem_memory (cpu : Cpu) (addr : Nat) (e : Entry) (out : List Register × List Memory)
    {b : Option UInt8} (value : e.vals.head? = some b)
    : loadItem cpu out (("mem".toList, hex8 addr), e)
      = some (out.1, out.2 ++ [{ address := addr, value := b, symbol := e.info }]) := by
  change (intHex (hex8 addr)).bind (fun a => e.vals.head?.bind _) = _
  rw [intHex_hex8, Option.bind_some, value]
  rfl

/-- Every item gives one register or one memory byte, that of its key. -/
theorem Read.yields {inputs : Inputs} (read : Read asg inputs) (valid : Valid cpu asg)
    {item : Key × Entry} (member : item ∈ inputs)
    : ∃ rs ms, (∀ out, loadItem cpu out item = some (out.1 ++ rs, out.2 ++ ms))
        ∧ Yields cpu asg item.1 rs ms := by
  obtain ⟨k, e⟩ := item
  obtain ⟨⟨x, v⟩, assigned, same⟩ := (read.keys k).mp (mem_map_of_mem (f := Prod.fst) member)
  obtain ⟨info, length⟩ := read.shape k e member _ assigned same
  have values := read.vals k e member
  cases x with
  | register kind name i =>
    obtain rfl : (kind.tag, name) = k := same
    obtain ⟨_, _, w, original, fits⟩ := valid.registers kind name i (mem_map_of_mem assigned)
    obtain ⟨value, loaded, bound, bytes⟩ := loadRegister_spec kind name fits
      (length : e.vals.length = kind.size)
    refine ⟨[{ kind, name, value }], [], fun out => ?_, .register { kind, name, value } ?_⟩
    · rw [loadItem_register, original, loaded, append_nil]
      rfl
    · refine ⟨w, original, bound, fun j small => ⟨fun b inside => ?_, fun none => ?_⟩⟩
      · exact (bytes j small).1 b ((values j b).mpr ⟨_, inside, rfl, rfl, rfl⟩)
      · refine (bytes j small).2 ?_
        have there : j < e.vals.length := length ▸ small
        rw [List.getElem?_eq_getElem there]
        cases found : e.vals[j] with
        | none => rfl
        | some b =>
          have set : e.vals[j]? = some (some b) := by
            rw [List.getElem?_eq_getElem there, found]
          obtain ⟨⟨y, c⟩, inside, sameKey, index, equal⟩ := (values j b).mp set
          -- The variable with this key and index is the register's byte.
          have sameInfo := (valid.consistent _ inside _ assigned sameKey).1
          have variable_eq : y = .register kind name j :=
            Variable.eq_of_parts sameKey index sameInfo
          exact (none b (by rw [← variable_eq, ← equal]; exact inside)).elim
  | memory addr sym =>
    obtain rfl : ("mem".toList, hex8 addr) = k := same
    have first : e.vals.head? = some (some v) := by
      rw [List.head?_eq_getElem?]
      exact (values 0 v).mpr ⟨_, assigned, rfl, rfl, rfl⟩
    refine ⟨[], [{ address := addr, value := some v, symbol := e.info }], fun out => ?_,
      .memory { address := addr, value := some v, symbol := e.info } ⟨v, rfl, ?_⟩⟩
    · rw [loadItem_memory cpu addr e out first, append_nil]
    · rw [info]
      exact assigned

/-- All items, in any order. -/
theorem loadItems {items : Inputs}
    (each
      : ∀ item ∈ items, ∃ rs ms,
          (∀ out, loadItem cpu out item = some (out.1 ++ rs, out.2 ++ ms))
          ∧ Yields cpu asg item.1 rs ms)
    (out : List Register × List Memory)
    : ∃ rs ms, items.foldlM (loadItem cpu) out = some (out.1 ++ rs, out.2 ++ ms)
        ∧ (rs.map Register.key ++ ms.map Memory.key).Perm (items.map Prod.fst)
        ∧ (∀ r ∈ rs, Completed cpu asg r)
        ∧ ∀ m ∈ ms, Assigned asg m := by
  induction items generalizing out with
  | nil => exact ⟨[], [], by simp, .nil, by simp, by simp⟩
  | cons item items ih =>
    obtain ⟨rs, ms, loaded, yields⟩ := each item mem_cons_self
    obtain ⟨rs', ms', rest, keys, completed, assigned⟩ :=
      ih (fun other mem => each other (mem_cons_of_mem _ mem))
        (out.1 ++ rs, out.2 ++ ms)
    refine ⟨rs ++ rs', ms ++ ms', ?_, ?_, ?_, ?_⟩
    · rw [foldlM_cons, loaded]
      simpa using rest
    · rw [map_cons]
      generalize item.1 = k at yields
      cases yields with
      | register r _ => exact keys.cons _
      | memory m _ => exact perm_middle.trans (keys.cons _)
    · intro r mem
      rcases mem_append.mp mem with here | later
      · generalize item.1 = k at yields
        cases yields with
        | register r' done => exact mem_singleton.mp here ▸ done
        | memory => cases here
      · exact completed r later
    · intro m mem
      rcases mem_append.mp mem with here | later
      · generalize item.1 = k at yields
        cases yields with
        | register => cases here
        | memory m' done => exact mem_singleton.mp here ▸ done
      · exact assigned m later

/-- A register is known by its key, as the assignment determines its value. -/
theorem Completed.unique {r r' : Register} (completed : Completed cpu asg r)
    (completed' : Completed cpu asg r') (same : r.key = r'.key)
    : r = r' := by
  obtain ⟨kind, name, value⟩ := r
  obtain ⟨kind', name', value'⟩ := r'
  obtain rfl := RegKind.tag_injective (Prod.mk.inj same).1
  obtain rfl : name = name' := (Prod.mk.inj same).2
  obtain ⟨w, original, bound, bytes⟩ := completed
  obtain ⟨w', original', bound', bytes'⟩ := completed'
  obtain rfl : w = w' := Option.some.inj (original.symm.trans original')
  obtain rfl : value = value' := by
    refine eq_of_byteAt bound bound' fun i small => ?_
    by_cases set : ∃ b, (Variable.register kind name i, b) ∈ asg
    · obtain ⟨b, mem⟩ := set
      exact ((bytes i small).1 b mem).trans ((bytes' i small).1 b mem).symm
    · have none (b : UInt8) : (Variable.register kind name i, b) ∉ asg :=
        fun mem => set ⟨b, mem⟩
      exact ((bytes i small).2 none).trans ((bytes' i small).2 none).symm
  rfl

theorem Valid.value_unique (valid : Valid cpu asg) {x : Variable} {b c : UInt8}
    (first : (x, b) ∈ asg) (second : (x, c) ∈ asg)
    : b = c :=
  (Prod.mk.inj (inj_on_of_nodup_map valid.distinct first second rfl)).2

end

/-- What is written is read back, whatever the order of the lines and of the dictionary: one
register for each with an assigned byte, completed from the snapshot, one memory byte for
each assigned one, and nothing else. Witness: the entries of the dictionary are those of the
assigned variables.
-/
theorem testcase_round_trip {cpu : Cpu} {asg lines : List (Variable × UInt8)}
    (valid : Valid cpu asg) (order : lines.Perm asg)
    : ∃ tc, loadFuzzballTc (writeTestcase (lines.map (fun p => (p.1.name, p.2.toNat)))) = some tc
        ∧ ∀ items, items.Perm tc
          → ∃ regs mems, loadFuzzballTestcase cpu items = some (regs, mems)
              ∧ (regs.map (fun r => (r.kind, r.name))).Nodup
              ∧ (∀ r, r ∈ regs
                  ↔ (∃ i b, (.register r.kind r.name i, b) ∈ asg) ∧ Completed cpu asg r)
              ∧ (mems.map Memory.address).Nodup
              ∧ ∀ m, m ∈ mems ↔ Assigned asg m := by
  have validLines := valid.perm order
  obtain ⟨tc, loaded, read⟩ :=
    read_lines validLines.wellFormed validLines.distinct validLines.consistent
  refine ⟨tc, ?_, fun items perm => ?_⟩
  · rw [loadFuzzballTc, splitOn_writeTestcase validLines.wellFormed, foldlM_append, loaded]
    rfl
  obtain ⟨regs, mems, result, keys, completed, assigned⟩ :=
    loadItems (fun item member => read.yields validLines (perm.mem_iff.mp member)) ([], [])
  have mem_lines (p : Variable × UInt8) : p ∈ lines ↔ p ∈ asg := order.mem_iff
  have completed (r : Register) (member : r ∈ regs) : Completed cpu asg r := by
    simpa only [Completed, mem_lines] using completed r member
  have assigned (m : Memory) (member : m ∈ mems) : Assigned asg m := by
    simpa only [Assigned, mem_lines] using assigned m member
  have allKeys := keys.trans (perm.map Prod.fst)
  have distinct := nodup_append.mp (allKeys.nodup_iff.mpr read.nodup)
  have found {x : Variable} {b : UInt8} (member : (x, b) ∈ asg)
      : x.key ∈ regs.map Register.key ∨ x.key ∈ mems.map Memory.key := by
    rw [← mem_append, allKeys.mem_iff, read.keys]
    exact ⟨_, (mem_lines _).mpr member, rfl⟩
  refine ⟨regs, mems, by simpa [loadFuzzballTestcase] using result, ?_, fun r => ?_, ?_,
    fun m => ?_⟩
  · refine List.Nodup.of_map (fun k : RegKind × List Char => (k.1.tag, k.2)) ?_
    rw [map_map]
    exact distinct.1
  · refine ⟨fun member => ⟨?_, completed r member⟩, fun ⟨⟨i, b, member⟩, done⟩ => ?_⟩
    · have listed : r.key ∈ tc.map Prod.fst :=
        allKeys.mem_iff.mp (mem_append_left _ (mem_map_of_mem member))
      obtain ⟨⟨x, b⟩, inside, same⟩ := (read.keys _).mp listed
      cases x with
      | register kind name i =>
        obtain rfl := RegKind.tag_injective (Prod.mk.inj same).1
        obtain rfl : name = r.name := (Prod.mk.inj same).2
        exact ⟨i, b, (mem_lines _).mp inside⟩
      | memory addr sym => exact (r.kind.tag_ne_mem (Prod.mk.inj same).1.symm).elim
    · rcases found member with here | other
      · obtain ⟨r', inside, same⟩ := mem_map.mp here
        exact (completed r' inside).unique done same ▸ inside
      · obtain ⟨m, _, same⟩ := mem_map.mp other
        exact (r.kind.tag_ne_mem (Prod.mk.inj same).1.symm).elim
  · refine List.Nodup.of_map (fun a : Nat => (("mem".toList, hex8 a) : Key)) ?_
    rw [map_map]
    exact distinct.2.1
  · refine ⟨assigned m, fun done => ?_⟩
    obtain ⟨b, value, member⟩ := done
    rcases found member with other | here
    · obtain ⟨r, _, same⟩ := mem_map.mp other
      exact (r.kind.tag_ne_mem (Prod.mk.inj same).1).elim
    · obtain ⟨m', inside, same⟩ := mem_map.mp here
      obtain ⟨c, value', member'⟩ := assigned m' inside
      obtain ⟨address, _, symbol⟩ := m
      obtain ⟨address', _, symbol'⟩ := m'
      obtain rfl : address' = address := hex8_injective (Prod.mk.inj same).2
      obtain rfl : symbol' = symbol := valid.oneInfo address' symbol' symbol
        (mem_map_of_mem member') (mem_map_of_mem member)
      obtain rfl : c = b := valid.value_unique member' member
      simp only at value value'
      rw [value]
      rw [value'] at inside
      exact inside

/-- Every register of the snapshot has the same value. -/
def constantCpu : Cpu where
  regsState := fun _ => some 0x12345678
  selector := fun _ => some 0x10
  sregsState := fun _ => some 0x80000011

/-- Two bytes of a general register, one of a segment and one of a control register, a byte
of the descriptor table and a byte made symbolic lazily.
-/
def fewInputs : List (Variable × UInt8) :=
  [(.register .reg "EAX".toList 0, 0x01),
    (.register .reg "EAX".toList 2, 0xff),
    (.register .sreg "CS".toList 1, 0x20),
    (.register .creg "CR0".toList 3, 0x00),
    (.memory 0x2008 (ascii "GDT_1_8_0".toList), 0x7f),
    (.memory 0x9000 [], 0x0a)]

theorem valid_fewInputs : Valid constantCpu fewInputs := by
  refine ⟨by decide, fun addr sym sym' first second => ?_, fun kind name i mem => ?_⟩
  · simp only [fewInputs, map_cons, map_nil, mem_cons, not_mem_nil, or_false,
      reduceCtorEq, false_or, Variable.memory.injEq] at first second
    rcases first with ⟨rfl, rfl⟩ | ⟨rfl, rfl⟩ <;> rcases second with ⟨same, rfl⟩ | ⟨same, rfl⟩ <;>
      first | rfl | cases same
  · simp only [fewInputs, map_cons, map_nil, mem_cons, not_mem_nil, or_false,
      reduceCtorEq, Variable.register.injEq] at mem
    rcases mem with ⟨rfl, rfl, rfl⟩ | ⟨rfl, rfl, rfl⟩ | ⟨rfl, rfl, rfl⟩ | ⟨rfl, rfl, rfl⟩ <;>
      exact ⟨by decide, by decide, _, rfl, by decide⟩

theorem testcase_round_trip_fewInputs
    : ∃ tc, loadFuzzballTc
          (writeTestcase (fewInputs.reverse.map (fun p => (p.1.name, p.2.toNat)))) = some tc
        ∧ ∀ items, items.Perm tc
          → ∃ regs mems, loadFuzzballTestcase constantCpu items = some (regs, mems)
              ∧ (regs.map (fun r => (r.kind, r.name))).Nodup
              ∧ (∀ r, r ∈ regs
                  ↔ (∃ i b, (.register r.kind r.name i, b) ∈ fewInputs)
                    ∧ Completed constantCpu fewInputs r)
              ∧ (mems.map Memory.address).Nodup
              ∧ ∀ m, m ∈ mems ↔ Assigned fewInputs m :=
  testcase_round_trip valid_fewInputs (reverse_perm fewInputs)

end FastPokeEmu.Testcase
