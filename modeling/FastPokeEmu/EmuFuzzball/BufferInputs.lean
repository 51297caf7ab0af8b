import FastPokeEmu.EmuFuzzball.InputPartition
import FastPokeEmu.Floppy.TestcaseLines

/-! Buffers that are made symbolic (`make_buf_symbolic` of `run-emu-fuzzball.py`).
The loop extends the name of the byte before, forgets the options of the bytes before and
never moves on to the next address.
-/

namespace FastPokeEmu.SymbolicInputs

open Numerals LazyMemory InputNames Testcase List

/-- The variables of the loop, and the lists of the script that it extends. -/
structure Buffer where
  name : List Char
  cmdline : List CmdOption
  symbolicBytes : List Nat
  concreteBytes : List Nat

/-- `"%s_%s_%d_%d" % (name, encode(extraname), len(values), i)` -/
def bufName (name : List Char) (extraname : Bytes) (size i : Nat) : List Char :=
  name ++ '_' :: encode extraname ++ '_' :: dec size ++ '_' :: dec i

def bufStep (haddr : Nat) (extraname values : Bytes) (masks : List Nat) (b : Buffer) (i : Nat)
    : Option Buffer := do
  let name := bufName b.name extraname values.length i
  let mask ← masks[i]?
  let value ← values[i]?
  if mask < 0xff then
    -- an assignment, where the other functions append
    some
      { b with
        name
        cmdline := .symbolicByte haddr name
          :: (if mask > 0 then [.extraCondition name mask (value.toNat &&& mask)] else [])
        symbolicBytes := b.symbolicBytes ++ [haddr] }
  else some { b with name, concreteBytes := b.concreteBytes ++ [haddr] }

/-- The options returned, and the state with the two lists extended. -/
def makeBufSymbolic (s : State) (haddr : Nat) (name : List Char) (values : Bytes)
    (masks : List Nat) (extraname : Bytes)
    : Option (List CmdOption × State) := do
  let b ← (List.range values.length).foldlM (bufStep haddr extraname values masks)
    ⟨name, [], s.symbolicBytes, s.concreteBytes⟩
  some (b.cmdline, { s with symbolicBytes := b.symbolicBytes, concreteBytes := b.concreteBytes })

/-- A test case with a value for the variable is read back, under the type and the name that
the variable's name gives.
-/
def Accepted (name : List Char) : Prop :=
  ∃ t n d s i,
    name.splitOn '_' = ["in".toList, t, n, d, s, i]
    ∧ ∀ v : UInt8, ∃ entry,
        loadFuzzballTc (testcaseLine name v.toNat) = some [((t, n), entry)]

/-- Each byte of a buffer at its own address: concrete, or declared under a name of its own
with exactly the bits of its mask pinned.
-/
structure Symbolised (haddr : Nat) (values : Bytes) (masks : List Nat) (s : State)
    (options : List CmdOption) (s' : State)
    : Prop where
  symbolicBytes
    : s'.symbolicBytes
      = s.symbolicBytes
        ++ ((List.range values.length).filter (fun i => masks.getD i 0 < 0xff)).map (haddr + ·)
  concreteBytes
    : s'.concreteBytes
      = s.concreteBytes
        ++ ((List.range values.length).filter (fun i => ¬ masks.getD i 0 < 0xff)).map (haddr + ·)
  declared
    : ∃ name : Nat → List Char,
        (∀ i < values.length, ∀ j < values.length,
          masks.getD i 0 < 0xff → masks.getD j 0 < 0xff → name i = name j → i = j)
        ∧ ∀ i < values.length,
            masks.getD i 0 < 0xff
            → options.filterMap (·.nameAt (haddr + i)) = [name i]
              ∧ Accepted (name i)
              ∧ options.filterMap (·.conditionOn (name i))
                = pins (masks.getD i 0) (values.getD i 0).toNat

theorem splitOn_bufName (name : List Char) (extraname : Bytes) (size i : Nat)
    : (bufName name extraname size i).splitOn '_'
      = name.splitOn '_' ++ [encode extraname, dec size, dec i] := by
  have single {cs : List Char} (plain : Plain cs) : cs.splitOnP (· == '_') = [cs] := by
    apply splitOnP_eq_singleton
    intro c mem
    exact beq_eq_false_iff_ne.mpr (plain c mem).1
  rw [bufName, List.splitOn, splitOnP_append_cons _ _ (by rfl), splitOnP_append_cons _ _ (by rfl),
    splitOnP_append_cons _ _ (by rfl), single (plain_encode _), single (plain_dec _),
    single (plain_dec _), append_assoc, append_assoc]
  rfl

theorem Accepted.parts {name : List Char} {extraname : Bytes} {size i : Nat}
    (accepted : Accepted (bufName name extraname size i))
    : (name.splitOn '_').length = 3 := by
  obtain ⟨t, n, d, s, j, fields, _⟩ := accepted
  rw [splitOn_bufName] at fields
  have length := congrArg List.length fields
  simpa using length

theorem loadFuzzballTc_line {name : List Char} {v : Nat}
    (line : ∀ c ∈ name ++ "=0x".toList ++ print 16 v, isSpace c = false)
    : loadFuzzballTc (testcaseLine name v) = loadLine [] (name ++ "=0x".toList ++ print 16 v) := by
  have first : ∀ c ∈ name ++ "=0x".toList ++ print 16 v, (c == '\n') = false := by
    intro c mem
    refine beq_eq_false_iff_ne.mpr fun same => ?_
    have space := line c mem
    rw [same] at space
    cases space
  have lines : (testcaseLine name v).splitOn '\n' = [name ++ "=0x".toList ++ print 16 v, []] :=
    splitOnP_append_cons_of_forall_mem first '\n' rfl []
  rw [loadFuzzballTc, lines, foldlM_cons]
  cases loadLine [] (name ++ "=0x".toList ++ print 16 v) with
  | none => rfl
  | some inputs => rfl

/-- The only byte of a buffer has a name that is accepted, if type and name are plain. -/
theorem accepted_bufName {t n : List Char} (type : Plain t) (name : Plain n) (extraname : Bytes)
    : Accepted (bufName ("in".toList ++ '_' :: t ++ '_' :: n) extraname 1 0) := by
  have first : Plain "in".toList := by decide
  have plain : ∀ f ∈ ["in".toList, t, n, encode extraname, dec 1, dec 0], Plain f := by
    simp only [forall_mem_cons]
    exact ⟨first, type, name, plain_encode _, plain_dec _, plain_dec _, by simp⟩
  have shape : bufName ("in".toList ++ '_' :: t ++ '_' :: n) extraname 1 0
      = ['_'].intercalate ["in".toList, t, n, encode extraname, dec 1, dec 0] := by
    simp [bufName, intercalate]
  rw [shape]
  refine ⟨t, n, encode extraname, dec 1, dec 0, ?_, fun v => ?_⟩
  · exact splitOn_intercalate '_' (fun f field mem => (plain f field _ mem).1 rfl)
      (cons_ne_nil _ _)
  · refine ⟨⟨[some v], extraname⟩, ?_⟩
    rw [loadFuzzballTc_line (fun c => isSpace_line plain), loadLine_fields plain]
    have one : parse 10 (dec 1) = some 1 := rfl
    have zero : parse 10 (dec 0) = some 0 := rfl
    have value : (intHex ("0x".toList ++ print 16 v.toNat)).bind chr = some v := by
      rw [intHex_print, Option.bind_some, chr_toNat]
    rw [loadField, value]
    simp [declare, assign, one, zero, decode_encode]

/-- All addresses that the loop adds are the first one. -/
structure Stuck (haddr : Nat) (b b' : Buffer) : Prop where
  symbolicBytes : ∃ added, b'.symbolicBytes = b.symbolicBytes ++ added ∧ ∀ a ∈ added, a = haddr
  concreteBytes : ∃ added, b'.concreteBytes = b.concreteBytes ++ added ∧ ∀ a ∈ added, a = haddr

section

variable {haddr : Nat} {extraname values : Bytes} {masks : List Nat} {b b' b'' : Buffer}

theorem Stuck.refl (b : Buffer) : Stuck haddr b b :=
  ⟨⟨[], by simp, by simp⟩, ⟨[], by simp, by simp⟩⟩

theorem Stuck.trans (first : Stuck haddr b b') (second : Stuck haddr b' b'')
    : Stuck haddr b b'' := by
  have join {l l' l'' : List Nat} (one : ∃ added, l' = l ++ added ∧ ∀ a ∈ added, a = haddr)
      (two : ∃ added, l'' = l' ++ added ∧ ∀ a ∈ added, a = haddr)
      : ∃ added, l'' = l ++ added ∧ ∀ a ∈ added, a = haddr := by
    obtain ⟨xs, rfl, same⟩ := one
    obtain ⟨ys, rfl, same'⟩ := two
    refine ⟨xs ++ ys, append_assoc _ _ _, fun a mem => ?_⟩
    exact (mem_append.mp mem).elim (same a) (same' a)
  exact ⟨join first.symbolicBytes second.symbolicBytes,
    join first.concreteBytes second.concreteBytes⟩

theorem stuck_bufStep {i : Nat} (made : bufStep haddr extraname values masks b i = some b')
    : Stuck haddr b b' := by
  obtain ⟨mask, _, made⟩ := Option.bind_eq_some_iff.mp made
  obtain ⟨value, _, made⟩ := Option.bind_eq_some_iff.mp made
  have one : ∀ a ∈ [haddr], a = haddr := fun a => mem_singleton.mp
  split at made
  · rw [← Option.some.inj made]
    exact ⟨⟨[haddr], rfl, one⟩, ⟨[], by simp, by simp⟩⟩
  · rw [← Option.some.inj made]
    exact ⟨⟨[], by simp, by simp⟩, ⟨[haddr], rfl, one⟩⟩

end

section

variable {s s' : State} {haddr : Nat} {name : List Char} {values extraname : Bytes}
  {masks : List Nat} {options : List CmdOption}

/-- A buffer of more than one byte is never processed byte by byte. -/
theorem Symbolised.length_le (symbolised : Symbolised haddr values masks s options s')
    (made : makeBufSymbolic s haddr name values masks extraname = some (options, s'))
    : values.length ≤ 1 := by
  by_contra long
  obtain ⟨b, loop, made⟩ := Option.bind_eq_some_iff.mp made
  obtain ⟨rfl, rfl⟩ := Prod.mk.inj (Option.some.inj made)
  have stuck := Folds.foldlM_rel Stuck.refl (fun _ _ _ => Stuck.trans)
    (fun _ _ _ step => stuck_bufStep step) loop
  have second : 1 ∈ List.range values.length := mem_range.mpr (by omega)
  -- the second byte is missing from the list it belongs to
  have missing {p : Nat → Bool} {l l' added : List Nat} (holds : p 1 = true)
      (grown : l' = l ++ added) (same : ∀ a ∈ added, a = haddr)
      (all : l' = l ++ ((List.range values.length).filter p).map (haddr + ·))
      : False := by
    have equal := append_cancel_left (grown.symm.trans all)
    have mem : haddr + 1 ∈ added := by
      rw [equal]
      exact mem_map.mpr ⟨1, mem_filter.mpr ⟨second, holds⟩, rfl⟩
    exact absurd (same _ mem) (by omega)
  by_cases symbolic : masks.getD 1 0 < 0xff
  · obtain ⟨added, grown, same⟩ := stuck.symbolicBytes
    exact missing (by simpa using symbolic) grown same symbolised.symbolicBytes
  · obtain ⟨added, grown, same⟩ := stuck.concreteBytes
    exact missing (by simpa using symbolic) grown same symbolised.concreteBytes

theorem makeBufSymbolic_singleton (s : State) (haddr : Nat) (name : List Char) (v : UInt8)
    (mask : Nat) (extraname : Bytes)
    : makeBufSymbolic s haddr name [v] [mask] extraname
      = some
          ((Input.mk haddr (bufName name extraname 1 0) v.toNat mask false).options,
            { s with
              symbolicBytes := s.symbolicBytes ++ if mask < 0xff then [haddr] else []
              concreteBytes := s.concreteBytes ++ if mask < 0xff then [] else [haddr] }) := by
  by_cases symbolic : mask < 0xff <;>
    simp [makeBufSymbolic, bufStep, symbolic, Input.options, Input.symbolic, range_succ]

/-- Exactly empty buffers, and single bytes that need no name or have one that is accepted, are
made symbolic byte by byte.
-/
theorem makeBufSymbolic_iff (s : State) (haddr : Nat) (name : List Char) {values : Bytes}
    {masks : List Nat} (extraname : Bytes) (same : values.length = masks.length)
    : (∃ options s',
        makeBufSymbolic s haddr name values masks extraname = some (options, s')
        ∧ Symbolised haddr values masks s options s')
      ↔ values.length = 0
        ∨ values.length = 1
          ∧ (masks.getD 0 0 < 0xff → Accepted (bufName name extraname 1 0)) := by
  constructor
  · rintro ⟨options, s', made, symbolised⟩
    have short := symbolised.length_le made
    by_cases empty : values.length = 0
    · exact Or.inl empty
    have single : values.length = 1 := by omega
    refine Or.inr ⟨single, fun symbolic => ?_⟩
    obtain ⟨v, rfl⟩ := length_eq_one_iff.mp single
    obtain ⟨mask, rfl⟩ := length_eq_one_iff.mp (same.symm.trans single)
    rw [makeBufSymbolic_singleton] at made
    obtain ⟨rfl, rfl⟩ := Prod.mk.inj (Option.some.inj made)
    obtain ⟨names, _, declared⟩ := symbolised.declared
    obtain ⟨named, accepted, _⟩ := declared 0 (by simp) symbolic
    have small : mask < 0xff := symbolic
    rw [options_names, if_pos ⟨by simpa [Input.symbolic] using small, rfl⟩] at named
    have same : bufName name extraname 1 0 = names 0 := (List.cons.inj named).1
    rwa [same]
  · rintro (empty | ⟨single, accepted⟩)
    · obtain rfl := length_eq_zero_iff.mp empty
      exact ⟨[], s, rfl, ⟨by simp, by simp, fun _ => [], by simp, by simp⟩⟩
    · obtain ⟨v, rfl⟩ := length_eq_one_iff.mp single
      obtain ⟨mask, rfl⟩ := length_eq_one_iff.mp (same.symm.trans single)
      refine ⟨_, _, makeBufSymbolic_singleton s haddr name v mask extraname, ?_, ?_, ?_⟩
      · by_cases symbolic : mask < 0xff <;> simp [symbolic, range_succ]
      · by_cases symbolic : mask < 0xff
        · simp [symbolic, range_succ]
        · simp [symbolic, range_succ, Nat.not_lt.mp symbolic]
      · refine ⟨fun _ => bufName name extraname 1 0, ?_, ?_⟩
        · intro i here j there _ _ _
          simp only [length_singleton] at here there
          omega
        · intro i here symbolic
          obtain rfl : i = 0 := by simpa using here
          have small : mask < 0xff := symbolic
          have declared : (Input.mk haddr (bufName name extraname 1 0) v.toNat mask false).symbolic
              = true := by simpa [Input.symbolic] using small
          refine ⟨?_, accepted symbolic, ?_⟩
          · rw [options_names, if_pos ⟨declared, rfl⟩]
          · rw [options_conditions, if_pos ⟨declared, rfl⟩]
            rfl

end

theorem makeBufSymbolic_iff_plain
    : ∃ options s',
        makeBufSymbolic start 0x1000 "in_buf_data".toList [0x90] [0x7f] [] = some (options, s')
        ∧ Symbolised 0x1000 [0x90] [0x7f] start options s' := by
  refine (makeBufSymbolic_iff start 0x1000 "in_buf_data".toList [] rfl).mpr (Or.inr ⟨rfl, ?_⟩)
  intro _
  have type : Plain "buf".toList := by decide
  have name : Plain "data".toList := by decide
  exact accepted_bufName type name []

/-- Of two bytes only the last one is declared, at the address of the first one; and the byte
that the script itself declares has a name of five fields.
-/
theorem makeBufSymbolic_fails
    : (makeBufSymbolic start 0x1000 "in_buf_data".toList [1, 2] [0, 0] []).map
          (fun result => (result.1, result.2.symbolicBytes))
        = some ([.symbolicByte 0x1000 "in_buf_data__2_0__2_1".toList], [0x1000, 0x1000])
      ∧ ¬ (∃ options s',
          makeBufSymbolic start 0x1000 "in_buf_data".toList [1, 2] [0, 0] [] = some (options, s')
          ∧ Symbolised 0x1000 [1, 2] [0, 0] start options s')
      ∧ ¬ Accepted (bufName "in_metadata2".toList [] 1 0) := by
  refine ⟨by decide +kernel, ?_, ?_⟩
  · rintro ⟨options, s', made, symbolised⟩
    exact absurd (symbolised.length_le made) (by decide)
  · intro accepted
    exact absurd accepted.parts (by decide +kernel)

end FastPokeEmu.SymbolicInputs
