import FastPokeEmu.Floppy.TestcaseFile
import FastPokeEmu.Library.Assoc
import FastPokeEmu.Library.Folds

/-! Lines of a test-case file: their fields, and the dictionary that reading them builds, one
entry for each register or memory byte with an assigned value.
-/

namespace FastPokeEmu.Testcase

open Numerals LazyMemory InputNames List

/-- No separator and no blank. -/
def Plain (cs : List Char) : Prop := ∀ c ∈ cs, c ≠ '_' ∧ c ≠ '=' ∧ isSpace c = false

instance (cs : List Char) : Decidable (Plain cs) := List.decidableBAll _ cs

theorem plain_digits {cs : List Char} (digits : ∀ c ∈ cs, ∃ d < 16, c = Nat.digitChar d)
    : Plain cs := by
  intro c mem
  obtain ⟨d, small, rfl⟩ := digits c mem
  clear digits mem
  decide +revert

theorem plain_dec (n : Nat) : Plain (dec n) := plain_digits fun _ => mem_dec

theorem plain_hex8 (n : Nat) : Plain (hex8 n) := plain_digits fun _ => mem_hex8

theorem plain_hex (n : Nat) : Plain (print 16 n) :=
  plain_digits fun _ mem => mem_print (by decide) mem

theorem plain_encode (s : Bytes) : Plain (encode s) := by
  intro c mem
  rcases mem_encode mem with rfl | ⟨d, small, rfl⟩
  · decide
  · clear mem
    decide +revert

/-- Type, name, information, size and index, each as the name has it. -/
def Variable.fields : Variable → List (List Char)
  | .register kind name i => ["in".toList, kind.tag, name, encode [], dec kind.size, dec i]
  | .memory addr sym => ["in".toList, "mem".toList, hex8 addr, encode sym, dec 1, dec 0]

def Variable.key : Variable → Key
  | .register kind name _ => (kind.tag, name)
  | .memory addr _ => ("mem".toList, hex8 addr)

def Variable.info : Variable → Bytes
  | .register _ _ _ => []
  | .memory _ sym => sym

def Variable.size : Variable → Nat
  | .register kind _ _ => kind.size
  | .memory _ _ => 1

def Variable.index : Variable → Nat
  | .register _ _ i => i
  | .memory _ _ => 0

/-- Names of registers are plain, and bytes have an index in the register. -/
def Variable.WellFormed : Variable → Prop
  | .register kind name i => Plain name ∧ i < kind.size
  | .memory _ _ => True

theorem Variable.name_eq (x : Variable) : x.name = ['_'].intercalate x.fields := by
  cases x with
  | register kind name i =>
    rw [Variable.name]
    delta regName
    simp only [Variable.fields, intercalate, intersperse_cons_cons, intersperse_singleton,
      flatten_cons, flatten_nil, append_nil, append_assoc]
    rfl
  | memory addr sym =>
    rw [Variable.name, memName_eq]
    rfl

theorem Variable.plain_fields {x : Variable} (wellFormed : x.WellFormed)
    : ∀ f ∈ x.fields, Plain f := by
  cases x with
  | register kind name i =>
    have tag : Plain kind.tag := by cases kind <;> decide
    have first : Plain "in".toList := by decide
    simp only [Variable.fields, forall_mem_cons]
    exact ⟨first, tag, wellFormed.1, plain_encode [], plain_dec _, plain_dec _, by simp⟩
  | memory addr sym =>
    have first : Plain "in".toList := by decide
    have second : Plain "mem".toList := by decide
    simp only [Variable.fields, forall_mem_cons]
    exact ⟨first, second, plain_hex8 _, plain_encode sym, plain_dec _, plain_dec _, by simp⟩

theorem RegKind.tag_injective {kind kind' : RegKind} (same : kind.tag = kind'.tag)
    : kind = kind' := by
  cases kind <;> cases kind' <;> first | rfl | exact absurd same (by decide)

theorem RegKind.tag_ne_mem (kind : RegKind) : kind.tag ≠ "mem".toList := by
  cases kind <;> decide

/-- The key, the index and the information tell variables apart. -/
theorem Variable.eq_of_parts {x y : Variable} (key : x.key = y.key) (index : x.index = y.index)
    (info : x.info = y.info)
    : x = y := by
  cases x with
  | register kind name i =>
    cases y with
    | register kind' name' i' =>
      obtain ⟨tag, names⟩ := Prod.mk.inj key
      obtain rfl := RegKind.tag_injective tag
      obtain rfl : name = name' := names
      obtain rfl : i = i' := index
      rfl
    | memory addr sym => exact (kind.tag_ne_mem (Prod.mk.inj key).1).elim
  | memory addr sym =>
    cases y with
    | register kind' name' i' => exact (kind'.tag_ne_mem (Prod.mk.inj key).1.symm).elim
    | memory addr' sym' =>
      obtain rfl := hex8_injective (Prod.mk.inj key).2
      obtain rfl : sym = sym' := info
      rfl

theorem strip_of_plain {cs : List Char} (plain : ∀ c ∈ cs, isSpace c = false) : strip cs = cs := by
  have keep (cs : List Char) (plain : ∀ c ∈ cs, isSpace c = false)
      : cs.dropWhile isSpace = cs := by
    cases cs with
    | nil => rfl
    | cons c cs => rw [dropWhile_cons_of_neg (by simp [plain c mem_cons_self])]
  rw [strip, keep cs plain, keep cs.reverse (fun c mem => plain c (mem_reverse.mp mem)),
    reverse_reverse]

/-- A line without its end. -/
def lineOf (x : Variable) (v : UInt8) : List Char := x.name ++ "=0x".toList ++ print 16 v.toNat

theorem mem_intercalate {sep : Char} {fs : List (List Char)} {c : Char}
    (mem : c ∈ [sep].intercalate fs)
    : c = sep ∨ ∃ f ∈ fs, c ∈ f := by
  induction fs with
  | nil => simp [intercalate] at mem
  | cons f fs ih =>
    cases fs with
    | nil => exact Or.inr ⟨f, mem_cons_self, by simpa [intercalate] using mem⟩
    | cons f' fs =>
      rw [intercalate, intersperse_cons_cons, flatten_cons, flatten_cons]
        at mem
      rcases mem_append.mp mem with inside | mem
      · exact Or.inr ⟨f, mem_cons_self, inside⟩
      rcases mem_append.mp mem with inside | mem
      · exact Or.inl (mem_singleton.mp inside)
      · rcases ih mem with rfl | ⟨g, inside, holds⟩
        · exact Or.inl rfl
        · exact Or.inr ⟨g, mem_cons_of_mem _ inside, holds⟩

section

variable {fs : List (List Char)} (plain : ∀ f ∈ fs, Plain f) {v : Nat} {c : Char}
include plain

theorem mem_name (mem : c ∈ ['_'].intercalate fs) : c ≠ '=' ∧ isSpace c = false := by
  rcases mem_intercalate mem with rfl | ⟨f, field, inside⟩
  · decide
  · exact (plain f field c inside).2

theorem isSpace_line (mem : c ∈ ['_'].intercalate fs ++ "=0x".toList ++ print 16 v)
    : isSpace c = false := by
  rcases mem_append.mp mem with mem | value
  · rcases mem_append.mp mem with name | between
    · exact (mem_name plain name).2
    · have all : "=0x".toList.all (fun c => !isSpace c) = true := by decide
      simpa using all_eq_true.mp all c between
  · exact (plain_hex _ c value).2.2

theorem splitOn_line (v : Nat)
    : (['_'].intercalate fs ++ "=0x".toList ++ print 16 v).splitOn '='
      = [['_'].intercalate fs, "0x".toList ++ print 16 v] := by
  have shape : ['_'].intercalate fs ++ "=0x".toList ++ print 16 v
      = ['='].intercalate [['_'].intercalate fs, "0x".toList ++ print 16 v] := by
    rw [append_assoc]
    simp only [intercalate, intersperse_cons_cons, intersperse_singleton,
      flatten_cons, flatten_nil, append_nil]
    rfl
  rw [shape]
  refine splitOn_intercalate '=' ?_ (cons_ne_nil _ _)
  have digits : '=' ∉ "0x".toList := by decide
  simp only [forall_mem_cons]
  refine ⟨fun mem => (mem_name plain mem).1 rfl, fun mem => ?_, by simp⟩
  rcases mem_append.mp mem with first | digit
  · exact digits first
  · exact (plain_hex _ _ digit).2.1 rfl

end

theorem loadLine_fields {t n d s i : List Char}
    (plain : ∀ f ∈ ["in".toList, t, n, d, s, i], Plain f) (v : Nat) (inputs : Inputs)
    : loadLine inputs (['_'].intercalate ["in".toList, t, n, d, s, i] ++ "=0x".toList ++ print 16 v)
      = loadField inputs t n d s i ("0x".toList ++ print 16 v) := by
  have fields : (['_'].intercalate ["in".toList, t, n, d, s, i]).splitOn '_'
      = ["in".toList, t, n, d, s, i] :=
    splitOn_intercalate '_' (fun f field mem => (plain f field _ mem).1 rfl)
      (cons_ne_nil _ _)
  have starts : startsWith (['_'].intercalate ["in".toList, t, n, d, s, i] ++ "=0x".toList
      ++ print 16 v) "in_".toList = true := by
    rw [append_assoc]
    exact startsWith_append "in_".toList _
  simp only [loadLine, strip_of_plain (fun c => isSpace_line plain), starts, if_true,
    splitOn_line plain, fields]

theorem loadLine_lineOf {x : Variable} (wellFormed : x.WellFormed) (v : UInt8)
    (inputs : Inputs)
    : loadLine inputs (lineOf x v)
      = loadField inputs x.key.1 x.key.2 (encode x.info) (dec x.size) (dec x.index)
          ("0x".toList ++ print 16 v.toNat) := by
  rw [lineOf, x.name_eq]
  cases x with
  | register | memory => exact loadLine_fields (Variable.plain_fields wellFormed) _ inputs

theorem splitOn_writeTestcase {asg : List (Variable × UInt8)}
    (wellFormed : ∀ p ∈ asg, p.1.WellFormed)
    : (writeTestcase (asg.map (fun p => (p.1.name, p.2.toNat)))).splitOn '\n'
      = asg.map (fun p => lineOf p.1 p.2) ++ [[]] := by
  induction asg with
  | nil => rfl
  | cons p asg ih =>
    have later := ih (fun q mem => wellFormed q (mem_cons_of_mem _ mem))
    have line : testcaseLine p.1.name p.2.toNat = lineOf p.1 p.2 ++ ['\n'] := rfl
    have first : ∀ c ∈ lineOf p.1 p.2, (c == '\n') = false := by
      intro c mem
      refine beq_eq_false_iff_ne.mpr fun same => ?_
      rw [lineOf, p.1.name_eq] at mem
      have plain := isSpace_line (Variable.plain_fields (wellFormed p mem_cons_self)) mem
      rw [same] at plain
      cases plain
    rw [writeTestcase, map_cons, flatMap_cons, line, append_assoc, singleton_append, List.splitOn,
      splitOnP_append_cons_of_forall_mem first _ rfl, map_cons, cons_append]
    exact congrArg _ later

/-- One information string for each variable. -/
def Consistent (asg : List (Variable × UInt8)) : Prop :=
  ∀ p ∈ asg, ∀ q ∈ asg, p.1.key = q.1.key → p.1.info = q.1.info ∧ p.1.size = q.1.size

/-- What the dictionary holds after some lines. -/
structure Read (done : List (Variable × UInt8)) (inputs : Inputs) : Prop where
  nodup : (inputs.map Prod.fst).Nodup
  keys : ∀ k, k ∈ inputs.map Prod.fst ↔ ∃ p ∈ done, p.1.key = k
  shape
    : ∀ k e, (k, e) ∈ inputs → ∀ p ∈ done, p.1.key = k
        → e.info = p.1.info ∧ e.vals.length = p.1.size
  vals
    : ∀ k e, (k, e) ∈ inputs → ∀ i v,
        e.vals[i]? = some (some v) ↔ ∃ p ∈ done, p.1.key = k ∧ p.1.index = i ∧ p.2 = v

theorem Read.nil : Read [] [] := ⟨nodup_nil, by simp, by simp, by simp⟩

section

variable {done : List (Variable × UInt8)} {inputs : Inputs} {x : Variable} {v : UInt8}

theorem intHex_print (n : Nat) : intHex ("0x".toList ++ print 16 n) = some n :=
  parse_print (by decide) (by decide) n

theorem chr_toNat (v : UInt8) : chr v.toNat = some v := by
  rw [chr, if_pos v.toNat_lt, UInt8.ofNat_toNat]

/-- The entry of a variable's key, from before or new. -/
theorem Read.declared (read : Read done inputs)
    (consistent : ∀ p ∈ done, p.1.key = x.key → p.1.info = x.info ∧ p.1.size = x.size)
    : ∃ inputs', declare inputs x.key (dec x.size) (encode x.info) = some inputs'
        ∧ (inputs'.map Prod.fst).Nodup
        ∧ (∀ k, k ∈ inputs'.map Prod.fst ↔ k = x.key ∨ k ∈ inputs.map Prod.fst)
        ∧ (∀ k e, (k, e) ∈ inputs' → (k, e) ∈ inputs
            ∨ k = x.key ∧ k ∉ inputs.map Prod.fst
              ∧ e = { vals := replicate x.size none, info := x.info })
        ∧ ∀ e, (x.key, e) ∈ inputs' → e.info = x.info ∧ e.vals.length = x.size := by
  rw [declare]
  cases found : inputs.lookup x.key with
  | some e =>
    have mem := Assoc.mem_of_lookup found
    have present : x.key ∈ inputs.map Prod.fst := mem_map_of_mem (f := Prod.fst) mem
    refine ⟨inputs, rfl, read.nodup, fun k => ?_, fun k e inside => Or.inl inside, ?_⟩
    · exact ⟨Or.inr, fun either => either.elim (fun same => same ▸ present) id⟩
    · intro e inside
      obtain ⟨p, earlier, same⟩ := (read.keys x.key).mp present
      obtain ⟨info, length⟩ := read.shape x.key e inside p earlier same
      obtain ⟨sameInfo, sameSize⟩ := consistent p earlier same
      exact ⟨info.trans sameInfo, length.trans sameSize⟩
  | none =>
    have absent := Assoc.lookup_eq_none_iff.mp found
    have size : parse 10 (dec x.size) = some x.size := parse_print (by decide) (by decide) _
    simp only [size, decode_encode, Option.bind_eq_bind, Option.bind_some]
    refine ⟨_, rfl, ?_, fun k => ?_, fun k e inside => ?_, fun e inside => ?_⟩
    · rw [map_append, nodup_append]
      refine ⟨read.nodup, nodup_singleton _, fun a mem b last same => ?_⟩
      obtain rfl : b = x.key := mem_singleton.mp last
      exact absent (same ▸ mem)
    · rw [map_append, mem_append, or_comm]
      exact or_congr_left mem_singleton
    · rcases mem_append.mp inside with old | new
      · exact Or.inl old
      · obtain ⟨rfl, rfl⟩ := Prod.mk.inj (mem_singleton.mp new)
        exact Or.inr ⟨rfl, absent, rfl⟩
    · rcases mem_append.mp inside with old | new
      · exact (absent (mem_map_of_mem (f := Prod.fst) old)).elim
      · obtain ⟨_, rfl⟩ := Prod.mk.inj (mem_singleton.mp new)
        exact ⟨rfl, length_replicate⟩

theorem Variable.index_lt {x : Variable} (wellFormed : x.WellFormed) : x.index < x.size := by
  cases x with
  | register kind name i => exact wellFormed.2
  | memory addr sym => exact Nat.one_pos

theorem keys_assign (inputs : Inputs) (key : Key) (i : Nat) (v : UInt8)
    : (assign inputs key i v).map Prod.fst = inputs.map Prod.fst := by
  rw [assign, map_map]
  refine map_congr_left fun p _ => ?_
  simp only [Function.comp]
  split <;> rfl

theorem mem_assign {key k : Key} {i : Nat} {e : Entry}
    (mem : (k, e) ∈ assign inputs key i v)
    : ∃ old, (k, old) ∈ inputs ∧ e.info = old.info
        ∧ e.vals = if k = key then old.vals.set i (some v) else old.vals := by
  obtain ⟨⟨k', old⟩, inside, same⟩ := mem_map.mp mem
  by_cases here : k' = key
  · rw [if_pos here] at same
    obtain ⟨rfl, rfl⟩ := Prod.mk.inj same
    exact ⟨old, inside, rfl, by rw [if_pos here]⟩
  · rw [if_neg here] at same
    obtain ⟨rfl, rfl⟩ := Prod.mk.inj same
    exact ⟨old, inside, rfl, by rw [if_neg here]⟩

/-- One more line. Witness: the new value is the only one of its variable. -/
theorem Read.step (read : Read done inputs) (wellFormed : x.WellFormed)
    (consistent : ∀ p ∈ done, p.1.key = x.key → p.1.info = x.info ∧ p.1.size = x.size)
    (new : ∀ p ∈ done, p.1 ≠ x)
    : ∃ inputs', loadLine inputs (lineOf x v) = some inputs' ∧ Read (done ++ [(x, v)]) inputs' := by
  obtain ⟨middle, declared, nodup, keys, entries, shaped⟩ := read.declared consistent
  have present : x.key ∈ middle.map Prod.fst := (keys x.key).mpr (Or.inl rfl)
  obtain ⟨entry, found⟩ := Option.isSome_iff_exists.mp (Assoc.isSome_lookup_iff.mpr present)
  obtain ⟨info, length⟩ := shaped entry (Assoc.mem_of_lookup found)
  have small := Variable.index_lt wellFormed
  have index : parse 10 (dec x.index) = some x.index := parse_print (by decide) (by decide) _
  refine ⟨assign middle x.key x.index v, ?_, ?_⟩
  · simp only [loadLine_lineOf wellFormed, loadField, Prod.mk.eta, declared, found, decode_encode,
      index, intHex_print, chr_toNat, Option.bind_eq_bind, Option.bind_some]
    exact if_pos ⟨info, length ▸ small⟩
  -- What the entries of the new dictionary hold.
  have snoc (k : Key)
      : (∃ p ∈ done ++ [(x, v)], p.1.key = k) ↔ x.key = k ∨ ∃ p ∈ done, p.1.key = k := by
    simp only [mem_append, mem_singleton, or_and_right, exists_or, exists_eq_left]
    exact or_comm
  refine ⟨?_, fun k => ?_, fun k e mem p earlier same => ?_, fun k e mem i w => ?_⟩
  · rw [keys_assign]
    exact nodup
  · rw [keys_assign, keys, read.keys, snoc, eq_comm]
  · obtain ⟨old, inside, sameInfo, values⟩ := mem_assign mem
    have lengths : e.vals.length = old.vals.length := by
      rw [values]
      split <;> simp
    rw [sameInfo, lengths]
    rcases mem_append.mp earlier with before | last
    · rcases entries k old inside with listed | ⟨_, absent, _⟩
      · exact read.shape k old listed p before same
      · exact (absent ((read.keys k).mpr ⟨p, before, same⟩)).elim
    · obtain rfl := mem_singleton.mp last
      exact shaped old (same ▸ inside)
  · obtain ⟨old, inside, _, values⟩ := mem_assign mem
    -- The values that were there before.
    have earlier (j : Nat)
        : old.vals[j]? = some (some w) ↔ ∃ p ∈ done, p.1.key = k ∧ p.1.index = j ∧ p.2 = w := by
      rcases entries k old inside with listed | ⟨_, absent, rfl⟩
      · exact read.vals k old listed j w
      · refine ⟨fun found => ?_, fun ⟨p, before, same, _⟩ => ?_⟩
        · obtain ⟨_, equal⟩ := List.getElem?_eq_some_iff.mp found
          simp at equal
        · exact (absent ((read.keys k).mpr ⟨p, before, same⟩)).elim
    simp only [mem_append, mem_singleton, or_and_right, exists_or, exists_eq_left]
    rw [values, ← earlier i]
    by_cases here : k = x.key
    · subst here
      rw [if_pos rfl, List.getElem?_set]
      by_cases at_index : x.index = i
      · subst at_index
        have unset : ¬ old.vals[x.index]? = some (some w) := by
          intro set
          obtain ⟨p, before, sameKey, sameIndex, _⟩ := (earlier x.index).mp set
          exact new p before
            (Variable.eq_of_parts sameKey sameIndex (consistent p before sameKey).1)
        have inBounds : x.index < old.vals.length := (shaped old inside).2 ▸ small
        rw [if_pos rfl, if_pos inBounds]
        simp only [unset, false_or, true_and, Option.some.injEq]
      · simp [at_index]
    · rw [if_neg here]
      have other : x.key ≠ k := fun same => here same.symm
      simp [other]

/-- All lines. -/
theorem read_lines {asg : List (Variable × UInt8)} (wellFormed : ∀ p ∈ asg, p.1.WellFormed)
    (distinct : (asg.map Prod.fst).Nodup) (consistent : Consistent asg)
    : ∃ inputs, (asg.map (fun p => lineOf p.1 p.2)).foldlM loadLine [] = some inputs
        ∧ Read asg inputs := by
  induction asg using reverseRecOn with
  | nil => exact ⟨[], rfl, Read.nil⟩
  | append_singleton done p ih =>
    rw [map_append, nodup_append] at distinct
    obtain ⟨inputs, sofar, read⟩ := ih
      (fun q mem => wellFormed q (mem_append_left _ mem)) distinct.1
      (fun q mem r mem' => consistent q (mem_append_left _ mem) r
        (mem_append_left _ mem'))
    obtain ⟨inputs', loaded, read'⟩ := read.step (x := p.1) (v := p.2)
      (wellFormed p (by simp))
      (fun q mem => consistent q (mem_append_left _ mem) p (by simp))
      (fun q mem same => distinct.2.2 q.1 (mem_map_of_mem mem) p.1 (by simp) same)
    refine ⟨inputs', ?_, read'⟩
    rw [map_append, foldlM_append, sofar]
    simp [loaded]

end

end FastPokeEmu.Testcase
