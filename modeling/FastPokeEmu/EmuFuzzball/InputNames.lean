import FastPokeEmu.EmuFuzzball.LazyMemory
import FastPokeEmu.Library.Base32

/-! Names of the symbolic input bytes: registers and memory bytes as `run-emu-fuzzball.py`
declares them, the symbol of a memory byte in base 32.
-/

namespace FastPokeEmu.InputNames

open Numerals LazyMemory List

/-- A Python byte string. -/
abbrev Bytes := List UInt8

def ascii (cs : List Char) : Bytes := cs.map (fun c => UInt8.ofNat c.toNat)

/-- `s.replace(a, b)` on single characters -/
def replace (a b : Char) (cs : List Char) : List Char := cs.map (fun c => if c = a then b else c)

/-- Padding `=` is not allowed by Vine in a variable name. -/
def encode (s : Bytes) : List Char := replace '=' 'z' (Base32.encode '=' (s.map UInt8.toNat))

def decode (cs : List Char) : Option Bytes :=
  (Base32.decode '=' (replace 'z' '=' cs)).map (·.map UInt8.ofNat)

/-- `"in_mem_%.8x_%s_1_0" % (gaddr, encode(sym))` -/
def memName (gaddr : Nat) (sym : Bytes) : List Char :=
  "in_mem_".toList ++ hex8 gaddr ++ "_".toList ++ encode sym ++ "_1_0".toList

/-- `"in_%s__%d_%d" % (name, size, i)` -/
def regName (name : List Char) (size i : Nat) : List Char :=
  "in_".toList ++ name ++ "__".toList ++ dec size ++ "_".toList ++ dec i

theorem replace_replace {a b : Char} {cs : List Char} (absent : b ∉ cs)
    : replace b a (replace a b cs) = cs := by
  rw [replace, replace, map_map]
  refine (map_congr_left fun c mem => ?_).trans (map_id cs)
  have other : c ≠ b := fun same => absent (same ▸ mem)
  by_cases same : c = a
  · simp [same]
  · simp [same, other]

theorem letter_ne {c : Char} (other : Base32.letterValue c = none) {d : Nat} (small : d < 32)
    : Base32.letter d ≠ c := by
  intro same
  rw [← same, Base32.letterValue_letter small] at other
  cases other

theorem decode_encode (s : Bytes) : decode (encode s) = some s := by
  have absent : 'z' ∉ Base32.encode '=' (s.map UInt8.toNat) := by
    intro mem
    rcases Base32.mem_encode mem with pad | ⟨d, small, letter⟩
    · cases pad
    · exact letter_ne (by decide) small letter.symm
  have small : ∀ d ∈ s.map UInt8.toNat, d < 256 := by
    intro d mem
    obtain ⟨b, _, rfl⟩ := mem_map.mp mem
    exact b.toNat_lt
  rw [decode, encode, replace_replace absent, Base32.decode_encode (by decide) small,
    Option.map_some, map_map]
  congr 1
  exact (map_congr_left fun b _ => UInt8.ofNat_toNat).trans (map_id s)

theorem mem_encode {s : Bytes} {c : Char} (mem : c ∈ encode s)
    : c = 'z' ∨ ∃ d < 32, c = Base32.letter d := by
  obtain ⟨c, inside, rfl⟩ := mem_map.mp mem
  rcases Base32.mem_encode inside with pad | ⟨d, small, letter⟩
  · exact Or.inl (if_pos pad)
  · refine Or.inr ⟨d, small, ?_⟩
    rw [letter, if_neg (letter_ne (by decide) small)]

theorem encode_ne_nil {s : Bytes} (nonempty : s ≠ []) : encode s ≠ [] := by
  intro empty
  have back := decode_encode s
  rw [empty] at back
  exact nonempty (Option.some.inj back).symm

theorem mem_print {b n : Nat} (base : 2 ≤ b) {c : Char} (mem : c ∈ print b n)
    : ∃ d < b, c = Nat.digitChar d := by
  rw [print] at mem
  split at mem
  · exact ⟨0, by omega, mem_singleton.mp mem⟩
  · obtain ⟨d, inside, rfl⟩ := mem_map.mp mem
    exact ⟨d, Nat.digits_lt_base (by omega) (mem_reverse.mp inside), rfl⟩

theorem mem_dec {n : Nat} {c : Char} (mem : c ∈ dec n) : ∃ d < 16, c = Nat.digitChar d := by
  obtain ⟨d, small, rfl⟩ := mem_print (by decide) mem
  exact ⟨d, by omega, rfl⟩

theorem mem_hex8 {n : Nat} {c : Char} (mem : c ∈ hex8 n) : ∃ d < 16, c = Nat.digitChar d := by
  rcases mem_append.mp mem with zeros | digits
  · exact ⟨0, by decide, (mem_replicate.mp zeros).2⟩
  · exact mem_print (by decide) digits

theorem hex8_injective : Function.Injective hex8 :=
  fun _ _ same => pad_print_injective (by decide) (by decide) 8 same

theorem underscore_not_mem_hex8 (n : Nat) : '_' ∉ hex8 n := by
  intro mem
  obtain ⟨d, small, same⟩ := mem_hex8 mem
  have other : Nat.digitChar d ≠ '_' := by decide +revert
  exact other same.symm

theorem underscore_not_mem_encode (s : Bytes) : '_' ∉ encode s := by
  intro mem
  rcases mem_encode mem with pad | ⟨d, small, same⟩
  · cases pad
  · exact letter_ne (by decide) small same.symm

/-- Where the first underscore stands. -/
theorem append_underscore_inj {a b rest rest' : List Char} (plain : '_' ∉ a) (plain' : '_' ∉ b)
    (same : a ++ '_' :: rest = b ++ '_' :: rest')
    : a = b ∧ rest = rest' := by
  induction a generalizing b with
  | nil =>
    cases b with
    | nil => exact ⟨rfl, (List.cons.inj same).2⟩
    | cons c b => exact (plain' (mem_cons.mpr (Or.inl (List.cons.inj same).1))).elim
  | cons c a ih =>
    cases b with
    | nil => exact (plain (mem_cons.mpr (Or.inl (List.cons.inj same).1.symm))).elim
    | cons d b =>
      obtain ⟨head, tail⟩ := List.cons.inj same
      obtain ⟨rfl, rest⟩ := ih (fun mem => plain (mem_cons_of_mem _ mem))
        (fun mem => plain' (mem_cons_of_mem _ mem)) tail
      exact ⟨by rw [head], rest⟩

theorem memName_eq (gaddr : Nat) (sym : Bytes)
    : memName gaddr sym
      = "in_mem_".toList ++ (hex8 gaddr ++ '_' :: (encode sym ++ '_' :: "1_0".toList)) := by
  delta memName
  rw [append_assoc, append_assoc, append_assoc]
  rfl

theorem memName_injective {gaddr gaddr' : Nat} {sym sym' : Bytes}
    (same : memName gaddr sym = memName gaddr' sym')
    : gaddr = gaddr' ∧ sym = sym' := by
  rw [memName_eq, memName_eq, append_right_inj] at same
  have address := append_underscore_inj (underscore_not_mem_hex8 _) (underscore_not_mem_hex8 _) same
  have symbol := append_underscore_inj (underscore_not_mem_encode _) (underscore_not_mem_encode _)
    address.2
  refine ⟨hex8_injective address.1, Option.some.inj ?_⟩
  rw [← decode_encode, symbol.1, decode_encode]

theorem memName_ne_lazy {sym : Bytes} (nonempty : sym ≠ []) (gaddr addr : Nat)
    : memName gaddr sym ≠ "in_mem_".toList ++ hex8 addr ++ "__1_0".toList := by
  intro same
  have shape : "in_mem_".toList ++ hex8 addr ++ "__1_0".toList
      = "in_mem_".toList ++ (hex8 addr ++ '_' :: ([] ++ '_' :: "1_0".toList)) := by
    rw [append_assoc]
    rfl
  rw [memName_eq, shape, append_right_inj] at same
  have later := append_underscore_inj (underscore_not_mem_hex8 _) (underscore_not_mem_hex8 _) same
  have symbol := append_underscore_inj (underscore_not_mem_encode _) not_mem_nil later.2
  exact encode_ne_nil nonempty symbol.1

theorem regName_ne_memName {name : List Char} (kind : name.head? ≠ some 'm') (nonempty : name ≠ [])
    (size i gaddr : Nat) (sym : Bytes)
    : regName name size i ≠ memName gaddr sym := by
  obtain ⟨c, rest, rfl⟩ := exists_cons_of_ne_nil nonempty
  intro same
  rw [memName_eq] at same
  simp only [regName, String.reduceToList, cons_append, nil_append, List.cons.injEq]
    at same
  exact kind (congrArg some same.2.2.2.1)

end FastPokeEmu.InputNames
