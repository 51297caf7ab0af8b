import FastPokeEmu.Floppy.TestcaseFile

/-! Disassembly of many instructions (`whitedisasm.cc` built with `DISASM_MANY`).
Each line of the input is loaded into one buffer, which is decoded after each line and once more
at the end of the input. A line overwrites only as many bytes of the buffer as it has.
-/

namespace FastPokeEmu.WhiteBochs

open List

open Numerals (digitValue print pad)
open Testcase (isSpace)

/-- `CODE_SIZE` -/
def codeSize : Nat := 128

/-- The buffer `code`. -/
abbrev Code := List UInt8

/-- The delimiters that `strtok` is given. -/
def isDelimiter (c : Char) : Bool := c == '\\' || c == 'x'

/-- `strtok` until there is no token left. -/
def tokens (shellcode : List Char) : List (List Char) :=
  (shellcode.splitOnP isDelimiter).filter (· ≠ [])

def ulongMax : Nat := 2 ^ 64 - 1

/-- The number that the digits in front denote, behind the prefix if there is one. -/
def magnitude (cs : List Char) : Nat :=
  let digits := if cs.take 2 = ['0', 'X'] then cs.drop 2 else cs
  (digits.takeWhile fun c => (digitValue c).isSome).foldl
    (fun n c => n * 16 + (digitValue c).getD 0) 0

/-- `strtoul(tok, NULL, 16)`; a token has no `x`, so its prefix can only be `0X`. -/
def strtoul (tok : List Char) : Nat :=
  let cs := tok.dropWhile isSpace
  if cs.head? = some '-' then
    if ulongMax < magnitude cs.tail then ulongMax
    else (ulongMax + 1 - magnitude cs.tail) % (ulongMax + 1)
  else if cs.head? = some '+' then min ulongMax (magnitude cs.tail)
  else min ulongMax (magnitude cs)

def byteOf (tok : List Char) : UInt8 := UInt8.ofNat (strtoul tok)

/-- The loop of `load_shellcode`, with its assertion. -/
def storeTokens : Nat → List (List Char) → Code → Option Code
  | _, [], code => some code
  | i, tok :: rest, code =>
    if i < codeSize then storeTokens (i + 1) rest (code.set i (byteOf tok)) else none

def loadShellcode (shellcode : List Char) (code : Code) : Option Code :=
  storeTokens 0 (tokens shellcode) code

/-- What `disasm_one` asks of a decoded instruction. -/
structure Instruction where
  iaOpcode : Nat
  ilen : Nat
  repUsedL : Nat
  seg : Nat
  modC0 : Nat

/-- `BX_IA_ERROR` -/
def iaError : Nat := 0

/-- The decoder and the disassembler of Bochs, as functions of the buffer. -/
structure Decoder where
  fetchDecode32 : Code → Int × Instruction
  disasm : Code → Nat × List Char
  opcodeName : Nat → List Char

/-- The record of the instruction in the buffer, or none if it returns 1. -/
def disasmOne (d : Decoder) (code : Code) : Option (List Char) :=
  let (r, i) := d.fetchDecode32 code
  if r ≠ 0 ∨ i.iaOpcode = iaError then none
  else
    let (isize, istr) := d.disasm code
    some ((code.take i.ilen).flatMap (fun b => ['\\', 'x'] ++ pad 2 (print 16 b.toNat))
      ++ ['\t'] ++ print 10 isize ++ ['\t'] ++ istr ++ ['\t'] ++ (d.opcodeName i.iaOpcode).drop 6
      ++ ['\t'] ++ print 16 (i.repUsedL ||| i.seg ||| (i.modC0 <<< 4)) ++ ['\n'])

/-- How much `fgets` reads into `linebuf`: a line, as far as it fits. -/
def chunk (stdin : List Char) : Nat := min (codeSize * 5) (stdin.findIdx (· == '\n') + 1)

/-- What `fgets` reads until the end of the input. -/
def reads : List Char → List (List Char)
  | [] => []
  | c :: rest =>
    (c :: rest).take (chunk (c :: rest)) :: reads ((c :: rest).drop (chunk (c :: rest)))
termination_by stdin => stdin.length
decreasing_by
  simp only [chunk, codeSize, length_drop, length_cons]
  omega

/-- What each call of `disasm_one` prints, the one behind the loop included. -/
def disasmLines (d : Decoder) : List (List Char) → Code → Option (List (Option (List Char)))
  | [], code => some [disasmOne d code]
  | line :: rest, code => do
      let code ← loadShellcode line code
      let printed ← disasmLines d rest code
      return disasmOne d code :: printed

def main (d : Decoder) (stdin : List Char) : Option (List (Option (List Char))) :=
  disasmLines d (reads stdin) (replicate codeSize 0)

/-- A hexadecimal digit, in either case. -/
abbrev HexDigit := { c : Char // (digitValue c).isSome }

def HexDigit.value (h : HexDigit) : Nat := (digitValue h.1).get h.2

/-- Bytes that are escaped with two digits each. -/
structure Line where
  escapes : List (HexDigit × HexDigit)
  fits : escapes.length ≤ codeSize

def Line.text (l : Line) : List Char :=
  l.escapes.flatMap (fun e => ['\\', 'x', e.1.1, e.2.1]) ++ ['\n']

def Line.bytes (l : Line) : List UInt8 :=
  l.escapes.map fun e => UInt8.ofNat (e.1.value * 16 + e.2.value)

/-- A buffer that holds the bytes and otherwise zeros. -/
def padded (bytes : List UInt8) : Code := bytes ++ replicate (codeSize - bytes.length) 0

/-- Each line has the record of its own bytes, if any, and nothing else is printed. -/
def LineByLine (d : Decoder) (lines : List Line) : Prop :=
  main d (lines.flatMap Line.text)
    = some (lines.map (fun l => disasmOne d (padded l.bytes)) ++ [none])

/-- The bytes of a line that the next one does not overwrite are zeros. -/
def Covered (l next : Line) : Prop := ∀ b ∈ l.bytes.drop (max 1 next.bytes.length), b = 0

/-- The bytes of the last line. -/
def lastBytes (lines : List Line) : List UInt8 := (lines.getLast?.map Line.bytes).getD []

section

variable {l : Line} {code : Code}

theorem HexDigit.ne (h : HexDigit) {c : Char} (other : digitValue c = none) : h.1 ≠ c := by
  intro same
  have digit := h.2
  rw [same, other] at digit
  cases digit

theorem HexDigit.value_lt (h : HexDigit) : h.value < 16 := by
  obtain ⟨v, value⟩ := Option.isSome_iff_exists.mp h.2
  simp only [HexDigit.value, value, Option.get_some]
  simp only [digitValue, Char.le_def, UInt32.le_iff_toNat_le, Char.toNat] at value
  have ends : 'f'.val.toNat = 102 ∧ 'a'.val.toNat = 97 ∧ 'F'.val.toNat = 70 ∧ 'A'.val.toNat = 65
      ∧ '9'.val.toNat = 57 ∧ '0'.val.toNat = 48 := ⟨rfl, rfl, rfl, rfl, rfl, rfl⟩
  grind

theorem HexDigit.not_delimiter (h : HexDigit) : isDelimiter h.1 = false := by
  simp [isDelimiter, h.ne (by decide : digitValue '\\' = none),
    h.ne (by decide : digitValue 'x' = none)]

/-- The bytes that a line stores: the newline alone is read as a zero. -/
def Line.stored (l : Line) : List UInt8 := if l.bytes = [] then [0] else l.bytes

theorem Line.length_bytes (l : Line) : l.bytes.length = l.escapes.length := length_map _

theorem Line.length_stored (l : Line) : l.stored.length = max 1 l.bytes.length := by
  unfold stored
  split
  next empty => rw [empty]; rfl
  next some =>
    have pos := length_pos_of_ne_nil some
    omega

theorem Line.stored_fits (l : Line) : l.stored.length ≤ codeSize := by
  have fits := l.fits
  rw [l.length_stored, l.length_bytes]
  exact max_le (by decide) fits

theorem Line.text_ne_nil (l : Line) : l.text ≠ [] := by
  unfold text
  exact append_ne_nil_of_right_ne_nil _ (cons_ne_nil _ _)

/-- The rest of the line does not matter to the number behind an escape. -/
theorem strtoul_escape (h h' : HexDigit) {tail : List Char} (ends : tail = [] ∨ tail = ['\n'])
    : strtoul (h.1 :: h'.1 :: tail) = h.value * 16 + h'.value := by
  have notSpace : isSpace h.1 = false := by
    simp only [isSpace, decide_eq_false_iff_not, mem_cons, not_mem_nil, or_false, not_or]
    exact ⟨h.ne rfl, h.ne rfl, h.ne rfl, h.ne rfl, h.ne rfl, h.ne rfl⟩
  have digits : magnitude (h.1 :: h'.1 :: tail) = h.value * 16 + h'.value := by
    obtain ⟨v, value⟩ := Option.isSome_iff_exists.mp h.2
    obtain ⟨v', value'⟩ := Option.isSome_iff_exists.mp h'.2
    obtain rfl | rfl := ends <;>
      simp [magnitude, HexDigit.value, value, value', (by decide : digitValue '\n' = none),
        (h'.ne rfl : h'.1 ≠ 'X')]
  have small : h.value * 16 + h'.value ≤ ulongMax := by
    have one := h.value_lt
    have two := h'.value_lt
    unfold ulongMax
    omega
  have minus : h.1 ≠ '-' := h.ne rfl
  have plus : h.1 ≠ '+' := h.ne rfl
  simp [strtoul, notSpace, minus, plus, digits, small]

theorem tokens_delimiter {c : Char} (delimiter : isDelimiter c = true) (cs : List Char)
    : tokens (c :: cs) = tokens cs := by
  have parts := splitOnP_append_cons_of_forall_mem (forall_mem_nil _) c delimiter cs
  rw [tokens, ← nil_append (c :: cs), parts]
  rfl

theorem tokens_word {w : List Char} (some : w ≠ []) (word : ∀ c ∈ w, isDelimiter c = false)
    (cs : List Char)
    : tokens (w ++ '\\' :: cs) = w :: tokens cs := by
  rw [tokens, splitOnP_append_cons_of_forall_mem word '\\' rfl cs]
  exact filter_cons_of_pos (by simpa using some)

/-- The tokens of a line are its bytes; a line without bytes has the newline as its token. -/
theorem Line.tokens_text (l : Line) : (tokens l.text).map byteOf = l.stored := by
  have word (h h' : HexDigit) : ∀ c ∈ [h.1, h'.1], isDelimiter c = false := by
    simp [h.not_delimiter, h'.not_delimiter]
  have escaped (h h' : HexDigit) (cs : List Char)
      : tokens ('\\' :: 'x' :: h.1 :: h'.1 :: cs) = tokens (h.1 :: h'.1 :: cs) := by
    rw [tokens_delimiter rfl, tokens_delimiter rfl]
  obtain ⟨escapes, fits⟩ := l
  unfold stored bytes text
  cases escapes with
  | nil => rfl
  | cons e rest =>
    simp only [map_cons, reduceCtorEq, if_false]
    clear fits
    induction rest generalizing e with
    | nil =>
      -- the newline belongs to the last token
      have last : tokens (e.1.1 :: e.2.1 :: ['\n']) = [e.1.1 :: e.2.1 :: ['\n']] := by
        rw [tokens, splitOnP_eq_singleton]
        · rfl
        · simp [e.1.not_delimiter, e.2.not_delimiter, (by decide : isDelimiter '\n' = false)]
      simp only [flatMap_cons, flatMap_nil, append_nil, cons_append, nil_append, escaped, last,
        map_cons, map_nil, byteOf, strtoul_escape e.1 e.2 (Or.inr rfl)]
    | cons next rest ih =>
      have first := tokens_word (cons_ne_nil _ _) (word e.1 e.2)
      have later := ih next
      simp only [flatMap_cons, cons_append, nil_append, escaped] at later first ⊢
      rw [first, map_cons, tokens_delimiter (c := 'x') rfl, later]
      simp only [byteOf, strtoul_escape e.1 e.2 (Or.inl rfl), map_cons]

theorem storeTokens_spec {toks : List (List Char)} {i : Nat} (length : code.length = codeSize)
    (fits : i + toks.length ≤ codeSize)
    : storeTokens i toks code
      = some (code.take i ++ toks.map byteOf ++ code.drop (i + toks.length)) := by
  induction toks generalizing i code with
  | nil => simp [storeTokens]
  | cons tok rest ih =>
    rw [length_cons] at fits
    have inside : i < codeSize := by omega
    have length' : (code.set i (byteOf tok)).length = codeSize := by rw [length_set, length]
    have later := ih length' (i := i + 1) (by omega)
    rw [storeTokens, if_pos inside, later, take_add_one, take_set_of_le (le_refl i),
      drop_set_of_lt (by omega), List.getElem?_set_self (by omega)]
    simp [Nat.add_assoc, Nat.add_comm 1]

/-- The buffer after a line. -/
def Line.loaded (l : Line) (code : Code) : Code := l.stored ++ code.drop l.stored.length

theorem Line.length_loaded (l : Line) (length : code.length = codeSize)
    : (l.loaded code).length = codeSize := by
  have fits := l.stored_fits
  rw [loaded, length_append, length_drop]
  omega

theorem loadShellcode_text (l : Line) (length : code.length = codeSize)
    : loadShellcode l.text code = some (l.loaded code) := by
  have same := congrArg List.length l.tokens_text
  rw [length_map] at same
  have fits : 0 + (tokens l.text).length ≤ codeSize := by
    rw [Nat.zero_add, same]
    exact l.stored_fits
  have stores := storeTokens_spec length fits
  rw [loadShellcode, stores, l.tokens_text, same, Nat.zero_add]
  rfl

/-- `fgets` reads a line as a whole. -/
theorem chunk_text (l : Line) (rest : List Char) : chunk (l.text ++ rest) = l.text.length := by
  have fits := l.fits
  have length : l.text.length = l.escapes.length * 4 + 1 := by simp [Line.text]
  have newline : (l.text ++ rest).findIdx (· == '\n') + 1 = l.text.length := by
    rw [Line.text, append_assoc, findIdx_append, findIdx_eq_length.mpr]
    · simp [findIdx_cons]
    · intro c mem
      obtain ⟨e, _, character⟩ := mem_flatMap.mp mem
      simp only [mem_cons, not_mem_nil, or_false] at character
      obtain rfl | rfl | rfl | rfl := character
      · rfl
      · rfl
      · exact beq_false_of_ne (e.1.ne rfl)
      · exact beq_false_of_ne (e.2.ne rfl)
  rw [chunk, newline, length, codeSize]
  unfold codeSize at fits
  omega

theorem reads_lines (lines : List Line)
    : reads (lines.flatMap Line.text) = lines.map Line.text := by
  induction lines with
  | nil => rw [flatMap_nil, reads, map_nil]
  | cons l rest ih =>
    obtain ⟨c, cs, shape⟩ := exists_cons_of_ne_nil (l.text_ne_nil)
    have whole := chunk_text l (rest.flatMap Line.text)
    rw [flatMap_cons, map_cons, ← ih]
    simp only [shape, cons_append] at whole ⊢
    rw [reads, whole, ← cons_append, take_left, drop_left]

end

/-- The buffers that are decoded, the one behind the loop included. -/
def decoded : List Line → Code → List Code
  | [], code => [code]
  | l :: rest, code => l.loaded code :: decoded rest (l.loaded code)

theorem disasmLines_lines (d : Decoder) (lines : List Line) {code : Code}
    (length : code.length = codeSize)
    : disasmLines d (lines.map Line.text) code = some ((decoded lines code).map (disasmOne d)) := by
  induction lines generalizing code with
  | nil => rfl
  | cons l rest ih =>
    rw [map_cons, disasmLines, loadShellcode_text l length]
    simp only [Option.bind_eq_bind, Option.bind_some, ih (l.length_loaded length)]
    rfl

theorem main_lines (d : Decoder) (lines : List Line)
    : main d (lines.flatMap Line.text)
      = some ((decoded lines (replicate codeSize 0)).map (disasmOne d)) := by
  rw [main, reads_lines, disasmLines_lines d lines length_replicate]

/-- The buffers that would be decoded if each line were alone. -/
def alone (lines : List Line) : List Code :=
  lines.map (fun l => padded l.bytes) ++ [padded (lastBytes lines)]

theorem lineByLine_iff {d : Decoder} {lines : List Line}
    (rejected : disasmOne d (padded (lastBytes lines)) = none)
    : LineByLine d lines
      ↔ (decoded lines (replicate codeSize 0)).map (disasmOne d)
        = (alone lines).map (disasmOne d) := by
  rw [LineByLine, main_lines, Option.some_inj, alone, map_append, map_map, map_singleton, rejected]
  rfl

/-- The next line alone is in the buffer if it overwrites whatever is not zero. -/
theorem Line.loaded_padded (l next : Line)
    : next.loaded (padded l.bytes) = padded next.bytes ↔ Covered l next := by
  have stored : padded next.bytes
      = next.stored ++ replicate (codeSize - next.stored.length) 0 := by
    unfold padded stored
    split
    next empty => rw [empty]; rfl
    next => rfl
  have fits : next.stored.length ≤ codeSize := next.stored_fits
  have whole : (padded l.bytes).length = codeSize := by
    have small := l.fits
    rw [← l.length_bytes] at small
    rw [padded, length_append, length_replicate]
    omega
  rw [stored, loaded, append_cancel_left_eq, eq_replicate_iff, length_drop, whole, padded,
    drop_append, drop_replicate, forall_mem_append, Covered, ← next.length_stored]
  exact ⟨fun zeros => zeros.2.1, fun zeros => ⟨rfl, zeros, fun _ => eq_of_mem_replicate⟩⟩

theorem decoded_eq_iff (l : Line) (lines : List Line)
    : decoded lines (padded l.bytes)
        = lines.map (fun l => padded l.bytes) ++ [padded (lastBytes (l :: lines))]
      ↔ (l :: lines).IsChain Covered := by
  induction lines generalizing l with
  | nil => simp [decoded, lastBytes]
  | cons next rest ih =>
    rw [decoded, isChain_cons_cons, ← l.loaded_padded, map_cons, cons_append, List.cons.injEq]
    refine and_congr_right fun same => ?_
    rw [same]
    exact ih next

theorem decoded_eq_alone_iff (lines : List Line)
    : decoded lines (replicate codeSize 0) = alone lines ↔ lines.IsChain Covered := by
  have first := decoded_eq_iff ⟨[], Nat.zero_le _⟩ lines
  cases lines with
  | nil => simp [decoded, alone, lastBytes, padded]
  | cons l rest =>
    rw [isChain_cons_cons] at first
    have zeros : Covered ⟨[], Nat.zero_le _⟩ l := by simp [Covered, Line.bytes]
    exact first.trans (and_iff_right zeros)

/-- A decoder that accepts certain buffers. -/
def accepting (accepts : Code → Bool) : Decoder where
  fetchDecode32 code := (if accepts code then 0 else 1, ⟨1, 1, 0, 0, 0⟩)
  disasm _ := (1, [])
  opcodeName _ := []

theorem isSome_accepting (accepts : Code → Bool) (code : Code)
    : (disasmOne (accepting accepts) code).isSome = accepts code := by
  cases accepted : accepts code with
  | false => simp [disasmOne, accepting, accepted]
  | true => simp [disasmOne, accepting, accepted, iaError]

/-- Decoders that reject one buffer still tell any two apart. -/
theorem eq_of_decoders {out : Code} {codes codes' : List Code}
    (same : ∀ d, disasmOne d out = none → codes.map (disasmOne d) = codes'.map (disasmOne d))
    : codes = codes' := by
  have accepted (accepts : Code → Bool) (rejected : accepts out = false)
      : codes.map accepts = codes'.map accepts := by
    rw [← isSome_accepting accepts, Option.isSome_eq_false_iff, Option.isNone_iff_eq_none]
      at rejected
    have printed := congrArg (List.map Option.isSome) (same _ rejected)
    simpa [Function.comp_def, isSome_accepting] using printed
  have lengths : codes.length = codes'.length := by
    simpa using congrArg List.length (accepted (fun _ => false) rfl)
  refine ext_getElem lengths fun i inside inside' => ?_
  have here (accepts : Code → Bool) (rejected : accepts out = false)
      : accepts codes[i] = accepts codes'[i] := by
    have values := congrArg (fun bs => bs[i]?) (accepted accepts rejected)
    simpa [inside, inside'] using values
  by_contra differ
  by_cases first : codes[i] = out
  · have second : codes'[i] ≠ out := fun equal => differ (first.trans equal.symm)
    have both := here (· == codes'[i]) (beq_false_of_ne (Ne.symm second))
    rw [beq_self_eq_true, beq_iff_eq] at both
    exact differ both
  · have both := here (· == codes[i]) (beq_false_of_ne (Ne.symm first))
    rw [beq_self_eq_true, eq_comm, beq_iff_eq] at both
    exact differ both.symm

/-- What is printed is one record for each line at most, whatever the decoder, just if each line
overwrites what the line before it has left, but for a last line that is decoded: its record is
printed once more. -/
theorem lineByLine_iff_covered (lines : List Line)
    : (∀ d, LineByLine d lines ↔ disasmOne d (padded (lastBytes lines)) = none)
      ↔ lines.IsChain Covered := by
  rw [← decoded_eq_alone_iff]
  constructor
  · intro exactly
    exact eq_of_decoders fun d rejected => (lineByLine_iff rejected).mp ((exactly d).mpr rejected)
  · intro same d
    refine ⟨fun printed => ?_, fun rejected => (lineByLine_iff rejected).mpr (by rw [same])⟩
    rw [LineByLine, main_lines, same, alone, Option.some_inj, map_append] at printed
    exact head_eq_of_cons_eq (append_inj_right printed (by simp))

/-- The bytes `90`, and `b0 01`. -/
def nop : Line := ⟨[(⟨'9', rfl⟩, ⟨'0', rfl⟩)], by decide⟩

def movAl : Line := ⟨[(⟨'b', rfl⟩, ⟨'0', rfl⟩), (⟨'0', rfl⟩, ⟨'1', rfl⟩)], by decide⟩

/-- The record of a single line is printed twice; behind a longer line, a line that is not an
instruction has a record. -/
theorem not_lineByLine
    : ¬ LineByLine (accepting fun _ => true) [nop]
      ∧ ¬ LineByLine (accepting fun code => code[1]? == some 1) [movAl, nop] := by
  have printed {d : Decoder} {lines : List Line} (line : LineByLine d lines)
      : (decoded lines (replicate codeSize 0)).map (fun code => (disasmOne d code).isSome)
        = lines.map (fun l => (disasmOne d (padded l.bytes)).isSome) ++ [false] := by
    rw [LineByLine, main_lines, Option.some_inj] at line
    simpa [Function.comp_def] using congrArg (List.map Option.isSome) line
  constructor
  · intro line
    have records := printed line
    simp only [isSome_accepting] at records
    revert records
    decide
  · intro line
    have records := printed line
    simp only [isSome_accepting] at records
    revert records
    decide

end FastPokeEmu.WhiteBochs
