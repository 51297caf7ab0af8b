import FastPokeEmu.Floppy.TestcaseFile

/-! Counting of differences (`count-diffs.py`).
The script reads reports of comparisons one after the other, each headed by the name of its
test case, and prints the differences of Bochs and of QEMU to KVM. What it has collected for a
test case is printed when the header of the next one is read.
-/

namespace FastPokeEmu.CountDiffs

open LazyMemory List
open Testcase (isSpace intHex)

/-- Test cases with results that are not determined. -/
def nondet : List (List Char) :=
  ["3e0f31", "0f01c1", "660f7d00", "642ecc", "0f624500", "260f6100", "3e0f33", "642ecc",
    "3e0fa2"].map String.toList

/-- Fields to be left out; the list is emptied before it is used. -/
def normalize : List (List Char) := []

/-- The second part of a path is in the list; a path of one part is an error. -/
def isnondet (x : List Char) : Option Bool :=
  match x.splitOn '/' with
  | _ :: name :: _ => some (nondet.contains name)
  | _ => none

/-- `l.split()` -/
def split (l : List Char) : List (List Char) := (l.splitOnP isSpace).filter (· ≠ [])

/-- A line of a report: the name of a field and its values. -/
structure Field where
  name : List Char
  qemu : Nat
  bochs : Nat
  kvm : Nat
deriving DecidableEq

def parseField (l : List Char) : Option Field :=
  match split l with
  | t :: qemu :: bochs :: kvm :: _ => do
      some { name := t, qemu := ← intHex qemu, bochs := ← intHex bochs, kvm := ← intHex kvm }
  | _ => none

/-- A dictionary of differences: the test case, and values of an emulator and of KVM. -/
structure Diffs where
  testcase : Option (List Char)
  items : List (List Char × Nat × Nat)
deriving DecidableEq

/-- `len(diffs)` -/
def Diffs.len (d : Diffs) : Nat := d.testcase.toList.length + d.items.length

/-- `diffs[t] = (v, kvm)` -/
def Diffs.set (d : Diffs) (t : List Char) (v : Nat × Nat) : Diffs :=
  { d with
    items :=
      if t ∈ d.items.map Prod.fst then d.items.map (fun i => if i.1 = t then (t, v) else i)
      else d.items ++ [(t, v)] }

inductive Emulator where
  | bochs
  | qemu
deriving DecidableEq

/-- A printed dictionary, whose items have no order. -/
structure Record where
  emulator : Emulator
  testcase : List Char
  items : List (List Char × Nat × Nat)
deriving DecidableEq

structure State where
  diffsBochs : Diffs
  diffsQemu : Diffs
  out : List Record
deriving DecidableEq

def initial : State where
  diffsBochs := { testcase := none, items := [] }
  diffsQemu := { testcase := none, items := [] }
  out := []

/-- What is printed of a dictionary when a header is read. -/
def flush (emulator : Emulator) (d : Diffs) : Option (List Record) :=
  if 1 < d.len then do
    let testcase ← d.testcase
    let skip ← isnondet testcase
    some (if skip then [] else [{ emulator, testcase, items := d.items }])
  else some []

def ripField : List Char := "cpu[0].regs_state.rip".toList

def rspField : List Char := "cpu[0].regs_state.rsp".toList

def vectorField : List Char := "cpu[0].exception_state.vector".toList

/-- The second half of the loop's body. -/
def fieldStep (s : State) (f : Field) : State :=
  if normalize ≠ [] ∧ f.name ∈ normalize then s
  else if f.name = vectorField ∧ f.kvm = 7 then s
  else if f.name = vectorField ∧ f.bochs = f.qemu ∧ f.qemu = 6 then s
  else
    { s with
      diffsBochs :=
        if f.kvm ≠ f.bochs ∧ f.name ≠ rspField
            ∧ ¬ (f.name = vectorField ∧ f.qemu = 13 ∧ f.kvm = 65535) then
          s.diffsBochs.set f.name (f.bochs, f.kvm)
        else s.diffsBochs
      diffsQemu :=
        if f.kvm ≠ f.qemu then s.diffsQemu.set f.name (f.qemu, f.kvm) else s.diffsQemu }

def headerStep (s : State) (l : List Char) : Option State := do
  let bochs ← flush .bochs s.diffsBochs
  let qemu ← flush .qemu s.diffsQemu
  some
    { diffsBochs := { testcase := some l, items := [] }
      diffsQemu := { testcase := some l, items := [] }
      out := s.out ++ bochs ++ qemu }

def isHeader (l : List Char) : Bool := startsWith l "./".toList

def isField (l : List Char) : Bool := startsWith l "cpu[0]".toList || startsWith l "mem".toList

/-- Body of the loop over the lines. -/
def lineStep (s : State) (l : List Char) : Option State := do
  if startsWith l ripField then some s
  else
    let s ← if isHeader l then headerStep s l else some s
    if isField l then (parseField l).map (fieldStep s) else some s

/-- What is printed for some lines; nothing follows the loop. -/
def countDiffs (lines : List (List Char)) : Option (List Record) :=
  (lines.foldlM lineStep initial).map State.out

/-- A line of a report, as text. -/
structure FieldLine where
  text : List Char
  field : Field
  starts : isField text = true
  parsed : parseField text = some field

/-- The report of one comparison. -/
structure Report where
  header : List Char
  lines : List FieldLine
  headed : isHeader header = true
  distinct : (lines.map (fun l => l.field.name)).Nodup

def Report.text (r : Report) : List (List Char) := r.header :: r.lines.map FieldLine.text

/-- Fields that no filter removes. -/
def FieldLine.Survives (l : FieldLine) : Prop :=
  startsWith l.text ripField = false
  ∧ ¬ (l.field.name = vectorField ∧ (l.field.kvm = 7 ∨ l.field.bochs = 6 ∧ l.field.qemu = 6))

instance (l : FieldLine) : Decidable l.Survives := inferInstanceAs (Decidable (_ ∧ _))

def Field.value (emulator : Emulator) (f : Field) : Nat :=
  if emulator = .bochs then f.bochs else f.qemu

/-- Differences of Bochs alone that are not reported. -/
def Field.Tolerated (emulator : Emulator) (f : Field) : Prop :=
  emulator = .bochs ∧ (f.name = rspField ∨ (f.name = vectorField ∧ f.qemu = 13 ∧ f.kvm = 65535))

instance (emulator : Emulator) (f : Field) : Decidable (f.Tolerated emulator) :=
  inferInstanceAs (Decidable (_ ∧ _))

/-- Differences of an emulator to KVM that are to be reported. -/
def FieldLine.Differs (emulator : Emulator) (l : FieldLine) : Prop :=
  l.Survives ∧ ¬ l.field.Tolerated emulator ∧ l.field.value emulator ≠ l.field.kvm

instance (emulator : Emulator) (l : FieldLine) : Decidable (l.Differs emulator) :=
  inferInstanceAs (Decidable (_ ∧ _))

/-- The differences of an emulator in some lines. -/
def itemsOf (emulator : Emulator) (lines : List FieldLine) : List (List Char × Nat × Nat) :=
  (lines.filter (fun l => l.Differs emulator)).map
    (fun l => (l.field.name, l.field.value emulator, l.field.kvm))

/-- The test case is not in the list. -/
def Report.determined (r : Report) : Bool := !nondet.contains ((r.header.splitOn '/').getD 1 [])

/-- The record of a report, if it has any difference. -/
def Report.record (emulator : Emulator) (r : Report) : List Record :=
  if r.determined ∧ itemsOf emulator r.lines ≠ [] then
    [{ emulator, testcase := r.header, items := itemsOf emulator r.lines }]
  else []

def Report.records (r : Report) : List Record := r.record .bochs ++ r.record .qemu

section

variable {l : List Char}

theorem isHeader_iff : isHeader l = true ↔ ∃ rest, l = '.' :: '/' :: rest := by
  rw [isHeader, startsWith_iff]
  exact exists_congr fun rest => eq_comm

theorem isHeader_only (header : isHeader l = true)
    : startsWith l ripField = false ∧ isField l = false := by
  obtain ⟨rest, rfl⟩ := isHeader_iff.mp header
  have head : ('.' :: '/' :: rest).head? = some '.' := rfl
  refine ⟨not_startsWith head (by decide), ?_⟩
  rw [isField, Bool.or_eq_false_iff]
  exact ⟨not_startsWith head (by decide), not_startsWith head (by decide)⟩

theorem isField_not_header (field : isField l = true) : isHeader l = false := by
  rw [← Bool.not_eq_true]
  intro header
  rw [(isHeader_only header).2] at field
  cases field

theorem isnondet_header (header : isHeader l = true)
    : isnondet l = some (nondet.contains ((l.splitOn '/').getD 1 [])) := by
  obtain ⟨rest, rfl⟩ := isHeader_iff.mp header
  have first : ∀ c ∈ ['.'], (c == '/') = false := forall_mem_singleton.mpr rfl
  have parts : ('.' :: '/' :: rest).splitOn '/' = ['.'] :: rest.splitOn '/' :=
    splitOnP_append_cons_of_forall_mem first _ rfl rest
  obtain ⟨name, others, shape⟩ := exists_cons_of_ne_nil (splitOnP_ne_nil (· == '/') rest)
  have later : rest.splitOn '/' = name :: others := shape
  rw [isnondet, parts, later]
  rfl

end

/-- The loop's variables after the header and some lines of a report. -/
def collected (header : List Char) (lines : List FieldLine) (out : List Record) : State where
  diffsBochs := { testcase := some header, items := itemsOf .bochs lines }
  diffsQemu := { testcase := some header, items := itemsOf .qemu lines }
  out := out

section

variable {header : List Char} {lines : List FieldLine} {l : FieldLine} {out : List Record}

theorem name_of_mem_itemsOf {emulator : Emulator} {t : List Char}
    (mem : t ∈ (itemsOf emulator lines).map Prod.fst)
    : t ∈ lines.map (fun l => l.field.name) := by
  rw [itemsOf, map_map] at mem
  obtain ⟨l, inside, rfl⟩ := mem_map.mp mem
  exact mem_map_of_mem (mem_filter.mp inside).1

theorem itemsOf_concat (emulator : Emulator) (lines : List FieldLine) (l : FieldLine)
    : itemsOf emulator (lines ++ [l])
      = itemsOf emulator lines
        ++ if l.Differs emulator then [(l.field.name, l.field.value emulator, l.field.kvm)]
          else [] := by
  by_cases differs : l.Differs emulator
  · simp [itemsOf, differs]
  · simp [itemsOf, differs]

theorem set_itemsOf (fresh : l.field.name ∉ lines.map (fun l => l.field.name))
    (emulator : Emulator) (testcase : Option (List Char)) (v : Nat × Nat)
    : Diffs.set { testcase, items := itemsOf emulator lines } l.field.name v
      = { testcase, items := itemsOf emulator lines ++ [(l.field.name, v)] } := by
  rw [Diffs.set, if_neg (fun mem => fresh (name_of_mem_itemsOf mem))]

theorem differs_bochs (survives : l.Survives)
    : l.Differs .bochs
      ↔ l.field.kvm ≠ l.field.bochs
        ∧ l.field.name ≠ rspField
        ∧ ¬ (l.field.name = vectorField ∧ l.field.qemu = 13 ∧ l.field.kvm = 65535) := by
  simp only [FieldLine.Differs, survives, Field.Tolerated, Field.value, true_and, if_true, not_or,
    ne_comm (a := l.field.bochs)]
  exact and_comm

theorem differs_qemu (survives : l.Survives) : l.Differs .qemu ↔ l.field.kvm ≠ l.field.qemu := by
  simp [FieldLine.Differs, survives, Field.Tolerated, Field.value, ne_comm]

/-- One more line of the report, which may be filtered out. -/
theorem fieldStep_collected (other : startsWith l.text ripField = false)
    (fresh : l.field.name ∉ lines.map (fun l => l.field.name))
    : fieldStep (collected header lines out) l.field = collected header (lines ++ [l]) out := by
  have kept : ¬ (normalize ≠ [] ∧ l.field.name ∈ normalize) := fun both => both.1 rfl
  have same (removed : ¬ l.Survives)
      : collected header lines out = collected header (lines ++ [l]) out := by
    have none (emulator : Emulator) : ¬ l.Differs emulator := fun differs => removed differs.1
    simp only [collected, itemsOf_concat, none, if_false, append_nil]
  rw [fieldStep, if_neg kept]
  by_cases seven : l.field.name = vectorField ∧ l.field.kvm = 7
  · rw [if_pos seven]
    exact same fun survives => survives.2 ⟨seven.1, Or.inl seven.2⟩
  rw [if_neg seven]
  by_cases six : l.field.name = vectorField ∧ l.field.bochs = l.field.qemu ∧ l.field.qemu = 6
  · rw [if_pos six]
    exact same fun survives => survives.2 ⟨six.1, Or.inr ⟨six.2.1.trans six.2.2, six.2.2⟩⟩
  rw [if_neg six]
  have survives : l.Survives := by
    refine ⟨other, ?_⟩
    rintro ⟨vector, kvm | ⟨bochs, qemu⟩⟩
    · exact seven ⟨vector, kvm⟩
    · exact six ⟨vector, bochs.trans qemu.symm, qemu⟩
  simp only [collected, itemsOf_concat, ← differs_bochs survives, ← differs_qemu survives,
    set_itemsOf fresh]
  congr 1
  · by_cases differs : l.Differs .bochs
    · rw [if_pos differs, if_pos differs]
      rfl
    · rw [if_neg differs, if_neg differs, append_nil]
  · by_cases differs : l.Differs .qemu
    · rw [if_pos differs, if_pos differs]
      rfl
    · rw [if_neg differs, if_neg differs, append_nil]

theorem lineStep_collected (fresh : l.field.name ∉ lines.map (fun l => l.field.name))
    : lineStep (collected header lines out) l.text
      = some (collected header (lines ++ [l]) out) := by
  rw [lineStep]
  by_cases rip : startsWith l.text ripField = true
  · have removed (emulator : Emulator) : ¬ l.Differs emulator := by
      intro differs
      rw [differs.1.1] at rip
      cases rip
    simp only [if_pos rip, collected, itemsOf_concat, removed, if_false, append_nil]
  · have survives : startsWith l.text ripField = false := by simpa using rip
    simp only [survives, isField_not_header l.starts, l.starts, l.parsed, Bool.false_eq_true,
      if_false, if_true, Option.map_some, Option.bind_eq_bind, Option.bind_some,
      fieldStep_collected survives fresh]

theorem foldlM_collected (done rest : List FieldLine)
    (distinct : ((done ++ rest).map (fun l => l.field.name)).Nodup)
    : (rest.map FieldLine.text).foldlM lineStep (collected header done out)
      = some (collected header (done ++ rest) out) := by
  induction rest generalizing done with
  | nil => rw [append_nil]; rfl
  | cons l rest ih =>
    have fresh : l.field.name ∉ done.map (fun l => l.field.name) := by
      rw [map_append, nodup_append] at distinct
      exact fun mem => distinct.2.2 _ mem _ mem_cons_self rfl
    have later := ih (done ++ [l]) (by rwa [append_assoc])
    rw [map_cons, foldlM_cons, lineStep_collected fresh]
    rwa [append_assoc] at later

end

theorem flush_collected (r : Report) (emulator : Emulator)
    : flush emulator { testcase := some r.header, items := itemsOf emulator r.lines }
      = some (r.record emulator) := by
  rw [flush, Report.record, Report.determined]
  cases shape : itemsOf emulator r.lines with
  | nil => rw [if_neg (by simp [Diffs.len]), if_neg (fun both => both.2 rfl)]
  | cons item items =>
    rw [if_pos (by simp [Diffs.len]), Option.bind_eq_bind, Option.bind_some,
      isnondet_header r.headed, Option.bind_eq_bind, Option.bind_some]
    cases nondet.contains ((r.header.splitOn '/').getD 1 []) with
    | true => rfl
    | false =>
      have printed : (!false) = true ∧ item :: items ≠ [] := ⟨rfl, cons_ne_nil _ _⟩
      rw [if_pos printed]
      rfl

theorem headerStep_collected (r : Report) {header : List Char} (headed : isHeader header = true)
    (out : List Record)
    : lineStep (collected r.header r.lines out) header
      = some (collected header [] (out ++ r.records)) := by
  obtain ⟨rip, field⟩ := isHeader_only headed
  simp only [lineStep, rip, headed, field, headerStep, collected, flush_collected, if_true,
    Bool.false_eq_true, if_false, Option.bind_eq_bind, Option.bind_some, Report.records,
    append_assoc]
  rfl

theorem headerStep_initial {header : List Char} (headed : isHeader header = true)
    : lineStep initial header = some (collected header [] []) := by
  obtain ⟨rip, field⟩ := isHeader_only headed
  simp only [lineStep, rip, headed, field, if_true, Bool.false_eq_true, if_false]
  rfl

/-- The last report is collected, and all others are printed. -/
theorem foldlM_reports (reports : List Report) (r : Report)
    : ((reports ++ [r]).flatMap Report.text).foldlM lineStep initial
      = some (collected r.header r.lines (reports.flatMap Report.records)) := by
  have whole (r : Report) (out : List Record)
      : (r.lines.map FieldLine.text).foldlM lineStep (collected r.header [] out)
        = some (collected r.header r.lines out) :=
    foldlM_collected [] r.lines r.distinct
  induction reports using reverseRecOn generalizing r with
  | nil =>
    rw [nil_append, flatMap_singleton, Report.text, foldlM_cons, headerStep_initial r.headed]
    exact whole r []
  | append_singleton reports previous ih =>
    rw [flatMap_append, foldlM_append, ih previous, flatMap_singleton,
      Report.text, flatMap_append, flatMap_singleton]
    change (lineStep _ r.header).bind _ = _
    rw [headerStep_collected previous r.headed]
    exact whole r _

/-- Every report but the last one is printed; so all are exactly if the last one has nothing
to print.
-/
theorem countDiffs_reports_iff (reports : List Report)
    : ∃ out,
        countDiffs (reports.flatMap Report.text) = some out
        ∧ out = reports.dropLast.flatMap Report.records
        ∧ (out = reports.flatMap Report.records
            ↔ ∀ last, reports.getLast? = some last → last.records = []) := by
  cases reports using reverseRecOn with
  | nil => exact ⟨[], rfl, rfl, by simp⟩
  | append_singleton reports last =>
    refine ⟨reports.flatMap Report.records, ?_, ?_, ?_⟩
    · rw [countDiffs, foldlM_reports]
      rfl
    · rw [dropLast_concat]
    · simp [flatMap_append]

/-- A report of one difference. -/
def raxReport : Report where
  header := "./00d8/report".toList
  lines :=
    [{ text := "cpu[0].regs_state.rax 1 2 3".toList
       field := { name := "cpu[0].regs_state.rax".toList, qemu := 1, bochs := 2, kvm := 3 }
       starts := by decide
       parsed := by decide }]
  headed := by decide
  distinct := by decide

/-- Nothing is printed for it, although both emulators differ from KVM. -/
theorem countDiffs_rax
    : countDiffs raxReport.text = some []
      ∧ raxReport.records
        = [{ emulator := .bochs, testcase := "./00d8/report".toList,
             items := [("cpu[0].regs_state.rax".toList, 2, 3)] },
           { emulator := .qemu, testcase := "./00d8/report".toList,
             items := [("cpu[0].regs_state.rax".toList, 1, 3)] }] := by
  decide

end FastPokeEmu.CountDiffs
