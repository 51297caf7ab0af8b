import Mathlib.Data.List.Basic

/-! The exception handlers of the test kernel (`interrupts-mod.c`) and the two words of
exception data that every round of a generated program reads back.
Handlers run as tasks of their own. They reach the words below the program's blocks
through physical addresses when paging is off and through an alias when it is on.
-/

namespace FastPokeEmu.Kernel

open List Option

abbrev Word := BitVec 32

/-- Return point for the handlers, in the extended address range. -/
def retp : Nat := 0x128d008

/-- Exception data: the error code, followed by the vector. -/
def edata : Nat := retp + 4

/-- The kernel's page tables map every linear address to physical memory modulo 4 MiB. -/
def physical (pg : Bool) (linear : Nat) : Nat := if pg then linear % 0x400000 else linear

/-- What a handler can see: memory by physical word address, CR0.PG and the instruction
pointer saved in the interrupted task's segment.
-/
structure KernelState where
  mem : Nat → Word
  pg : Bool
  tss0Eip : Word

def KernelState.load (s : KernelState) (linear : Nat) : Word := s.mem (physical s.pg linear)

def KernelState.store (s : KernelState) (linear : Nat) (value : Word) : KernelState :=
  { s with mem := fun a => if a = physical s.pg linear then value else s.mem a }

/-- A handler run, given the word on top of the handler task's stack. `none` is `hlt`. -/
abbrev Handler := Word → KernelState → Option KernelState

/-- The common body: record the vector, with the error code in front of it when `pops` is
set, and return to the address stored at the return point.
-/
def recordVector (pops : Bool) (vector vectorPg : Word) : Handler := fun top s =>
  if s.pg then
    let s := if pops then s.store 0x128d00c top else s
    let s := s.store 0x128d010 vectorPg
    some { s with tss0Eip := s.load 0x128d008 }
  else
    let s := if pops then s.store 0x28d00c top else s
    let s := s.store 0x28d010 vector
    some { s with tss0Eip := s.load 0x28d008 }

/-- Handlers that fault again on return stop the machine when their budget is used up. -/
def countdown (body : Handler) : Handler := fun top s =>
  let s := s.store 0x280000 (s.load 0x280000 - 1)
  if s.load 0x280000 = 0 then none else body top s

def intHandler0 : Handler := recordVector false 0x0 0x0
def intHandler1 : Handler := recordVector false 0x1 0x1
def intHandler3 : Handler := recordVector false 0x3 0x3
def intHandler4 : Handler := recordVector false 0x4 0x4
def intHandler6 : Handler := recordVector false 0x6 0x6
def intHandler7 : Handler := recordVector false 0x7 0x7
def intHandler8 : Handler := recordVector true 0x8 0x8
def intHandler9 : Handler := recordVector false 0x9 0x9
def intHandler10 : Handler := countdown (recordVector true 0xa 0xa)
def intHandler11 : Handler := countdown (recordVector true 0xb 0xb)
-- handler 12 stores the vector of handler 11
def intHandler12 : Handler := recordVector true 0xb 0xb
def intHandler13 : Handler := recordVector true 0xd 0xd
def intHandler14 : Handler := recordVector true 0xe 0xe
-- the paging branch of handler 15 stores 0xa
def intHandler15 : Handler := recordVector false 0xf 0xa
def intHandler16 : Handler := recordVector false 0x10 0x10
def intHandler17 : Handler := recordVector true 0x11 0x11
def intHandler18 : Handler := recordVector false 0x12 0x12
def intHandler19 : Handler := recordVector false 0x13 0x13

/-- Vectors the processor delivers without an error code. -/
inductive PlainVector
  | divideError | debug | breakpoint | overflow | invalidOpcode | deviceNotAvailable
  | segmentOverrun | reserved15 | fpuError | machineCheck | simdError
  deriving DecidableEq, Repr

/-- Vectors the processor delivers with an error code. -/
inductive CodedVector
  | doubleFault | invalidTss | segmentNotPresent | stackFault | generalProtection
  | pageFault | alignmentCheck
  deriving DecidableEq, Repr

/-- An exception carries an error code exactly when its vector has one. -/
inductive Exception
  | plain (vector : PlainVector)
  | coded (vector : CodedVector) (code : Word)
  deriving DecidableEq, Repr

def PlainVector.handler : PlainVector → Handler
  | .divideError => intHandler0
  | .debug => intHandler1
  | .breakpoint => intHandler3
  | .overflow => intHandler4
  | .invalidOpcode => intHandler6
  | .deviceNotAvailable => intHandler7
  | .segmentOverrun => intHandler9
  | .reserved15 => intHandler15
  | .fpuError => intHandler16
  | .machineCheck => intHandler18
  | .simdError => intHandler19

def CodedVector.handler : CodedVector → Handler
  | .doubleFault => intHandler8
  | .invalidTss => intHandler10
  | .segmentNotPresent => intHandler11
  | .stackFault => intHandler12
  | .generalProtection => intHandler13
  | .pageFault => intHandler14
  | .alignmentCheck => intHandler17

/-- Vectors whose handler counts down. -/
def CodedVector.counted : CodedVector → Bool
  | .invalidTss | .segmentNotPresent => true
  | _ => false

/-- Task switch to the handler; without an error code nothing is pushed for it to pop. -/
def deliver (s : KernelState) : Exception → Option KernelState
  | .plain vector => vector.handler 0 s
  | .coded vector code => vector.handler code s

/-- One test or loop iteration: at most one exception, and CR0.PG when it is raised. -/
structure Round where
  exception : Option Exception
  pg : Bool
  deriving DecidableEq, Repr

def Round.counted (round : Round) : Bool :=
  match round.exception with
  | some (.coded vector _) => vector.counted
  | _ => false

/-- The round raises an exception that comes with an error code. -/
def Round.HasErrorCode (round : Round) : Prop :=
  ∃ vector code, round.exception = some (.coded vector code)

/-- Memory after a round; the generated program itself never stores to the two words. -/
def runRound (mem : Nat → Word) (round : Round) : Option (Nat → Word) :=
  match round.exception with
  | none => some mem
  | some exception => (deliver ⟨mem, round.pg, 0⟩ exception).map KernelState.mem

/-- Memory after a sequence of rounds. -/
def runRounds (mem : Nat → Word) (rounds : List Round) : Option (Nat → Word) :=
  rounds.foldlM runRound mem

/-- The two words that the exception gadgets of `gen_root` read, with paging on. -/
def recorded (mem : Nat → Word) : Word × Word :=
  (mem (physical true edata), mem (physical true (edata + 4)))

/-- What a round records after a history of earlier rounds. -/
def recordedAfter (mem : Nat → Word) (history : List Round) (round : Round)
    : Option (Word × Word) :=
  (runRounds mem (history ++ [round])).map recorded

/-- The kernel starts a program with a budget of ten counted exceptions, and the tenth
stops the machine.
-/
def startBudget : Word := 0xa

/-- The rounds raise too few counted exceptions to stop the machine. -/
def WithinBudget (rounds : List Round) : Prop := rounds.countP Round.counted < startBudget.toNat

theorem recordVector_spec (pops : Bool) (vector vectorPg top : Word) (s : KernelState)
    : ∃ s',
        recordVector pops vector vectorPg top s = some s'
        ∧ recorded s'.mem
          = (if pops then top else (recorded s.mem).1, if s.pg then vectorPg else vector)
        ∧ s'.mem 0x280000 = s.mem 0x280000 := by
  obtain ⟨mem, pg, eip⟩ := s
  cases pg <;> cases pops <;>
    simp [recordVector, recorded, KernelState.store, physical, edata, retp]

/-- Counting down runs the body with one exception less in the budget. -/
theorem countdown_spec (body : Handler) (top : Word) (s : KernelState)
    (budget : 1 < (s.mem 0x280000).toNat)
    : ∃ s',
        countdown body top s = body top s'
        ∧ s'.pg = s.pg
        ∧ recorded s'.mem = recorded s.mem
        ∧ (s'.mem 0x280000).toNat = (s.mem 0x280000).toNat - 1 := by
  refine ⟨s.store 0x280000 (s.load 0x280000 - 1), ?_, rfl, ?_, ?_⟩
  · have cell : physical s.pg 0x280000 = 0x280000 := by
      cases s.pg <;> rfl
    have nonzero : s.mem 0x280000 - 1 ≠ 0 := by bv_omega
    simp only [countdown, KernelState.store, KernelState.load, cell, if_true, if_neg nonzero]
  · cases h : s.pg <;> simp [recorded, KernelState.store, h, physical, edata, retp]
  · have cell : physical s.pg 0x280000 = 0x280000 := by
      cases s.pg <;> rfl
    simp only [KernelState.store, KernelState.load, cell, if_true]
    bv_omega

/-- The vector word a plain exception leaves behind. -/
def PlainVector.word (pg : Bool) : PlainVector → Word
  | .divideError => 0x0
  | .debug => 0x1
  | .breakpoint => 0x3
  | .overflow => 0x4
  | .invalidOpcode => 0x6
  | .deviceNotAvailable => 0x7
  | .segmentOverrun => 0x9
  | .reserved15 => if pg then 0xa else 0xf
  | .fpuError => 0x10
  | .machineCheck => 0x12
  | .simdError => 0x13

/-- The vector word an exception with an error code leaves behind. -/
def CodedVector.word : CodedVector → Word
  | .doubleFault => 0x8
  | .invalidTss => 0xa
  | .segmentNotPresent | .stackFault => 0xb
  | .generalProtection => 0xd
  | .pageFault => 0xe
  | .alignmentCheck => 0x11

/-- A plain exception keeps the error code of whatever was recorded before. -/
theorem PlainVector.handler_spec (vector : PlainVector) (top : Word) (s : KernelState)
    : ∃ s',
        vector.handler top s = some s'
        ∧ recorded s'.mem = ((recorded s.mem).1, vector.word s.pg)
        ∧ s'.mem 0x280000 = s.mem 0x280000 := by
  have same (value : Word)
      : ∃ s',
          recordVector false value value top s = some s'
          ∧ recorded s'.mem = ((recorded s.mem).1, value)
          ∧ s'.mem 0x280000 = s.mem 0x280000 := by
    simpa using recordVector_spec false value value top s
  cases vector with
  | divideError => exact same 0x0
  | debug => exact same 0x1
  | breakpoint => exact same 0x3
  | overflow => exact same 0x4
  | invalidOpcode => exact same 0x6
  | deviceNotAvailable => exact same 0x7
  | segmentOverrun => exact same 0x9
  | reserved15 => exact recordVector_spec false 0xf 0xa top s
  | fpuError => exact same 0x10
  | machineCheck => exact same 0x12
  | simdError => exact same 0x13

/-- An exception with an error code replaces both words. -/
theorem CodedVector.handler_spec (vector : CodedVector) (code : Word) (s : KernelState)
    (budget : vector.counted = true → 1 < (s.mem 0x280000).toNat)
    : ∃ s',
        vector.handler code s = some s'
        ∧ recorded s'.mem = (code, vector.word)
        ∧ (s'.mem 0x280000).toNat
          = (s.mem 0x280000).toNat - (if vector.counted then 1 else 0) := by
  have counting (value : Word) (budget : 1 < (s.mem 0x280000).toNat)
      : ∃ s',
          countdown (recordVector true value value) code s = some s'
          ∧ recorded s'.mem = (code, value)
          ∧ (s'.mem 0x280000).toNat = (s.mem 0x280000).toNat - 1 := by
    obtain ⟨started, runs, _, _, spent⟩ :=
      countdown_spec (recordVector true value value) code s budget
    obtain ⟨s', returns, words, kept⟩ := recordVector_spec true value value code started
    refine ⟨s', runs.trans returns, by simpa using words, ?_⟩
    rw [kept, spent]
  have direct (value : Word)
      : ∃ s',
          recordVector true value value code s = some s'
          ∧ recorded s'.mem = (code, value)
          ∧ (s'.mem 0x280000).toNat = (s.mem 0x280000).toNat := by
    obtain ⟨s', returns, words, kept⟩ := recordVector_spec true value value code s
    exact ⟨s', returns, by simpa using words, by rw [kept]⟩
  cases vector with
  | invalidTss => exact counting 0xa (budget rfl)
  | segmentNotPresent => exact counting 0xb (budget rfl)
  | doubleFault => exact direct 0x8
  | stackFault => exact direct 0xb
  | generalProtection => exact direct 0xd
  | pageFault => exact direct 0xe
  | alignmentCheck => exact direct 0x11

/-- What a round records, given what the memory held before it. -/
def Round.pair (round : Round) (before : Word × Word) : Word × Word :=
  match round.exception with
  | none => before
  | some (.plain vector) => (before.1, vector.word round.pg)
  | some (.coded vector code) => (code, vector.word)

/-- One round, as long as the budget lasts. -/
theorem runRound_spec (mem : Nat → Word) (round : Round)
    (budget : round.counted = true → 1 < (mem 0x280000).toNat)
    : ∃ mem',
        runRound mem round = some mem'
        ∧ recorded mem' = round.pair (recorded mem)
        ∧ (mem' 0x280000).toNat
          = (mem 0x280000).toNat - (if round.counted then 1 else 0) := by
  obtain ⟨exception, pg⟩ := round
  match exception with
  | none => exact ⟨mem, rfl, rfl, rfl⟩
  | some (.plain vector) =>
    obtain ⟨s', returns, words, kept⟩ := vector.handler_spec 0 ⟨mem, pg, 0⟩
    refine ⟨s'.mem, ?_, words, ?_⟩
    · simp only [runRound, deliver, returns, map_some]
    · simp [kept, Round.counted]
  | some (.coded vector code) =>
    obtain ⟨s', returns, words, spent⟩ := vector.handler_spec code ⟨mem, pg, 0⟩ budget
    refine ⟨s'.mem, ?_, words, spent⟩
    simp only [runRound, deliver, returns, map_some]

/-- A run within its budget completes, and records what its rounds make of the initial
words one after the other. Witness: list induction, spending the budget round by round.
-/
theorem runRounds_spec (rounds : List Round) (mem : Nat → Word)
    (budget : rounds.countP Round.counted < (mem 0x280000).toNat)
    : ∃ mem',
        runRounds mem rounds = some mem'
        ∧ recorded mem'
          = rounds.foldl (fun words round => round.pair words) (recorded mem) := by
  induction rounds generalizing mem with
  | nil => exact ⟨mem, rfl, rfl⟩
  | cons round rest ih =>
    rw [countP_cons] at budget
    obtain ⟨next, runs, words, spent⟩ := runRound_spec mem round (by
      intro counted
      rw [if_pos counted] at budget
      omega)
    obtain ⟨mem', later, final⟩ := ih next (by
      rw [spent]
      omega)
    refine ⟨mem', ?_, ?_⟩
    · simpa [runRounds, runs] using later
    · rw [final, words, foldl_cons]

theorem recordedAfter_eq {mem : Nat → Word} {history : List Round} {round : Round}
    (start : mem 0x280000 = startBudget) (within : WithinBudget (history ++ [round]))
    : recordedAfter mem history round
      = some (round.pair (history.foldl (fun words round => round.pair words) (recorded mem))) := by
  obtain ⟨mem', runs, words⟩ := runRounds_spec (history ++ [round]) mem (by
    rw [start]
    exact within)
  rw [recordedAfter, runs, map_some, words, foldl_append]
  rfl

/-- The pair a round records is independent of the earlier rounds exactly when there are
none, or when the round's own exception comes with an error code.
Witness: an error code overwrites both words; any other round keeps the error code of a
general protection fault in the round before it.
-/
theorem recordedAfter_independent_iff (round : Round) (k : Nat)
    : (∀ (mem : Nat → Word) (history other : List Round),
        mem 0x280000 = startBudget
        → history.length = k
        → other.length = k
        → WithinBudget (history ++ [round])
        → WithinBudget (other ++ [round])
        → ∃ pair,
            recordedAfter mem history round = some pair
            ∧ recordedAfter mem other round = some pair)
      ↔ k = 0 ∨ round.HasErrorCode := by
  constructor
  · intro independent
    by_contra mustDepend
    obtain ⟨later, plain⟩ := not_or.mp mustDepend
    let fault (code : Word) : Round := ⟨some (.coded .generalProtection code), true⟩
    have uncounted : round.counted = false := by
      match shape : round.exception with
      | none => simp [Round.counted, shape]
      | some (.plain vector) => simp [Round.counted, shape]
      | some (.coded vector code) => exact absurd ⟨vector, code, shape⟩ plain
    have within (code : Word)
        : WithinBudget (replicate k (fault code) ++ [round]) := by
      have zero : (fault code).counted = false := rfl
      simp [WithinBudget, countP_replicate, zero, uncounted, startBudget]
    have codeKept (code : Word)
        : ((recordedAfter (fun _ => startBudget) (replicate k (fault code)) round).map
            Prod.fst) = some code := by
      rw [recordedAfter_eq rfl (within code)]
      obtain ⟨n, rfl⟩ := Nat.exists_eq_succ_of_ne_zero later
      rw [replicate_succ', foldl_append]
      match shape : round.exception with
      | none => simp [Round.pair, shape, fault]
      | some (.plain vector) => simp [Round.pair, shape, fault]
      | some (.coded vector code) => exact absurd ⟨vector, code, shape⟩ plain
    obtain ⟨pair, first, second⟩ :=
      independent (fun _ => startBudget) (replicate k (fault 0))
        (replicate k (fault 8)) rfl (by simp) (by simp) (within 0) (within 8)
    have zero := codeKept 0
    have eight := codeKept 8
    rw [first, map_some, Option.some.injEq] at zero
    rw [second, map_some, Option.some.injEq, zero] at eight
    exact absurd eight (by decide)
  · rintro (rfl | ⟨vector, code, raised⟩) mem history other start length otherLength
      within otherWithin
    · obtain rfl := length_eq_zero_iff.mp length
      obtain rfl := length_eq_zero_iff.mp otherLength
      exact ⟨_, recordedAfter_eq start within, recordedAfter_eq start within⟩
    · refine ⟨(code, vector.word), ?_, ?_⟩
      · rw [recordedAfter_eq start within]
        simp [Round.pair, raised]
      · rw [recordedAfter_eq start otherWithin]
        simp [Round.pair, raised]

/-- A round without an exception repeats the pair of an earlier page fault, and a divide
error is recorded with the error code of that page fault.
-/
theorem recordedAfter_stale
    : let quiet : Round := ⟨none, true⟩
      let divide : Round := ⟨some (.plain .divideError), true⟩
      let fault : Round := ⟨some (.coded .pageFault 2), true⟩
      let mem : Nat → Word := fun a => if a = 0x280000 then startBudget else 0
      recordedAfter mem [quiet] quiet = some (0, 0)
      ∧ recordedAfter mem [fault] quiet = some (2, 14)
      ∧ recordedAfter mem [quiet] divide = some (0, 0)
      ∧ recordedAfter mem [fault] divide = some (2, 0) := by
  decide

end FastPokeEmu.Kernel
