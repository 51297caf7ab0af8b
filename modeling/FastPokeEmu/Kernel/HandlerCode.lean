import FastPokeEmu.Kernel.Exceptions
import Mathlib.Logic.Function.Basic

/-! The instructions of the exception handlers (`interrupts-mod.c`).
Every handler is a task of its own: it is resumed where it returned the last time, jumps back to
its first instruction, and finds an error code on its stack if the exception comes with one.
-/

namespace FastPokeEmu.Kernel

inductive Label
  | begin_ | code | pg | end_
  deriving DecidableEq, Repr

/-- The instructions that the handlers are made of. Addresses are linear ones. -/
inductive Ins
  | label (l : Label)
  | movCr0Eax
  | andEax (imm : Word)
  | cmplEax (imm : Word)
  | je (l : Label)
  | jnz (l : Label)
  | jmp (l : Label)
  | decl (addr : Nat)
  | pop (addr : Nat)
  | movl (imm : Word) (addr : Nat)
  | movToEax (addr : Nat)
  /-- `mov %eax,%0`, where the operand is `tss0.eip` -/
  | movEaxEip
  | hlt
  | iret
  deriving DecidableEq, Repr

/-- A branch of a handler, for the addresses of one paging mode. -/
def branch (pops : Bool) (vector : Word) (base : Nat) : List Ins :=
  (if pops then [.pop (base + 4)] else []) ++ [.movl vector (base + 8), .movToEax base, .movEaxEip]

/-- The code of a handler. -/
def handlerCode (counted pops : Bool) (vector vectorPg : Word) : List Ins :=
  [.label .begin_]
  ++ (if counted then [.decl 0x280000, .jnz .code, .hlt, .label .code] else [])
  ++ [.movCr0Eax, .andEax 0x80000000, .cmplEax 0x80000000, .je .pg]
  ++ branch pops vector 0x28d008
  ++ [.jmp .end_, .label .pg]
  ++ branch pops vectorPg 0x128d008
  ++ [.label .end_, .iret, .jmp .begin_]

/-- A handler task's registers, and everything it can reach. -/
structure Cpu where
  kernel : KernelState
  cr0 : Word
  /-- The stack segment of the handlers, by stack pointer -/
  stack : Word → Word
  eax : Word
  zf : Bool
  esp : Word
  eip : Nat

def jump (code : List Ins) (l : Label) (c : Cpu) : Cpu := { c with eip := code.idxOf (.label l) }

/-- Run a task until it returns. `none` is `hlt`, or a task that does not return in time. -/
def exec (code : List Ins) : Nat → Cpu → Option Cpu
  | 0, _ => none
  | n + 1, c =>
    let next := { c with eip := c.eip + 1 }
    match code[c.eip]? with
    | none => none
    | some (.label _) => exec code n next
    | some .movCr0Eax => exec code n { next with eax := c.cr0 }
    | some (.andEax imm) => exec code n { next with eax := c.eax &&& imm }
    | some (.cmplEax imm) => exec code n { next with zf := c.eax == imm }
    | some (.je l) => exec code n (if c.zf then jump code l c else next)
    | some (.jnz l) => exec code n (if c.zf then next else jump code l c)
    | some (.jmp l) => exec code n (jump code l c)
    | some (.decl addr) =>
      let value := c.kernel.load addr - 1
      exec code n { next with kernel := c.kernel.store addr value, zf := value == 0 }
    | some (.pop addr) =>
      exec code n
        { next with kernel := c.kernel.store addr (c.stack c.esp), esp := c.esp + 4 }
    | some (.movl imm addr) => exec code n { next with kernel := c.kernel.store addr imm }
    | some (.movToEax addr) => exec code n { next with eax := c.kernel.load addr }
    | some .movEaxEip => exec code n { next with kernel := { c.kernel with tss0Eip := c.eax } }
    | some .hlt => none
    | some .iret => some next

/-- What the handlers are, apart from the instructions they are made of. -/
def handlerOf (counted pops : Bool) (vector vectorPg : Word) : Handler :=
  if counted then countdown (recordVector pops vector vectorPg)
  else recordVector pops vector vectorPg

theorem and_pg_eq (cr0 : Word) : (cr0 &&& 0x80000000 == (0x80000000 : Word)) = cr0.getLsbD 31 := by
  have bit : (0x80000000 : Word) = BitVec.twoPow 32 31 := by decide
  have nonzero : BitVec.twoPow 32 31 ≠ 0#32 := by decide
  rw [bit, BitVec.and_twoPow]
  cases cr0.getLsbD 31 with
  | true => simp
  | false => simpa using nonzero.symm

/-- Where the test of the paging mode stands. -/
def testAt (counted : Bool) : Nat := if counted then 5 else 1

/-- Where the branch for paging on stands. -/
def pgAt (counted pops : Bool) : Nat := testAt counted + (if pops then 9 else 8)

/-- Where a handler is resumed. -/
def resumeAt (counted pops : Bool) : Nat := testAt counted + (if pops then 16 else 14)

section

variable (counted pops : Bool) (vector vectorPg : Word) (n : Nat) (kernel : KernelState)
  (cr0 : Word) (stack : Word → Word) (eax : Word) (zf : Bool) (esp : Word)

theorem exec_resume
    : exec (handlerCode counted pops vector vectorPg) (n + 1)
        ⟨kernel, cr0, stack, eax, zf, esp, resumeAt counted pops⟩
      = exec (handlerCode counted pops vector vectorPg) n
          ⟨kernel, cr0, stack, eax, zf, esp, 0⟩ := by
  cases counted <;> cases pops <;> rfl

theorem exec_begin
    : exec (handlerCode false pops vector vectorPg) (n + 1)
        ⟨kernel, cr0, stack, eax, zf, esp, 0⟩
      = exec (handlerCode false pops vector vectorPg) n
          ⟨kernel, cr0, stack, eax, zf, esp, testAt false⟩ := by
  cases pops <;> rfl

/-- Handlers that count down halt, or go on to the test. -/
theorem exec_countdown
    : exec (handlerCode true pops vector vectorPg) (n + 4)
        ⟨kernel, cr0, stack, eax, zf, esp, 0⟩
      = if kernel.load 0x280000 - 1 == 0 then none
        else
          exec (handlerCode true pops vector vectorPg) n
            ⟨kernel.store 0x280000 (kernel.load 0x280000 - 1), cr0, stack, eax, false, esp,
              testAt true⟩ := by
  have runs
      : exec (handlerCode true pops vector vectorPg) (n + 4)
          ⟨kernel, cr0, stack, eax, zf, esp, 0⟩
        = exec (handlerCode true pops vector vectorPg) (n + 1)
            (if kernel.load 0x280000 - 1 == 0 then
              ⟨kernel.store 0x280000 (kernel.load 0x280000 - 1), cr0, stack, eax,
                kernel.load 0x280000 - 1 == 0, esp, 3⟩
            else
              ⟨kernel.store 0x280000 (kernel.load 0x280000 - 1), cr0, stack, eax,
                kernel.load 0x280000 - 1 == 0, esp, 4⟩) := by
    cases pops <;> rfl
  rw [runs]
  cases kernel.load 0x280000 - 1 == 0 <;> cases pops <;> rfl

theorem exec_test
    : exec (handlerCode counted pops vector vectorPg) (n + 4)
        ⟨kernel, cr0, stack, eax, zf, esp, testAt counted⟩
      = exec (handlerCode counted pops vector vectorPg) n
          (if cr0.getLsbD 31 then
            ⟨kernel, cr0, stack, cr0 &&& 0x80000000, cr0.getLsbD 31, esp, pgAt counted pops⟩
          else
            ⟨kernel, cr0, stack, cr0 &&& 0x80000000, cr0.getLsbD 31, esp,
              testAt counted + 4⟩) := by
  rw [← and_pg_eq]
  cases counted <;> cases pops <;> rfl

/-- What a branch does to the words of its paging mode. -/
def recordAt (vector : Word) (base : Nat) (top : Word) (s : KernelState) : KernelState :=
  let s := if pops then s.store (base + 4) top else s
  let s := s.store (base + 8) vector
  { s with tss0Eip := s.load base }

theorem exec_branch (pg : Bool)
    : let kernel' :=
        if pg then recordAt pops vectorPg 0x128d008 (stack esp) kernel
        else recordAt pops vector 0x28d008 (stack esp) kernel
      exec (handlerCode counted pops vector vectorPg) (n + 7)
        ⟨kernel, cr0, stack, eax, zf, esp,
          if pg then pgAt counted pops else testAt counted + 4⟩
      = some
          ⟨kernel', cr0, stack, kernel'.tss0Eip, zf, if pops then esp + 4 else esp,
            resumeAt counted pops⟩ := by
  cases pg <;> cases counted <;> cases pops <;> rfl

end

theorem recordVector_eq (pops : Bool) (vector vectorPg top : Word) (s : KernelState)
    : recordVector pops vector vectorPg top s
      = some
          (if s.pg then recordAt pops vectorPg 0x128d008 top s
          else recordAt pops vector 0x28d008 top s) := by
  rw [recordVector]
  cases s.pg <;> cases pops <;> rfl

/-- The task after its handler has returned. -/
def Cpu.returned (c : Cpu) (counted pops : Bool) (kernel : KernelState) : Cpu where
  kernel := kernel
  cr0 := c.cr0
  stack := c.stack
  eax := kernel.tss0Eip
  zf := c.cr0.getLsbD 31
  esp := if pops then c.esp + 4 else c.esp
  eip := resumeAt counted pops

/-- From the test on, a handler records its vector. -/
theorem exec_record (counted pops : Bool) (vector vectorPg : Word) (c : Cpu) (n : Nat)
    (here : c.eip = testAt counted) (paging : c.kernel.pg = c.cr0.getLsbD 31)
    : exec (handlerCode counted pops vector vectorPg) (n + 11) c
      = (recordVector pops vector vectorPg (c.stack c.esp) c.kernel).map
          (c.returned counted pops) := by
  obtain ⟨kernel, cr0, stack, eax, zf, esp, eip⟩ := c
  replace here : eip = testAt counted := here
  replace paging : kernel.pg = cr0.getLsbD 31 := paging
  subst here
  rw [exec_test _ _ _ _ (n + 7), recordVector_eq, paging]
  simp only [Option.map_some, Cpu.returned]
  cases cr0.getLsbD 31 with
  | true => exact exec_branch counted pops vector vectorPg n kernel cr0 stack _ true esp true
  | false => exact exec_branch counted pops vector vectorPg n kernel cr0 stack _ false esp false

theorem exec_fromBegin (counted pops : Bool) (vector vectorPg : Word) (c : Cpu) (n : Nat)
    (start : c.eip = 0) (paging : c.kernel.pg = c.cr0.getLsbD 31)
    : exec (handlerCode counted pops vector vectorPg) (n + 15) c
      = (handlerOf counted pops vector vectorPg (c.stack c.esp) c.kernel).map
          (c.returned counted pops) := by
  obtain ⟨kernel, cr0, stack, eax, zf, esp, eip⟩ := c
  cases start
  cases counted with
  | false =>
    rw [exec_begin _ _ _ (n + 14)]
    exact exec_record false pops vector vectorPg _ (n + 3) rfl paging
  | true =>
    have stored
        : (kernel.store 0x280000 (kernel.load 0x280000 - 1)).load 0x280000
          = kernel.load 0x280000 - 1 :=
      if_pos rfl
    rw [exec_countdown _ _ _ (n + 11), handlerOf, if_pos rfl, countdown]
    simp only [stored]
    by_cases spent : kernel.load 0x280000 - 1 = 0
    · rw [if_pos (beq_iff_eq.mpr spent), if_pos spent]
      rfl
    · rw [if_neg (fun same => spent (beq_iff_eq.mp same)), if_neg spent]
      exact exec_record true pops vector vectorPg _ n rfl paging

/-- A run of a handler, from its first instruction or from where it returned the last time. -/
theorem exec_handlerCode (counted pops : Bool) (vector vectorPg : Word) (c : Cpu)
    (ready : c.eip = 0 ∨ c.eip = resumeAt counted pops)
    (paging : c.kernel.pg = c.cr0.getLsbD 31)
    : exec (handlerCode counted pops vector vectorPg) 16 c
      = (handlerOf counted pops vector vectorPg (c.stack c.esp) c.kernel).map
          (c.returned counted pops) := by
  rcases ready with start | resumed
  · exact exec_fromBegin counted pops vector vectorPg c 1 start paging
  · obtain ⟨kernel, cr0, stack, eax, zf, esp, eip⟩ := c
    replace resumed : eip = resumeAt counted pops := resumed
    subst resumed
    rw [exec_resume _ _ _ _ 15]
    exact exec_fromBegin counted pops vector vectorPg ⟨kernel, cr0, stack, eax, zf, esp, 0⟩ 0 rfl
      paging

abbrev Vec := PlainVector ⊕ CodedVector

def Vec.number : Vec → Word
  | .inl .divideError => 0
  | .inl .debug => 1
  | .inl .breakpoint => 3
  | .inl .overflow => 4
  | .inl .invalidOpcode => 6
  | .inl .deviceNotAvailable => 7
  | .inr .doubleFault => 8
  | .inl .segmentOverrun => 9
  | .inr .invalidTss => 10
  | .inr .segmentNotPresent => 11
  | .inr .stackFault => 12
  | .inr .generalProtection => 13
  | .inr .pageFault => 14
  | .inl .reserved15 => 15
  | .inl .fpuError => 16
  | .inr .alignmentCheck => 17
  | .inl .machineCheck => 18
  | .inl .simdError => 19

/-- The vectors that the two branches of a handler store. -/
def Vec.stored : Vec → Word × Word
  | .inl .divideError => (0x0, 0x0)
  | .inl .debug => (0x1, 0x1)
  | .inl .breakpoint => (0x3, 0x3)
  | .inl .overflow => (0x4, 0x4)
  | .inl .invalidOpcode => (0x6, 0x6)
  | .inl .deviceNotAvailable => (0x7, 0x7)
  | .inr .doubleFault => (0x8, 0x8)
  | .inl .segmentOverrun => (0x9, 0x9)
  | .inr .invalidTss => (0xa, 0xa)
  | .inr .segmentNotPresent => (0xb, 0xb)
  | .inr .stackFault => (0xb, 0xb)
  | .inr .generalProtection => (0xd, 0xd)
  | .inr .pageFault => (0xe, 0xe)
  | .inl .reserved15 => (0xf, 0xa)
  | .inl .fpuError => (0x10, 0x10)
  | .inr .alignmentCheck => (0x11, 0x11)
  | .inl .machineCheck => (0x12, 0x12)
  | .inl .simdError => (0x13, 0x13)

def Vec.counted : Vec → Bool
  | .inl _ => false
  | .inr vector => vector.counted

/-- Handlers of exceptions with an error code pop it. -/
def Vec.pops : Vec → Bool
  | .inl _ => false
  | .inr _ => true

/-- The instructions of `int_handler_0` to `int_handler_19`. -/
def Vec.code (v : Vec) : List Ins := handlerCode v.counted v.pops v.stored.1 v.stored.2

def Vec.handler : Vec → Handler
  | .inl vector => vector.handler
  | .inr vector => vector.handler

theorem Vec.handler_eq (v : Vec)
    : v.handler = handlerOf v.counted v.pops v.stored.1 v.stored.2 := by
  rcases v with vector | vector <;> cases vector <;> rfl

theorem Vec.exec_code (v : Vec) (c : Cpu) (ready : c.eip = 0 ∨ c.eip = resumeAt v.counted v.pops)
    (paging : c.kernel.pg = c.cr0.getLsbD 31)
    : exec v.code 16 c
      = (v.handler (c.stack c.esp) c.kernel).map (c.returned v.counted v.pops) := by
  rw [Vec.handler_eq]
  exact exec_handlerCode v.counted v.pops v.stored.1 v.stored.2 c ready paging

def Exception.vector : Exception → Vec
  | .plain vector => .inl vector
  | .coded vector _ => .inr vector

def Exception.code? : Exception → Option Word
  | .plain _ => none
  | .coded _ code => some code

/-- The registers that a task keeps while it is not running. -/
structure Task where
  eax : Word
  zf : Bool
  esp : Word
  eip : Nat

structure World where
  mem : Nat → Word
  stack : Word → Word
  tasks : Vec → Task

/-- An exception, the values of CR0 and EIP when it is raised, and what the interrupted program
did to memory since the exception before. The program does not touch the budget.
-/
structure Delivery where
  exception : Exception
  cr0 : Word
  eip : Word
  program : (Nat → Word) → Nat → Word
  keeps : ∀ mem, program mem 0x280000 = mem 0x280000

def Delivery.vector (d : Delivery) : Vec := d.exception.vector

def Delivery.pg (d : Delivery) : Bool := d.cr0.getLsbD 31

/-- The task switch to a handler; an error code is pushed on the handler's stack. -/
def World.enter (w : World) (d : Delivery) : Cpu :=
  let task := w.tasks d.vector
  let kernel : KernelState := ⟨d.program w.mem, d.pg, d.eip⟩
  match d.exception.code? with
  | none => ⟨kernel, d.cr0, w.stack, task.eax, task.zf, task.esp, task.eip⟩
  | some code =>
    ⟨kernel, d.cr0, Function.update w.stack (task.esp - 4) code, task.eax, task.zf,
      task.esp - 4, task.eip⟩

/-- The task switch back; the second component is where the interrupted task goes on. -/
def World.leave (w : World) (v : Vec) (c : Cpu) : World × Word :=
  (⟨c.kernel.mem, c.stack, Function.update w.tasks v ⟨c.eax, c.zf, c.esp, c.eip⟩⟩, c.kernel.tss0Eip)

theorem World.leave_self (w : World) (v : Vec) (c : Cpu)
    : (w.leave v c).1.tasks v = ⟨c.eax, c.zf, c.esp, c.eip⟩ :=
  Function.update_self v _ w.tasks

theorem World.leave_other (w : World) {v other : Vec} (ne : other ≠ v) (c : Cpu)
    : (w.leave v c).1.tasks other = w.tasks other :=
  Function.update_of_ne ne _ w.tasks

def World.deliver (w : World) (d : Delivery) : Option (World × Word) :=
  (exec d.vector.code 16 (w.enter d)).map (w.leave d.vector)

end FastPokeEmu.Kernel
