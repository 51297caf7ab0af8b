import Mathlib.Data.List.Basic
import FastPokeEmu.Floppy.Machine

/-! What an instruction can change, and what therefore survives a run.
Properties of runs are stated over the executed steps: pairs of an instruction and the
state it starts in.
-/

namespace FastPokeEmu.Floppy

open ByteMemory List

/-- General purpose registers an instruction may change. -/
def Ins.gprs : Ins → List Gpr
  | .load _ r | .aluMem _ _ r | .aluReg _ _ r => [r.reg]
  | .xgetbv => [.eax, .edx]
  | .movImm _ r | .movSegReg _ r | .aluImm _ _ r | .movFromCr _ r | .movFromDr _ r
  | .lea _ r => [r]
  | .movImmAx _ => [.eax]
  | .push _ | .pushImm _ | .pushMem _ | .popMem _ | .pushf | .popf | .callNext _ | .ret => [.esp]
  | .pop r => [.esp, r]
  | _ => []

namespace Cpu

variable (cpu : Cpu) {a : Word} {s : St} {code : List Asm}

/-- Physical addresses of the first bytes of an operand. -/
def places (s : St) (m : MemOp) (n : Nat) : List Word := (List.range n).map (cpu.place s m)

/-- Physical addresses of the slot that the next push fills. -/
def slot (s : St) : List Word := (List.range 4).map (cpu.slotPlace s)

/-- Physical addresses an instruction may write. -/
def footprint (s : St) : Ins → List Word
  | .store r m => cpu.places s m r.part.bytes
  | .storeSeg _ m => cpu.places s m 2
  | .storeExt n _ m => cpu.places s m n
  | .fstpt m => cpu.places s m 10
  | .movlImm _ m | .andlMem _ m | .movlLabel _ m => cpu.places s m 4
  | .movbImm _ m => cpu.places s m 1
  | .push _ | .pushImm _ | .pushMem _ | .pushf | .callNext _ => cpu.slot s
  | .popMem m => cpu.places (drop s) m 4
  | _ => []

theorem mem_places {m : MemOp} {n : Nat} : a ∈ cpu.places s m n ↔ ∃ i < n, cpu.place s m i = a := by
  simp [places]

theorem mem_slot : a ∈ cpu.slot s ↔ ∃ i < 4, cpu.slotPlace s i = a := by
  simp [slot]

theorem put_mem_of_notMem {w : Nat} {m : MemOp} (value : BitVec w) {n : Nat}
    (away : a ∉ cpu.places s m n)
    : (cpu.put s m value n).mem a = s.mem a :=
  write_other s.mem value (fun i small same =>
    away (cpu.mem_places.mpr ⟨i, small, same.symm⟩))

theorem pushWord_mem_of_notMem (value : Word) (away : a ∉ cpu.slot s)
    : (cpu.pushWord s value).mem a = s.mem a :=
  write_other s.mem value (fun i small same =>
    away (cpu.mem_slot.mpr ⟨i, small, same.symm⟩))

theorem exec_mem {i : Ins} (away : a ∉ cpu.footprint s i) : (cpu.exec s i).mem a = s.mem a := by
  cases i with
  | store | storeSeg | storeExt | movlImm | movbImm | movlLabel =>
    exact cpu.put_mem_of_notMem _ away
  | fstpt m => exact cpu.put_mem_of_notMem (s.ext (.st 0)) away
  | andlMem value m => exact cpu.put_mem_of_notMem (cpu.word s m &&& value) away
  | push | pushImm | pushMem | pushf | callNext => exact cpu.pushWord_mem_of_notMem _ away
  | popMem m => exact cpu.put_mem_of_notMem (s := drop s) _ away
  | _ => rfl

theorem update_gpr_of_notMem {gpr : Gpr → Word} {r other : Gpr} {value : Word}
    (away : r ∉ [other])
    : Function.update gpr other value r = gpr r :=
  Function.update_of_ne (fun same => away (by simp [same])) _ _

/-- An instruction changes no general purpose register that it does not name. -/
theorem exec_gpr {i : Ins} {r : Gpr} (away : r ∉ i.gprs) : (cpu.exec s i).gpr r = s.gpr r := by
  cases i with
  | load | aluMem | aluReg | aluImm | movImm | movImmAx | movSegReg | movFromCr | movFromDr | lea
  | push | pushImm | pushMem | pushf | callNext | ret | popMem | popf =>
    exact update_gpr_of_notMem away
  | pop dst =>
    have notDst : r ∉ [dst] := fun mem => away (mem_cons_of_mem _ mem)
    have notEsp : r ∉ [Gpr.esp] := fun mem =>
      away (mem_append_left [dst] mem)
    exact (update_gpr_of_notMem notDst).trans (update_gpr_of_notMem notEsp)
  | xgetbv =>
    have notEdx : r ∉ [Gpr.edx] := fun mem => away (mem_cons_of_mem _ mem)
    have notEax : r ∉ [Gpr.eax] := fun mem =>
      away (mem_append_left [Gpr.edx] mem)
    exact (update_gpr_of_notMem notEdx).trans (update_gpr_of_notMem notEax)
  | _ => rfl

def insSteps (s : St) : List Ins → List (St × Ins)
  | [] => []
  | i :: rest => (s, i) :: insSteps (cpu.exec s i) rest

def asmSteps (s : St) : Asm → List (St × Ins)
  | .ins i => [(s, i)]
  | .jeOver body => if zf s.eflags then [] else cpu.insSteps s body

/-- The instructions that a run executes, each with the state it starts in. -/
def steps (s : St) : List Asm → List (St × Ins)
  | [] => []
  | a :: rest => cpu.asmSteps s a ++ steps (cpu.execAsm s a) rest

@[simp] theorem run_nil (s : St) : cpu.run s [] = s := rfl

@[simp] theorem run_cons (s : St) (a : Asm) (rest : List Asm)
    : cpu.run s (a :: rest) = cpu.run (cpu.execAsm s a) rest := rfl

theorem run_append (s : St) (left right : List Asm)
    : cpu.run s (left ++ right) = cpu.run (cpu.run s left) right :=
  foldl_append

theorem run_ins (s : St) (is : List Ins) : cpu.run s (is.map .ins) = is.foldl cpu.exec s :=
  foldl_map

theorem steps_append (s : St) (left right : List Asm)
    : cpu.steps s (left ++ right) = cpu.steps s left ++ cpu.steps (cpu.run s left) right := by
  induction left generalizing s with
  | nil => rfl
  | cons a rest ih => simp [steps, ih, append_assoc]

/-- A property that every executed instruction keeps holds at the end of the run.
Witness: induction on the code, and on the body of a conditional.
-/
theorem run_induction {P : St → Prop}
    (keeps : ∀ step ∈ cpu.steps s code, P step.1 → P (cpu.exec step.1 step.2)) (start : P s)
    : P (cpu.run s code) := by
  have body (is : List Ins) (s : St)
      (keeps : ∀ step ∈ cpu.insSteps s is, P step.1 → P (cpu.exec step.1 step.2))
      (start : P s)
      : P (is.foldl cpu.exec s) := by
    induction is generalizing s with
    | nil => exact start
    | cons i rest ih =>
      refine ih (cpu.exec s i) (fun step mem => keeps step ?_) (keeps (s, i) ?_ start)
      · exact mem_cons_of_mem _ mem
      · exact mem_cons_self
  induction code generalizing s with
  | nil => exact start
  | cons a rest ih =>
    refine ih (fun step mem => keeps step (mem_append_right _ mem)) ?_
    have here := fun step mem => keeps step (mem_append_left _ mem)
    cases a with
    | ins i => exact here (s, i) (by simp [asmSteps]) start
    | jeOver code =>
      by_cases equal : zf s.eflags = true
      · simpa [execAsm, equal] using start
      · have skipped : cpu.execAsm s (.jeOver code) = code.foldl cpu.exec s := by
          simp [execAsm, equal]
        rw [skipped]
        refine body code s (fun step mem => here step ?_) start
        simpa [asmSteps, equal] using mem

/-- Instructions of a piece of code, executed or not. -/
def instructions (code : List Asm) : List Ins :=
  code.flatMap fun a =>
    match a with
    | .ins i => [i]
    | .jeOver body => body

theorem forall_instructions {P : Ins → Prop} (is : List Ins) (each : List.Forall P is)
    {asm : List Asm} (made : is.map .ins = asm)
    : ∀ i ∈ instructions asm, P i := by
  have same : instructions asm = is := by
    rw [← made, instructions, flatMap_map]
    exact flatMap_singleton' is
  rw [same]
  exact forall_iff_forall_mem.mp each

theorem mem_instructions_of_steps {step : St × Ins} (mem : step ∈ cpu.steps s code)
    : step.2 ∈ instructions code := by
  have body (is : List Ins) (s : St) (mem : step ∈ cpu.insSteps s is)
      : step.2 ∈ is := by
    induction is generalizing s with
    | nil => cases mem
    | cons i rest ih =>
      rcases mem_cons.mp mem with rfl | later
      · exact mem_cons_self
      · exact mem_cons_of_mem _ (ih _ later)
  induction code generalizing s with
  | nil => cases mem
  | cons a rest ih =>
    simp only [instructions, flatMap_cons, mem_append]
    rcases mem_append.mp mem with here | later
    · left
      cases a with
      | ins i => simpa [asmSteps] using congrArg Prod.snd (mem_singleton.mp here)
      | jeOver code =>
        by_cases equal : zf s.eflags = true
        · simp [asmSteps, equal] at here
        · exact body code s (by simpa [asmSteps, equal] using here)
    · exact Or.inr (ih later)

theorem run_mem (away : ∀ step ∈ cpu.steps s code, a ∉ cpu.footprint step.1 step.2)
    : (cpu.run s code).mem a = s.mem a :=
  cpu.run_induction (P := fun s' => s'.mem a = s.mem a)
    (fun step mem same => (cpu.exec_mem (away step mem)).trans same) rfl

theorem run_gpr {r : Gpr} (away : ∀ i ∈ instructions code, r ∉ i.gprs)
    : (cpu.run s code).gpr r = s.gpr r :=
  cpu.run_induction (P := fun s' => s'.gpr r = s.gpr r)
    (fun step mem same =>
      (cpu.exec_gpr (away step.2 (cpu.mem_instructions_of_steps mem))).trans same) rfl

end Cpu

end FastPokeEmu.Floppy
