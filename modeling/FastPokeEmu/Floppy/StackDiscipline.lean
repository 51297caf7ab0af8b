import FastPokeEmu.Floppy.Recording

/-! Code that uses the stack and leaves it as it was. Gadgets push and pop around their code;
the stack pointer and the words that were on the stack survive balanced code.
-/

namespace FastPokeEmu.Floppy

open ByteMemory List Function
open BitVec (ofNat)

variable {depth : Nat} {i : Ins} {is : List Ins}

/-- Instructions that push, pop, or leave the stack alone. -/
inductive StackMove
  | push | pop | keep
  deriving DecidableEq, Repr

def Ins.stack : Ins → StackMove
  | .push _ | .pushImm _ | .pushMem _ | .pushf | .callNext _ => .push
  | .pop _ | .popMem _ | .popf | .ret => .pop
  | _ => .keep

/-- Every pop has its push, from a given depth on, and nothing else moves ESP. -/
def balanced : Nat → List Ins → Bool
  | depth, [] => depth == 0
  | depth, i :: rest =>
    match i.stack, depth with
    | .push, depth => balanced (depth + 1) rest
    | .pop, depth + 1 => i != .pop .esp && balanced depth rest
    | .keep, depth => decide (.esp ∉ i.gprs) && balanced depth rest
    | .pop, 0 => false

namespace Cpu

variable {cpu : Cpu} {s : St}

theorem exec_esp_push (move : i.stack = .push) : (cpu.exec s i).gpr .esp = s.gpr .esp - 4 := by
  have pushes (value : Word) : (cpu.pushWord s value).gpr .esp = s.gpr .esp - 4 := by
    simp only [pushWord, update_self]
  cases i with
  | push | pushImm | pushMem | pushf | callNext => exact pushes _
  | _ => cases move

theorem exec_esp_pop (move : i.stack = .pop) (other : i ≠ .pop .esp)
    : (cpu.exec s i).gpr .esp = s.gpr .esp + 4 := by
  have drops : (drop s).gpr .esp = s.gpr .esp + 4 := by
    simp only [drop, St.setGpr, update_self]
  cases i with
  | pop r =>
    have ne : .esp ≠ r := fun same => other (congrArg Ins.pop same.symm)
    exact (update_of_ne ne _ _).trans drops
  | popMem m => exact drops
  | popf => exact drops
  | ret => exact drops
  | _ => cases move

theorem footprint_push (move : i.stack = .push) : cpu.footprint s i = cpu.slot s := by
  cases i with
  | push | pushImm | pushMem | pushf | callNext => rfl
  | _ => cases move

theorem balanced_cons {rest : List Ins} (even : balanced depth (i :: rest) = true)
    : (i.stack = .push ∧ balanced (depth + 1) rest = true)
      ∨ (i.stack = .pop ∧ i ≠ .pop .esp ∧ ∃ below, depth = below + 1 ∧ balanced below rest = true)
      ∨ (.esp ∉ i.gprs ∧ balanced depth rest = true) := by
  rw [balanced.eq_def] at even
  simp only at even
  split at even
  · exact .inl ⟨‹_›, even⟩
  · obtain ⟨other, even⟩ := Bool.and_eq_true_iff.mp even
    exact .inr (.inl ⟨‹_›, by simpa using other, _, rfl, even⟩)
  · obtain ⟨quiet, even⟩ := Bool.and_eq_true_iff.mp even
    exact .inr (.inr ⟨of_decide_eq_true quiet, even⟩)
  · cases even

theorem foldl_exec_esp (even : balanced depth is = true)
    : (is.foldl cpu.exec s).gpr .esp = s.gpr .esp + ofNat 32 (4 * depth) := by
  induction is generalizing depth s with
  | nil =>
    obtain rfl : depth = 0 := by simpa [balanced] using even
    simp
  | cons i rest ih =>
    rw [foldl_cons]
    rcases balanced_cons even with ⟨move, later⟩ | ⟨move, other, below, rfl, later⟩
      | ⟨quiet, later⟩
    · rw [ih later, exec_esp_push move]
      bv_omega
    · rw [ih later, exec_esp_pop move other]
      bv_omega
    · rw [ih later, cpu.exec_gpr quiet]

theorem slot_below {τ : Translation} (tr : cpu.tr s = τ) {base : Word}
    (esp : s.gpr .esp = base - ofNat 32 (4 * depth)) (shallow : depth < 100) {i : Nat}
    (small : i < 8)
    : τ .ss (base + ofNat 32 i) ∉ cpu.slot s := by
  intro mem
  obtain ⟨j, less, same⟩ := (cpu.mem_slot).mp mem
  have start : base + ofNat 32 i = s.gpr .esp - 4 + ofNat 32 (4 * depth + 4 + i) := by
    rw [esp]
    bv_omega
  rw [start, ← tr] at same
  have equal := cpu.near s.base s.cr s.mem .ss _ j (4 * depth + 4 + i) (by omega) (by omega) same
  omega

/-- Balanced code keeps the words that were on the stack, if its stores do. -/
theorem foldl_exec_stack {τ : Translation} {base : Word} (even : balanced depth is = true)
    (shallow : depth + is.length < 100) (esp : s.gpr .esp = base - ofNat 32 (4 * depth))
    (tr : ∀ step ∈ cpu.insSteps s is, cpu.tr step.1 = τ)
    (away : ∀ step ∈ cpu.insSteps s is, step.2.stack ≠ .push
      → ∀ i < 8, τ .ss (base + ofNat 32 i) ∉ cpu.footprint step.1 step.2)
    : ∀ i < 8, (is.foldl cpu.exec s).mem (τ .ss (base + ofNat 32 i))
        = s.mem (τ .ss (base + ofNat 32 i)) := by
  induction is generalizing depth s with
  | nil => exact fun _ _ => rfl
  | cons x rest ih =>
    intro i small
    have trTail : ∀ step ∈ cpu.insSteps (cpu.exec s x) rest, cpu.tr step.1 = τ :=
      fun step mem => tr step (mem_cons_of_mem _ mem)
    have awayTail : ∀ step ∈ cpu.insSteps (cpu.exec s x) rest, step.2.stack ≠ .push
        → ∀ i < 8, τ .ss (base + ofNat 32 i) ∉ cpu.footprint step.1 step.2 :=
      fun step mem => away step (mem_cons_of_mem _ mem)
    have here : (cpu.exec s x).mem (τ .ss (base + ofNat 32 i))
        = s.mem (τ .ss (base + ofNat 32 i)) := by
      apply cpu.exec_mem
      by_cases move : x.stack = .push
      · rw [footprint_push move]
        exact slot_below (tr (s, x) mem_cons_self) esp (by omega) small
      · exact away (s, x) mem_cons_self move i small
    rw [length_cons] at shallow
    rw [foldl_cons, ← here]
    rcases balanced_cons even with ⟨move, later⟩ | ⟨move, other, below, rfl, later⟩
      | ⟨quiet, later⟩
    · refine ih later (by omega) ?_ trTail awayTail i small
      rw [exec_esp_push move, esp]
      bv_omega
    · refine ih later (by omega) ?_ trTail awayTail i small
      rw [exec_esp_pop move other, esp]
      bv_omega
    · exact ih later (by omega) ((cpu.exec_gpr quiet).trans esp) trTail awayTail i small

end Cpu

/-- Balanced code without jumps that names registers of a list, and the stack pointer. -/
def Straight (names : List Gpr) (code : List Asm) : Prop :=
  ∃ is : List Ins, code = is.map .ins ∧ balanced 0 is = true
    ∧ is.Forall (fun i => i.gprs ⊆ .esp :: names)

theorem balanced_append {is js : List Ins} (even : balanced depth is = true)
    (even' : balanced 0 js = true)
    : balanced depth (is ++ js) = true := by
  induction is generalizing depth with
  | nil =>
    obtain rfl : depth = 0 := by simpa [balanced] using even
    exact even'
  | cons i rest ih =>
    rw [cons_append]
    rw [balanced.eq_def] at even ⊢
    simp only at even ⊢
    split at even
    · exact ih even
    · obtain ⟨other, even⟩ := Bool.and_eq_true_iff.mp even
      exact Bool.and_eq_true_iff.mpr ⟨other, ih even⟩
    · obtain ⟨quiet, even⟩ := Bool.and_eq_true_iff.mp even
      exact Bool.and_eq_true_iff.mpr ⟨quiet, ih even⟩
    · cases even

theorem Straight.append {names : List Gpr} {left right : List Asm} (first : Straight names left)
    (second : Straight names right)
    : Straight names (left ++ right) := by
  obtain ⟨is, rfl, even, named⟩ := first
  obtain ⟨js, rfl, even', named'⟩ := second
  exact ⟨is ++ js, (map_append ..).symm, balanced_append even even',
    forall_append.mpr ⟨named, named'⟩⟩

theorem Straight.mono {names names' : List Gpr} {code : List Asm} (straight : Straight names code)
    (more : names ⊆ names')
    : Straight names' code := by
  obtain ⟨is, shape, even, named⟩ := straight
  refine ⟨is, shape, even, named.imp fun i subset => ?_⟩
  exact List.Subset.trans subset (cons_subset_cons _ more)

theorem Straight.one {names : List Gpr} (keep : i.stack = .keep) (quiet : .esp ∉ i.gprs)
    (named : i.gprs ⊆ names)
    : Straight names [.ins i] := by
  refine ⟨[i], rfl, by simp [balanced, keep, quiet], ?_⟩
  exact List.Subset.trans named (subset_cons_self _ _)

theorem Straight.silent (keep : i.stack = .keep) (writes : i.gprs = []) : Straight [] [.ins i] :=
  .one keep (writes ▸ not_mem_nil) (writes ▸ List.Subset.refl _)

theorem straight_pushf (m : MemOp) : Straight [] [.ins .pushf, .ins (.popMem m)] :=
  ⟨[.pushf, .popMem m], rfl, rfl, List.Subset.refl _, List.Subset.refl _⟩

theorem straight_getEip {r : Gpr} (other : r ≠ .esp) : Straight [r] (genGetEip r) := by
  refine ⟨[.callNext 0, .load .stackTop ⟨r, .full⟩, .ret], rfl, ?_, ?_⟩
  · cases r <;> first | rfl | exact (other rfl).elim
  · have stack : [Gpr.esp] ⊆ [.esp, r] :=
      cons_subset.mpr ⟨mem_cons_self, nil_subset _⟩
    exact ⟨stack, subset_cons_self _ _, stack⟩

/-- Address translation stays the same, and stores do not hit the two words below the top of
the stack, where gadgets save registers.
-/
structure Undisturbed (cpu : Cpu) (s : St) (code : List Asm) : Prop where
  tr : ∀ step ∈ cpu.steps s code, cpu.tr step.1 = cpu.tr s
  saved : ∀ step ∈ cpu.steps s code, step.2.stack ≠ .push
    → ∀ i < 8, cpu.tr s .ss (s.gpr .esp - 8 + ofNat 32 i)
        ∉ cpu.footprint step.1 step.2

/-- A family without words. -/
def noWords : Words Empty Word := ⟨nofun, nofun⟩

namespace Undisturbed

variable {cpu : Cpu} {s : St}

theorem steps_ins (is : List Ins) : cpu.steps s (is.map .ins) = cpu.insSteps s is := by
  induction is generalizing s with
  | nil => rfl
  | cons i rest ih => exact congrArg (List.cons (s, i)) ih

/-- Code that saves EAX and ECX around balanced code gives back both registers and the stack
pointer; other registers are those of the code.
-/
theorem run_saved (even : balanced 0 is = true) (short : is.length < 100)
    (undisturbed : Undisturbed cpu s ([.ins (.push .eax), .ins (.push .ecx)] ++ is.map .ins
      ++ [.ins (.pop .ecx), .ins (.pop .eax)]))
    (r : Gpr)
    : (cpu.run s ([.ins (.push .eax), .ins (.push .ecx)] ++ is.map .ins
          ++ [.ins (.pop .ecx), .ins (.pop .eax)])).gpr r ≠ s.gpr r
      → (r ≠ .eax ∧ r ≠ .ecx ∧ r ≠ .esp) ∧ ∃ i ∈ is, r ∈ i.gprs := by
  have shape : [Asm.ins (.push .eax), .ins (.push .ecx)] ++ is.map .ins
      ++ [.ins (.pop .ecx), .ins (.pop .eax)]
      = .ins (.push .eax) :: ((.ins (.push .ecx) :: (is.map .ins ++ [.ins (.pop .ecx)]))
        ++ [.ins (.pop .eax)]) := by simp
  rw [shape] at undisturbed ⊢
  have safe : cpu.SafeRun noWords (cpu.tr s) s (.ins (.push .eax)
      :: ((.ins (.push .ecx) :: (is.map .ins ++ [.ins (.pop .ecx)])) ++ [.ins (.pop .eax)])) :=
    fun step mem => ⟨undisturbed.tr step mem, fun _ _ => nofun⟩
  let once := cpu.pushWord s (s.gpr .eax)
  let inner := cpu.pushWord once (s.gpr .ecx)
  have ecx : once.gpr .ecx = s.gpr .ecx :=
    cpu.exec_gpr (i := .push .eax) (by decide : .ecx ∉ [Gpr.esp])
  have base : inner.gpr .esp = s.gpr .esp - 8 := by
    have first : once.gpr .esp = s.gpr .esp - 4 := Cpu.exec_esp_push (i := .push .eax) rfl
    have second : inner.gpr .esp = once.gpr .esp - 4 :=
      Cpu.exec_esp_push (s := once) (i := .pushImm (s.gpr .ecx)) rfl
    rw [second, first]
    bv_omega
  -- The steps of the code in between are steps of the whole.
  have within {step : St × Ins} (mem : step ∈ cpu.insSteps inner is)
      : step ∈ cpu.steps s (.ins (.push .eax)
        :: ((.ins (.push .ecx) :: (is.map .ins ++ [.ins (.pop .ecx)])) ++ [.ins (.pop .eax)])) := by
    apply mem_append_right
    rw [Cpu.steps_append]
    apply mem_append_left
    apply mem_append_right
    rw [Cpu.steps_append]
    apply mem_append_left
    have entered : cpu.execAsm (cpu.execAsm s (.ins (.push .eax))) (.ins (.push .ecx)) = inner :=
      congrArg (cpu.pushWord once) ecx
    rw [entered, steps_ins]
    exact mem
  have esp : (is.foldl cpu.exec inner).gpr .esp = inner.gpr .esp := by
    rw [Cpu.foldl_exec_esp even]
    exact BitVec.add_zero _
  have kept : ∀ i < 8, (is.foldl cpu.exec inner).mem
        (cpu.tr s .ss (inner.gpr .esp + ofNat 32 i))
      = inner.mem (cpu.tr s .ss (inner.gpr .esp + ofNat 32 i)) := by
    refine Cpu.foldl_exec_stack even (by omega) (BitVec.sub_zero _).symm
      (fun step mem => undisturbed.tr step (within mem)) (fun step mem move => ?_)
    rw [base]
    exact undisturbed.saved step (within mem) move
  rw [Cpu.run_saved safe rfl (rfl : _ = inner) (cpu.run_ins inner is) esp kept]
  intro changed
  by_cases restored : r = .eax ∨ r = .ecx ∨ r = .esp
  · exact (changed (if_pos restored)).elim
  · have ne : (is.foldl cpu.exec inner).gpr r ≠ s.gpr r := fun same =>
      changed ((if_neg restored).trans same)
    have apart : r ≠ .eax ∧ r ≠ .ecx ∧ r ≠ .esp := by simpa [not_or] using restored
    refine ⟨apart, ?_⟩
    by_contra unnamed
    apply ne
    have quiet : ∀ i ∈ Cpu.instructions (is.map .ins), r ∉ i.gprs :=
      Cpu.forall_instructions is (forall_iff_forall_mem.mpr fun i mem named =>
        unnamed ⟨i, mem, named⟩) rfl
    have same := cpu.run_gpr (s := inner) quiet
    rw [cpu.run_ins] at same
    refine same.trans ?_
    have first : once.gpr r = s.gpr r := update_of_ne apart.2.2 _ _
    exact (update_of_ne apart.2.2 _ _ : inner.gpr r = once.gpr r).trans first

end Undisturbed

end FastPokeEmu.Floppy
