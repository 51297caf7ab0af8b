import FastPokeEmu.Kernel.HandlerCode

/-! Sequences of exceptions: what the handlers record, and where the interrupted task goes on.
All handlers keep their stacks balanced and return to the return point. Two of them record the
vector of another exception.
-/

namespace FastPokeEmu.Kernel

/-- The return point as a handler addresses it. -/
def retpAt (pg : Bool) : Nat := if pg then 0x128d008 else 0x28d008

def edataAt (pg : Bool) : Nat := retpAt pg + 4

/-- A task that is resumed goes on with the first instruction of its handler. -/
def World.Ready (w : World) : Prop :=
  ∀ v, (w.tasks v).eip = 0 ∨ (w.tasks v).eip = resumeAt v.counted v.pops

/-- The two branches of a handler store the same vector. -/
def BranchesAgree (code : List Ins) : Prop :=
  ∀ vector vectorPg,
    Ins.movl vector (edataAt false + 4) ∈ code
    → Ins.movl vectorPg (edataAt true + 4) ∈ code
    → vector = vectorPg

/-- An exception has been handled as it should be. -/
structure Recorded (w : World) (d : Delivery) (w' : World) (eip : Word) : Prop where
  vector : w'.mem (physical d.pg (edataAt d.pg + 4)) = d.vector.number
  code
    : ∀ code,
        d.exception.code? = some code → w'.mem (physical d.pg (edataAt d.pg)) = code
  esp : (w'.tasks d.vector).esp = (w.tasks d.vector).esp
  resumed : eip = d.program w.mem (physical d.pg (retpAt d.pg))
  branches : BranchesAgree d.vector.code

/-- All exceptions of a sequence are handled, one after the other. -/
def AllRecorded : World → List Delivery → Prop
  | _, [] => True
  | w, d :: rest =>
    ∃ w' eip, w.deliver d = some (w', eip) ∧ Recorded w d w' eip ∧ AllRecorded w' rest

/-- What a handler leaves behind if it does not halt. -/
structure Leaves (pops counted : Bool) (word top : Word) (s k : KernelState) : Prop where
  vector : k.mem (physical s.pg (edataAt s.pg + 4)) = word
  code : pops = true → k.mem (physical s.pg (edataAt s.pg)) = top
  resumed : k.tss0Eip = s.mem (physical s.pg (retpAt s.pg))
  budget : (k.mem 0x280000).toNat = (s.mem 0x280000).toNat - (if counted then 1 else 0)

theorem recordVector_leaves (pops : Bool) (vector vectorPg top : Word) (s : KernelState)
    : ∃ k,
        recordVector pops vector vectorPg top s = some k
        ∧ Leaves pops false (if s.pg then vectorPg else vector) top s k := by
  obtain ⟨mem, pg, eip⟩ := s
  refine ⟨_, recordVector_eq pops vector vectorPg top _, ?_⟩
  cases pg <;> cases pops <;> constructor <;>
    simp [recordAt, KernelState.store, KernelState.load, physical, edataAt, retpAt]

theorem handlerOf_leaves (counted pops : Bool) (vector vectorPg top : Word) (s : KernelState)
    (budget : counted = true → 1 < (s.mem 0x280000).toNat)
    : ∃ k,
        handlerOf counted pops vector vectorPg top s = some k
        ∧ Leaves pops counted (if s.pg then vectorPg else vector) top s k := by
  cases counted with
  | false => exact recordVector_leaves pops vector vectorPg top s
  | true =>
    have cell : physical s.pg 0x280000 = 0x280000 := by cases s.pg <;> rfl
    have retp : physical s.pg (retpAt s.pg) ≠ 0x280000 := by cases s.pg <;> decide
    have more := budget rfl
    have nonzero : s.mem 0x280000 - 1 ≠ 0 := by bv_omega
    -- the budget is spent before anything is recorded
    obtain ⟨k, runs, leaves⟩ := recordVector_leaves pops vector vectorPg top
      (s.store 0x280000 (s.mem 0x280000 - 1))
    refine ⟨k, ?_, leaves.vector, leaves.code, ?_, ?_⟩
    · rw [← runs, handlerOf, if_pos rfl, countdown]
      simp only [KernelState.store, KernelState.load, cell, if_true, if_neg nonzero]
    · rw [leaves.resumed]
      simp only [KernelState.store, cell, if_neg retp]
    · rw [leaves.budget]
      simp only [KernelState.store, cell, if_true, Bool.false_eq_true, if_false]
      bv_omega

/-- Everything about an exception except what its handler stores as the vector. -/
structure Handled (w : World) (d : Delivery) (w' : World) (eip : Word) : Prop where
  vector
    : w'.mem (physical d.pg (edataAt d.pg + 4))
      = if d.pg then d.vector.stored.2 else d.vector.stored.1
  code
    : ∀ code,
        d.exception.code? = some code → w'.mem (physical d.pg (edataAt d.pg)) = code
  esp : (w'.tasks d.vector).esp = (w.tasks d.vector).esp
  resumed : eip = d.program w.mem (physical d.pg (retpAt d.pg))
  ready : w.Ready → w'.Ready
  budget
    : (w'.mem 0x280000).toNat = (w.mem 0x280000).toNat - (if d.vector.counted then 1 else 0)

theorem enter_eip (w : World) (d : Delivery) : (w.enter d).eip = (w.tasks d.vector).eip := by
  rw [World.enter]
  cases d.exception.code? <;> rfl

theorem enter_kernel (w : World) (d : Delivery)
    : (w.enter d).kernel = ⟨d.program w.mem, d.pg, d.eip⟩ ∧ (w.enter d).cr0 = d.cr0 := by
  rw [World.enter]
  cases d.exception.code? <;> exact ⟨rfl, rfl⟩

/-- The handler finds the error code on top of its stack, and pops it. -/
theorem enter_stack (w : World) (d : Delivery)
    : (∀ code, d.exception.code? = some code → (w.enter d).stack (w.enter d).esp = code)
      ∧ (if d.vector.pops then (w.enter d).esp + 4 else (w.enter d).esp)
        = (w.tasks d.vector).esp := by
  obtain ⟨exception, cr0, eip, program, keeps⟩ := d
  cases exception with
  | plain vector =>
    refine ⟨fun code none => ?_, rfl⟩
    cases none
  | coded vector code =>
    refine ⟨fun other same => ?_, ?_⟩
    · cases same
      exact Function.update_self _ _ _
    · exact BitVec.sub_add_cancel _ _

/-- Every exception is handled while the budget lasts. -/
theorem deliver_handled {w : World} (ready : w.Ready) (d : Delivery)
    (budget : d.vector.counted = true → 1 < (w.mem 0x280000).toNat)
    : ∃ w' eip, w.deliver d = some (w', eip) ∧ Handled w d w' eip := by
  obtain ⟨kernel, cr0⟩ := enter_kernel w d
  obtain ⟨top, balanced⟩ := enter_stack w d
  have position := enter_eip w d ▸ ready d.vector
  have paging : (w.enter d).kernel.pg = (w.enter d).cr0.getLsbD 31 := by
    rw [kernel, cr0]
    rfl
  have enough : d.vector.counted = true → 1 < ((w.enter d).kernel.mem 0x280000).toNat := by
    intro counted
    have kept : (w.enter d).kernel.mem 0x280000 = w.mem 0x280000 := by
      rw [kernel]
      exact d.keeps w.mem
    rw [kept]
    exact budget counted
  have runs := d.vector.exec_code (w.enter d) position paging
  obtain ⟨k, handled, leaves⟩ := handlerOf_leaves d.vector.counted d.vector.pops
    d.vector.stored.1 d.vector.stored.2 ((w.enter d).stack (w.enter d).esp) (w.enter d).kernel
    enough
  rw [Vec.handler_eq, handled, Option.map_some] at runs
  rw [kernel] at leaves
  generalize returned : (w.enter d).returned d.vector.counted d.vector.pops k = c at runs
  have delivered : w.deliver d = some (w.leave d.vector c) := by
    rw [World.deliver, runs]
    rfl
  refine ⟨(w.leave d.vector c).1, (w.leave d.vector c).2, delivered, ?_⟩
  subst returned
  constructor
  · exact leaves.vector
  · intro code same
    have pops : d.vector.pops = true := by
      obtain ⟨exception, cr0, eip, program, keeps⟩ := d
      cases exception with
      | plain vector => cases same
      | coded vector code => rfl
    rw [← top code same]
    exact leaves.code pops
  · rw [World.leave_self]
    exact balanced
  · exact leaves.resumed
  · intro ready v
    by_cases same : v = d.vector
    · rw [same, World.leave_self]
      exact .inr rfl
    · rw [World.leave_other w same]
      exact ready v
  · rw [← d.keeps w.mem]
    exact leaves.budget

theorem Vec.stored_iff (v : Vec) (pg : Bool)
    : ((if pg then v.stored.2 else v.stored.1) = v.number ∧ v.stored.1 = v.stored.2)
      ↔ v ≠ .inr .stackFault ∧ v ≠ .inl .reserved15 := by
  rcases v with vector | vector <;> cases vector <;> cases pg <;> decide

theorem movl_mem_handlerCode_iff {counted pops : Bool} {vector vectorPg word : Word} {addr : Nat}
    : Ins.movl word addr ∈ handlerCode counted pops vector vectorPg
      ↔ (word = vector ∧ addr = 0x28d010) ∨ (word = vectorPg ∧ addr = 0x128d010) := by
  cases counted <;> cases pops <;> simp [handlerCode, branch]

theorem branchesAgree_iff (v : Vec) : BranchesAgree v.code ↔ v.stored.1 = v.stored.2 := by
  constructor
  · intro agree
    exact agree _ _ (movl_mem_handlerCode_iff.mpr (.inl ⟨rfl, rfl⟩))
      (movl_mem_handlerCode_iff.mpr (.inr ⟨rfl, rfl⟩))
  · intro same vector vectorPg first second
    rcases movl_mem_handlerCode_iff.mp first with ⟨off, _⟩ | ⟨_, wrong⟩
    · rcases movl_mem_handlerCode_iff.mp second with ⟨_, wrong⟩ | ⟨on, _⟩
      · cases wrong
      · rw [off, on, same]
    · cases wrong

theorem recorded_iff {w w' : World} {d : Delivery} {eip : Word} (handled : Handled w d w' eip)
    : Recorded w d w' eip ↔ d.vector ≠ .inr .stackFault ∧ d.vector ≠ .inl .reserved15 := by
  rw [← Vec.stored_iff d.vector d.pg, ← branchesAgree_iff, ← handled.vector]
  constructor
  · exact fun recorded => ⟨recorded.vector, recorded.branches⟩
  · exact fun right => ⟨right.1, handled.code, handled.esp, handled.resumed, right.2⟩

/-- For every finite sequence of exceptions with less than ten of the counted ones, every value of
CR0 at each of them, and handler tasks that start at their first instructions: all exceptions are
recorded, and the interrupted task is resumed, as expected, exactly if no stack fault and no
exception 15 is among them.
-/
theorem handlers_record_iff {w : World} (ready : w.Ready) (start : w.mem 0x280000 = startBudget)
    (ds : List Delivery)
    (few : ds.countP (fun d => d.vector.counted) < 10)
    : AllRecorded w ds ↔ ∀ d ∈ ds, d.vector ≠ .inr .stackFault ∧ d.vector ≠ .inl .reserved15 := by
  have general (ds : List Delivery) {w : World} (ready : w.Ready)
      (few : ds.countP (fun d => d.vector.counted) < (w.mem 0x280000).toNat)
      : AllRecorded w ds ↔ ∀ d ∈ ds, d.vector ≠ .inr .stackFault ∧ d.vector ≠ .inl .reserved15 := by
    induction ds generalizing w with
    | nil => exact ⟨fun _ => List.forall_mem_nil _, fun _ => trivial⟩
    | cons d rest ih =>
      rw [List.countP_cons] at few
      obtain ⟨w', eip, delivered, handled⟩ := deliver_handled ready d (by
        intro counted
        rw [if_pos counted] at few
        omega)
      have later := ih (handled.ready ready) (by
        rw [handled.budget]
        omega)
      rw [List.forall_mem_cons, ← recorded_iff handled, ← later]
      constructor
      · intro all
        obtain ⟨w2, eip2, delivered2, recorded, rest⟩ := all
        cases delivered.symm.trans delivered2
        exact ⟨recorded, rest⟩
      · exact fun both => ⟨w', eip, delivered, both.1, both.2⟩
  apply general ds ready
  rw [start]
  exact few

/-- A general protection fault with paging on, and a division by zero with paging off. -/
def twoFaults : List Delivery :=
  [⟨.coded .generalProtection 0x50, 0x80000001, 0x1000, id, fun _ => rfl⟩,
    ⟨.plain .divideError, 0x1, 0x2000, id, fun _ => rfl⟩]

/-- Handler tasks before the first exception. -/
def freshWorld : World := ⟨fun _ => startBudget, fun _ => 0, fun _ => ⟨0, false, 0x1000, 0⟩⟩

theorem handlers_record_iff_twoFaults : AllRecorded freshWorld twoFaults :=
  (handlers_record_iff (fun _ => .inl rfl) rfl twoFaults (by decide)).mpr (by decide)

/-- A stack fault is recorded as vector 11, and the handler of exception 15 stores 10 with paging
on.
-/
theorem handlers_record_other_vectors
    : (freshWorld.deliver
          ⟨.coded .stackFault 0, 0x1, 0x1000, id, fun _ => rfl⟩).map
          (fun result => result.1.mem (edataAt false + 4))
        = some 11
      ∧ (freshWorld.deliver
          ⟨.plain .reserved15, 0x80000001, 0x1000, id, fun _ => rfl⟩).map
          (fun result => result.1.mem (physical true (edataAt true + 4)))
        = some 10 := by
  decide +kernel

end FastPokeEmu.Kernel
