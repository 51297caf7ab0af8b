import FastPokeEmu.Floppy.Params
import FastPokeEmu.Floppy.ReturnPoints

/-! Faults return to a later phase, and all iterations end. The parameters of an iteration are
undone unless a gadget can fault before the return point left by the previous iteration has
been replaced.
-/

namespace FastPokeEmu.Floppy

open List

section

variable {ps : Phases} {loop : Word}

variable (run : FaultRun)

theorem FaultRun.state_inv (shape : ps.Shape loop) (positive : loop ≠ 0) (n : Nat)
    : Inv ps loop (run.state ps.program n) := by
  refine Runs.invariant ?_ (fun fault s inv => inv.step shape positive fault) n
  obtain ⟨as, lines, _⟩ := shape.startup
  refine ⟨suffix_rfl, ?_, fun x here => ?_⟩
  · exact Nat.pos_of_ne_zero (fun zero => positive (BitVec.eq_of_toNat_eq zero))
  · have first : ps.program.head? = some (.startup, .prologue loop .l3) := by
      simp [Phases.program, Phases.tagged, Phases.lines, lines]
    obtain rfl := Option.some.inj (first.symm.trans here)
    exact ⟨rfl, rfl⟩

section

variable {run} (shape : ps.Shape loop) (positive : loop ≠ 0)
include shape positive

/-- The run has ended, moves on within the iteration, or starts another one. -/
theorem FaultRun.advance (n : Nat)
    : ((run.state ps.program n).rest = [] ∧ run.state ps.program (n + 1) = run.state ps.program n)
      ∨ (Onward (run.state ps.program n) (run.state ps.program (n + 1))
        ∧ ((run.state ps.program n).stage < Phase.revert.index
          → (run.state ps.program (n + 1)).stage ≤ Phase.revert.index
            ∨ ((run.state ps.program n).turn ≠ 0 ∧ ¬ ps.Armed)))
      ∨ ((run.state ps.program (n + 1)).turn = (run.state ps.program n).turn + 1
        ∧ (run.state ps.program n).phase = some .loop
        ∧ (run.state ps.program (n + 1)).rest = Control.goto ps.program .ls
        ∧ (run.state ps.program (n + 1)).retp = .l5) := by
  by_cases ended : (run.state ps.program n).rest = []
  · refine .inl ⟨ended, ?_⟩
    show Control.step _ _ (run.state ps.program n) = _
    simp only [Control.step, ended]
  · exact .inr ((run.state_inv shape positive n).step_cases shape positive (run.faults n) ended)

theorem FaultRun.turn_le (n : Nat)
    : (run.state ps.program n).turn ≤ (run.state ps.program (n + 1)).turn := by
  rcases run.advance shape positive n with ⟨_, still⟩ | ⟨onward, _⟩ | ⟨turn, _⟩
  · rw [still]
  · exact Nat.le_of_eq onward.turn.symm
  · exact Nat.le_of_lt (Nat.lt_of_lt_of_eq (Nat.lt_succ_self _) turn.symm)

theorem FaultRun.stage_le (n : Nat)
    (same : (run.state ps.program (n + 1)).turn = (run.state ps.program n).turn)
    : (run.state ps.program n).stage ≤ (run.state ps.program (n + 1)).stage := by
  rcases run.advance shape positive n with ⟨_, still⟩ | ⟨onward, _⟩ | ⟨turn, _⟩
  · rw [still]
  · exact onward.rises
  · exact (Nat.succ_ne_self _ (turn.symm.trans same)).elim

theorem FaultRun.fault_later {n : Nat} {p : Phase} (faults : run.FaultsIn ps.program p n)
    : ∃ q,
        (run.state ps.program (n + 1)).phase = some q
        ∧ p.index < q.index
        ∧ (run.state ps.program (n + 1)).turn = (run.state ps.program n).turn := by
  obtain ⟨fault, g, here⟩ := faults
  have demands := (run.state_inv shape positive n).demands _ here
  obtain ⟨later, _, _⟩ := demands.2.2.phase
  have moved : run.state ps.program (n + 1) = { run.state ps.program n with
      rest := Control.goto ps.program (run.state ps.program n).retp } := by
    obtain ⟨rest, shown⟩ := List.head?_eq_some_iff.mp here
    show Control.step _ (run.faults n) (run.state ps.program n) = _
    simp only [Control.step, shown, fault, if_true]
  refine ⟨_, ?_, later, by rw [moved]⟩
  rw [moved, Control.phase, shape.goto_head]
  rfl

theorem FaultRun.only_back {n : Nat} {p q : Phase}
    (left : (run.state ps.program n).phase = some p)
    (right : (run.state ps.program (n + 1)).phase = some q) (falls : q.index < p.index)
    : p = .loop
      ∧ q = .pre
      ∧ (run.state ps.program (n + 1)).turn = (run.state ps.program n).turn + 1 := by
  have stage := Control.stage_of_phase left
  have stage' := Control.stage_of_phase right
  rcases run.advance shape positive n with ⟨_, still⟩ | ⟨onward, _⟩ | ⟨turn, loop, jumped, _⟩
  · rw [still] at stage'
    omega
  · have := onward.rises
    omega
  · refine ⟨Option.some.inj (left.symm.trans loop), ?_, turn⟩
    rw [Control.phase, jumped, shape.goto_head] at right
    exact (Option.some.inj right).symm

/-- The code phase is entered at most once in each iteration. -/
theorem FaultRun.enters_once (i j : Nat) (first : run.EntersCode ps.program i)
    (second : run.EntersCode ps.program j) (before : i < j)
    : (run.state ps.program i).turn ≠ (run.state ps.program j).turn := by
  intro same
  let turn := fun k => (run.state ps.program k).turn
  let stage := fun k => (run.state ps.program k).stage
  have turns : ∀ k, turn k ≤ turn (k + 1) := run.turn_le shape positive
  have rises : ∀ k, turn (k + 1) = turn k → stage k ≤ stage (k + 1) := run.stage_le shape positive
  have next : i + 1 ≤ j := before
  have middle : stage (i + 1) ≤ stage j := by
    have low := turns i
    have high : turn (i + 1) ≤ turn j := monotone_nat_of_le_succ turns next
    have same : turn i = turn j := same
    exact Runs.le_of_same stage turn turns rises next (by omega)
  have entered : stage (i + 1) = 2 := Control.stage_of_phase first.2
  have again : stage (j + 1) = 2 := Control.stage_of_phase second.2
  -- control was in the code phase before it entered the second time
  apply second.1
  apply Control.phase_of_stage
  rcases run.advance shape positive j with ⟨_, still⟩ | ⟨onward, _⟩ | ⟨_, _, jumped, _⟩
  · rw [← still]
    exact again
  · have last : stage j ≤ stage (j + 1) := onward.rises
    show stage j = 2
    omega
  · have phase := second.2
    rw [Control.phase, jumped, shape.goto_head] at phase
    cases phase

/-- Iterations are left to do, or lines of this one. -/
def Control.measure (ps : Phases) (loop : Word) (s : Control) : Nat :=
  (loop.toNat - s.turn) * (ps.program.length + 1) + s.rest.length

theorem Inv.measure_lt {s : Control} (inv : Inv ps loop s) (fault : Bool) (more : s.rest ≠ [])
    : (s.step ps.program fault).measure ps loop < s.measure ps loop := by
  have next := inv.step shape positive fault
  rcases inv.step_cases shape positive fault more with ⟨onward, _⟩ | ⟨turn, _⟩
  · rw [Control.measure, Control.measure, onward.turn]
    exact Nat.add_lt_add_left onward.shorter _
  · have short := next.suffix.length_le
    have left : loop.toNat - s.turn = (loop.toNat - (s.turn + 1)) + 1 := by
      have := inv.turn
      omega
    rw [Control.measure, Control.measure, turn, left, Nat.succ_mul]
    omega

theorem FaultRun.exists_end : ∃ n, (run.state ps.program n).rest = [(.loop, .label .l5)] := by
  have ended : ∃ n, (run.state ps.program n).rest = [] :=
    Runs.exists_reached (Control.measure ps loop) (run.state_inv shape positive)
      (fun fault s inv more => inv.measure_lt shape positive fault more)
  -- the line before the end is the last one
  obtain ⟨n, found⟩ : ∃ n, Nat.find ended = n + 1 := by
    apply Nat.exists_eq_succ_of_ne_zero
    intro zero
    have empty : (run.state ps.program 0).rest = [] := zero ▸ Nat.find_spec ended
    exact ne_nil_of_mem (shape.label_mem .ls) empty
  have here : (run.state ps.program (n + 1)).rest = [] := found ▸ Nat.find_spec ended
  have more : (run.state ps.program n).rest ≠ [] := Nat.find_min ended (found ▸ Nat.lt_succ_self n)
  refine ⟨n, ?_⟩
  have inv := run.state_inv shape positive n
  obtain ⟨x, rest, shown⟩ := exists_cons_of_ne_nil more
  have jumped (l : Label) : Control.goto ps.program l ≠ [] := by
    obtain ⟨after, jumps⟩ := shape.goto_eq l
    rw [jumps]
    exact cons_ne_nil _ _
  have inside : x ∈ ps.program := inv.suffix.subset (by rw [shown]; exact mem_cons_self)
  have moves := shape.moves (run.faults n) shown inside
  have state : (run.state ps.program n).step ps.program (run.faults n)
      = run.state ps.program (n + 1) := rfl
  rw [state] at moves
  generalize run.state ps.program (n + 1) = s' at here moves
  cases moves with
  | pass still _ =>
    obtain rfl : rest = [] := here
    have last : [x] <:+ ps.program := shown ▸ inv.suffix
    rw [shown, shape.last_line last]
  | jump | back | fault => exact (jumped _ here).elim

theorem FaultRun.revert_between (safe : loop = 1 ∨ ps.Armed) {n m : Nat} (before : n < m)
    (pre : (run.state ps.program n).phase = some .pre)
    (ends : (run.state ps.program m).phase = some .loop)
    (same : (run.state ps.program n).turn = (run.state ps.program m).turn)
    : ∃ k, n < k ∧ k < m ∧ (run.state ps.program k).phase = some .revert := by
  let turn := fun k => (run.state ps.program k).turn
  let stage := fun k => (run.state ps.program k).stage
  have turns : ∀ k, turn k ≤ turn (k + 1) := run.turn_le shape positive
  have low : stage n = 1 := Control.stage_of_phase pre
  have high : stage m = 6 := Control.stage_of_phase ends
  suffices near : ∀ i, n ≤ i → i < m → stage i < 5 → stage (i + 1) ≤ 5 by
    obtain ⟨k, later, earlier, found⟩ :=
      Runs.exists_between stage 5 (Nat.le_of_lt before) (by omega) (by omega) near
    exact ⟨k, later, earlier, Control.phase_of_stage found⟩
  intro i after until_ small
  have first : turn n ≤ turn i := monotone_nat_of_le_succ turns after
  have last : turn (i + 1) ≤ turn m := monotone_nat_of_le_succ turns until_
  rcases run.advance shape positive i with ⟨_, still⟩ | ⟨_, limit⟩ | ⟨more, _⟩
  · have unmoved : stage (i + 1) = stage i := congrArg Control.stage still
    omega
  · rcases limit small with near | ⟨turned, open_⟩
    · exact near
    · rcases safe with once | armed
      · have bound := (run.state_inv shape positive i).turn
        rw [once] at bound
        exact (turned (Nat.lt_one_iff.mp bound)).elim
      · exact (open_ armed).elim
  · have here := turns i
    have more : turn (i + 1) = turn i + 1 := more
    have same : turn n = turn m := same
    omega

omit positive in
/-- Without faults all iterations take place. -/
theorem Inv.quiet {s : Control} (inv : Inv ps loop s)
    (all : 2 ≤ s.rest.length ∨ s.turn + 1 = loop.toNat)
    : 2 ≤ (s.step ps.program false).rest.length
      ∨ (s.step ps.program false).turn + 1 = loop.toNat := by
  cases here : s.rest with
  | nil =>
    have still : s.step ps.program false = s := by simp only [Control.step, here]
    rw [still]
    exact all
  | cons x rest =>
    have suffix := inv.suffix
    rw [here] at all suffix
    have inside : x ∈ ps.program := suffix.subset mem_cons_self
    have demands := inv.demands x (by rw [here]; rfl)
    have long (l : Label) (other : l ≠ .l5) : 2 ≤ (Control.goto ps.program l).length := by
      obtain ⟨after, jumps⟩ := shape.goto_eq l
      cases after with
      | nil =>
        have last := shape.last_line (jumps ▸ Control.goto_suffix ps.program l)
        exact (other (Line.label.inj (congrArg Prod.snd last))).elim
      | cons => rw [jumps]; exact Nat.le_add_left 2 _
    have moves := shape.moves false here inside
    generalize s.step ps.program false = s' at moves
    cases moves with
    | pass _ ended =>
      have turn : (s.pass x.2).turn = s.turn := by cases x.2 <;> rfl
      rcases all with more | done
      · cases rest with
        | nil => exact (Nat.not_succ_le_self 1 more).elim
        | cons y rest =>
          cases rest with
          | nil =>
            obtain rfl := shape.line_before suffix
            have less := toNat_pred demands.2.1
            rw [ended .ls rfl] at less
            refine .inr ?_
            rw [turn, ← demands.1, ← less]
            rfl
          | cons z rest => exact .inl (Nat.le_add_left 2 _)
      · exact .inr (turn ▸ done)
    | jump | back => exact .inl (long _ (by simp))
    | fault faults isGadget => cases faults

/-- Two iterations, of which the second starts with the return point of the first. -/
theorem exists_second (more : loop ≠ 1) (retp : Label) (count : Word)
    : ∃ k,
        ((⟨retp, count, fun _ => false⟩ : FaultRun).state ps.program k).rest
            = Control.goto ps.program .ls
        ∧ ((⟨retp, count, fun _ => false⟩ : FaultRun).state ps.program k).retp = .l5 := by
  generalize runEq : (⟨retp, count, fun _ => false⟩ : FaultRun) = run
  have quiet (n : Nat) : run.faults n = false := by rw [← runEq]
  have all (n : Nat)
      : 2 ≤ (run.state ps.program n).rest.length
        ∨ (run.state ps.program n).turn + 1 = loop.toNat := by
    induction n with
    | zero =>
      obtain ⟨front, split⟩ := shape.last_lines
      refine .inl ?_
      show 2 ≤ ps.program.length
      rw [← split, length_append]
      exact Nat.le_add_left 2 _
    | succ n ih =>
      have next := (run.state_inv shape positive n).quiet shape ih
      rw [← quiet n] at next
      exact next
  have two : 2 ≤ loop.toNat := by
    have zero : loop.toNat ≠ 0 := fun zero => positive (BitVec.eq_of_toNat_eq zero)
    have one : loop.toNat ≠ 1 := fun one => more (BitVec.eq_of_toNat_eq one)
    omega
  obtain ⟨n, ended⟩ := run.exists_end shape positive
  have turned : ∃ n, (run.state ps.program n).turn ≠ 0 := by
    refine ⟨n, ?_⟩
    rcases all n with long | done
    · rw [ended] at long
      exact (Nat.not_succ_le_self 1 long).elim
    · omega
  obtain ⟨k, found⟩ := Nat.exists_eq_succ_of_ne_zero (n := Nat.find turned) (by
    intro zero
    have first := Nat.find_spec turned
    rw [zero] at first
    exact first rfl)
  have here : (run.state ps.program (k + 1)).turn ≠ 0 := by
    have spec := Nat.find_spec turned
    rwa [found] at spec
  have before : (run.state ps.program k).turn = 0 :=
    not_not.mp (Nat.find_min turned (found ▸ Nat.lt_succ_self k))
  refine ⟨k + 1, ?_⟩
  rcases run.advance shape positive k with ⟨_, still⟩ | ⟨onward, _⟩ | ⟨_, _, jumped, stored⟩
  · exact (here (still ▸ before)).elim
  · exact (here (onward.turn.trans before)).elim
  · exact ⟨jumped, stored⟩

end

/-- A gadget at the start of the loop comes right after the label. -/
theorem Phases.Shape.goto_ls (shape : ps.Shape loop) {a : Line} (first : ps.pre[1]? = some a)
    : ∃ rest, Control.goto ps.program .ls = (.pre, .label .ls) :: (.pre, a) :: rest := by
  obtain ⟨startup, startupEq, startupAll⟩ := shape.startup
  obtain ⟨pre, preEq, _⟩ := shape.pre
  rw [preEq, List.getElem?_cons_succ] at first
  obtain ⟨pre, rfl⟩ : ∃ rest, pre = a :: rest := by
    rw [← List.head?_eq_getElem?] at first
    exact List.head?_eq_some_iff.mp first
  have skipped : ∀ x ∈ ps.tagged .startup, decide (x.2 ≠ Line.label .ls) = true := by
    intro x mem
    obtain ⟨b, inside, rfl⟩ := mem_map.mp mem
    rw [Phases.lines, startupEq] at inside
    rcases mem_cons.mp inside with rfl | inside
    · rfl
    · obtain ⟨g, rfl⟩ := startupAll b inside
      rfl
  have split : ps.program = ps.tagged .startup ++ (ps.tagged .pre
      ++ [Phase.code, .revert_, .post, .revert, .loop].flatMap ps.tagged) := by
    simp [Phases.program]
  rw [Control.goto, split, dropWhile_append_of_pos skipped]
  simp [Phases.tagged, Phases.lines, preEq]

/-- A gadget that faults at the start of the second iteration ends the test case. -/
theorem Phases.Shape.exists_not_returns (shape : ps.Shape loop) (positive : loop ≠ 0)
    (more : loop ≠ 1) (open_ : ¬ ps.Armed)
    : ∃ run : FaultRun, ¬ run.Returns ps.program loop := by
  obtain ⟨a, first, g, rfl⟩ : ∃ a, ps.pre[1]? = some a ∧ a.IsGadget := by
    simpa [Phases.Armed] using open_
  obtain ⟨k, start, stored⟩ := exists_second shape positive more .l5 0
  obtain ⟨rest, shown⟩ := shape.goto_ls first
  let quiet : FaultRun := ⟨.l5, 0, fun _ => false⟩
  let run : FaultRun := ⟨.l5, 0, fun i => decide (i = k + 1)⟩
  have same (n : Nat) (before : n ≤ k + 1)
      : run.state ps.program n = quiet.state ps.program n :=
    Runs.after_congr (fun i inside => decide_eq_false (by omega))
  have startRest : (run.state ps.program k).rest
      = (.pre, .label .ls) :: (.pre, .gadget g) :: rest := by
    rw [same k (Nat.le_succ k)]
    exact start.trans shown
  have startRetp : (run.state ps.program k).retp = .l5 := by
    rw [same k (Nat.le_succ k)]
    exact stored
  have next : run.state ps.program (k + 1)
      = { run.state ps.program k with rest := (.pre, .gadget g) :: rest } := by
    show Control.step _ (run.faults k) (run.state ps.program k) = _
    simp only [Control.step, startRest]
  have faulted : run.state ps.program (k + 2)
      = { run.state ps.program k with rest := Control.goto ps.program .l5 } := by
    have faults : run.faults (k + 1) = true := decide_eq_true rfl
    show Control.step _ (run.faults (k + 1)) (run.state ps.program (k + 1)) = _
    simp only [next, Control.step, faults, if_true, startRetp]
  refine ⟨run, fun returns => ?_⟩
  obtain ⟨j, later, earlier, revert⟩ := returns.reverted k (k + 2) (by omega)
    (by rw [Control.phase, startRest]; rfl)
    (by rw [faulted, Control.phase, shape.goto_head]; rfl) (by rw [faulted])
  obtain rfl : j = k + 1 := by omega
  rw [next] at revert
  cases revert

end

/-- Faults return to later phases, all iterations end and undo their parameters, exactly if
there is one iteration or no gadget of the sorted list `pre` runs before its update of the
return point.
Witness: the loop phase stores the end of the test case as return point, which remains
until that update.
-/
theorem returns_iff {c : Collected} {orders : Nat → HashOrder} {ps : Phases}
    (emitted : c.phases orders = some ps) (positive : c.loop ≠ 0)
    : (∀ run : FaultRun, run.Returns ps.program c.loop) ↔ c.loop = 1 ∨ ps.Armed := by
  have shape := c.phases_shape emitted
  constructor
  · intro returns
    by_contra unsafe_
    obtain ⟨more, open_⟩ := not_or.mp unsafe_
    obtain ⟨run, failed⟩ := shape.exists_not_returns positive more open_
    exact failed (returns run)
  · intro safe run
    exact
      { later := fun n p faults => run.fault_later shape positive faults
        forward := fun n p q left right falls => run.only_back shape positive left right falls
        entered := Runs.card_events_le _ (fun i => (run.state_inv shape positive i).turn)
          (run.enters_once shape positive)
        ends := run.exists_end shape positive
        reverted := fun n m before pre ends same =>
          run.revert_between shape positive safe before pre ends same }

/-- A test case that changes SS, for an instruction that reads EAX. -/
def ssTest (loop : Word) : Collected where
  isFirst := true
  loop := loop
  retpOp := ⟨some .fs, some 0x128d008, none, none, 0⟩
  l2 := 2
  root :=
    { backup := []
      setR := []
      backupR := []
      setinput := [.make [.ins (.load (.abs 0x128d018) ⟨.eax, .full⟩)] "mem2reg"
        [.reg Gpr.eax.name] [] [.mem (.abs 0x128d018)] []]
      output := []
      update := []
      restore := [] }
  code := [.make [.ins .nop] "shellcode" [] [] [] []]
  param := genSetSreg 0 .ss 0x33
  param0 := genSetSreg 0 .ss 0x33
  revert := genSetSreg 0 .ss 0x18
  revert0 := genSetSreg 0 .ss 0x18
  revert_ := genSetSreg 0 .ss 0x18

theorem returns_iff_once
    : ∃ ps, (ssTest 1).phases (fun _ => .insertion) = some ps
        ∧ ∀ run : FaultRun, run.Returns ps.program 1 := by
  have emits : ((ssTest 1).phases (fun _ => .insertion)).isSome = true := by decide +kernel
  obtain ⟨ps, emitted⟩ := Option.isSome_iff_exists.mp emits
  exact ⟨ps, emitted, (returns_iff emitted (by decide)).mpr (.inl rfl)⟩

/-- Setting SS faults in the second iteration. -/
def ssFault : FaultRun := ⟨.l5, 0, fun n => n = 19⟩

/-- In the second iteration control goes from the parameters to the end of the test case. -/
def endsAtFault (ps : Phases) : Bool :=
  (ssFault.state ps.program 18).phase = some .pre
  && (ssFault.state ps.program 19).phase = some .pre
  && (ssFault.state ps.program 20).phase = some .loop
  && (ssFault.state ps.program 18).turn = (ssFault.state ps.program 20).turn

theorem fault_skips_revert
    : ∃ ps, (ssTest 2).phases (fun _ => .insertion) = some ps ∧ ¬ ssFault.Returns ps.program 2 := by
  have skips : ((ssTest 2).phases (fun _ => .insertion)).any endsAtFault = true := by
    decide +kernel
  cases emitted : (ssTest 2).phases (fun _ => .insertion) with
  | none =>
    rw [emitted] at skips
    cases skips
  | some ps =>
    rw [emitted] at skips
    have ends : endsAtFault ps = true := skips
    simp only [endsAtFault, Bool.and_eq_true, decide_eq_true_eq] at ends
    obtain ⟨⟨⟨pre, still⟩, loop⟩, same⟩ := ends
    refine ⟨ps, rfl, fun returns => ?_⟩
    obtain ⟨k, later, earlier, revert⟩ := returns.reverted 18 20 (by omega) pre loop same
    obtain rfl : k = 19 := by omega
    rw [still] at revert
    cases revert

end FastPokeEmu.Floppy
