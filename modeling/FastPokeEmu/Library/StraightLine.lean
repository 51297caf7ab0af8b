import Mathlib.Data.List.Basic
import Mathlib.Logic.Function.Basic

/-! Straight-line programs over an expression language with local definitions: running a
program, wrapping it around an expression, and slicing it by the variables that a scan of
the expressions sees.
-/

/-- Expressions over variables `V` with values in `D`. -/
structure ExprLanguage (V E D : Type) [DecidableEq V] where
  eval : (V → Option D) → E → Option D
  free : E → List V
  define : V → E → E → E
  eval_congr
    : ∀ env env' e, (∀ x ∈ free e, env x = env' x) → eval env e = eval env' e
  eval_define
    : ∀ env v e body,
        eval env (define v e body)
          = (eval env e).bind (fun d => eval (Function.update env v (some d)) body)
  free_define
    : ∀ x v e body, x ∈ free (define v e body) ↔ x ∈ free e ∨ (x ∈ free body ∧ x ≠ v)

namespace ExprLanguage

open List Function Option

variable {V E D : Type} [DecidableEq V] (L : ExprLanguage V E D)

/-- Assignments one after the other. -/
def run (env : V → Option D) : List (V × E) → Option (V → Option D)
  | [] => some env
  | (v, e) :: rest => (L.eval env e).bind (fun d => run (update env v (some d)) rest)

/-- The program as local definitions around an expression. -/
def wrap (program : List (V × E)) (body : E) : E :=
  program.foldr (fun s acc => L.define s.1 s.2 acc) body

def targets (program : List (V × E)) : List V := program.map Prod.fst

/-- Every variable is known or assigned before it is used. -/
def Closed (free : E → List V) : List V → List (V × E) → Prop
  | _, [] => True
  | known, (v, e) :: rest => (∀ x ∈ free e, x ∈ known) ∧ Closed free (v :: known) rest

instance decidableClosed (free : E → List V) (known : List V)
    : (program : List (V × E)) → Decidable (Closed free known program)
  | [] => isTrue trivial
  | (v, e) :: rest =>
    have := decidableClosed free (v :: known) rest
    inferInstanceAs (Decidable ((∀ x ∈ free e, x ∈ known) ∧ Closed free (v :: known) rest))

variable {L} {env env' final : V → Option D} {program rest : List (V × E)} {known : List V}

omit [DecidableEq V] in
theorem mem_known_cons {v x : V} {e : E}
    : x ∈ v :: known ∨ x ∈ targets program ↔ x ∈ known ∨ x ∈ targets ((v, e) :: program) := by
  simp only [targets, map_cons, mem_cons]
  tauto

theorem update_agree {v x : V} (d : D) (agree : x ≠ v → env x = env' x)
    : update env v (some d) x = update env' v (some d) x := by
  by_cases isTarget : x = v
  · rw [isTarget, update_self, update_self]
  · rw [update_of_ne isTarget, update_of_ne isTarget, agree isTarget]

theorem run_append : L.run env (program ++ rest) = (L.run env program).bind (L.run · rest) := by
  induction program generalizing env with
  | nil => rfl
  | cons s program ih =>
    obtain ⟨v, e⟩ := s
    simp only [cons_append, run, bind_assoc]
    cases L.eval env e with
    | none => rfl
    | some d => exact ih

theorem eval_wrap (body : E)
    : L.eval env (L.wrap program body) = (L.run env program).bind (L.eval · body) := by
  induction program generalizing env with
  | nil => rfl
  | cons s program ih =>
    obtain ⟨v, e⟩ := s
    simp only [wrap, foldr_cons, eval_define, run, bind_assoc]
    cases L.eval env e with
    | none => rfl
    | some d => exact ih

theorem run_other (res : L.run env program = some final) {x : V}
    (other : x ∉ targets program)
    : final x = env x := by
  induction program generalizing env with
  | nil =>
    cases res
    rfl
  | cons s program ih =>
    obtain ⟨v, e⟩ := s
    obtain ⟨d, _, later⟩ := bind_eq_some_iff.mp res
    simp only [targets, map_cons, mem_cons, not_or] at other
    rw [ih later other.2, update_of_ne other.1]

theorem run_target (res : L.run env program = some final) {x : V}
    (assigned : x ∈ targets program)
    : ∃ d, final x = some d := by
  induction program generalizing env with
  | nil => cases assigned
  | cons s program ih =>
    obtain ⟨v, e⟩ := s
    obtain ⟨d, _, later⟩ := bind_eq_some_iff.mp res
    by_cases again : x ∈ targets program
    · exact ih later again
    · rcases mem_cons.mp assigned with rfl | inRest
      · exact ⟨d, by rw [run_other later again, update_self]⟩
      · exact absurd inRest again

/-- A closed program computes the same from environments that agree on what is known. -/
theorem run_of_closed (closed : Closed L.free known program)
    (agree : ∀ x ∈ known, env x = env' x) (res : L.run env program = some final)
    : ∃ final',
        L.run env' program = some final'
        ∧ ∀ x, x ∈ known ∨ x ∈ targets program → final x = final' x := by
  induction program generalizing env env' known with
  | nil =>
    cases res
    exact ⟨env', rfl, fun x side => agree x (side.resolve_right not_mem_nil)⟩
  | cons s program ih =>
    obtain ⟨v, e⟩ := s
    obtain ⟨uses, later⟩ := closed
    obtain ⟨d, value, res⟩ := bind_eq_some_iff.mp res
    have same := L.eval_congr env env' e (fun x mem => agree x (uses x mem))
    obtain ⟨final', result', alike⟩ := ih later
      (fun x mem => update_agree d fun other => agree x (mem_of_ne_of_mem other mem))
      res
    refine ⟨final', ?_, fun x side => alike x (mem_known_cons.mpr side)⟩
    rw [run, ← same, value]
    exact result'

theorem free_wrap (closed : Closed L.free known program) {body : E}
    (inBody : ∀ x ∈ L.free body, x ∈ known ∨ x ∈ targets program) {x : V}
    (mem : x ∈ L.free (L.wrap program body))
    : x ∈ known := by
  induction program generalizing known with
  | nil => exact (inBody x mem).resolve_right not_mem_nil
  | cons s program ih =>
    obtain ⟨v, e⟩ := s
    obtain ⟨uses, later⟩ := closed
    rcases (L.free_define x v e _).mp mem with inside | ⟨inRest, other⟩
    · exact uses x inside
    · have known' := ih later (fun y here => mem_known_cons.mpr (inBody y here)) inRest
      exact mem_of_ne_of_mem other known'

theorem mem_free_wrap {s : V × E} (stmt : s ∈ program) {x : V} (used : x ∈ L.free s.2)
    (other : x ∉ targets program) (body : E)
    : x ∈ L.free (L.wrap program body) := by
  induction program with
  | nil => cases stmt
  | cons first program ih =>
    simp only [targets, map_cons, mem_cons, not_or] at other
    refine (L.free_define x first.1 first.2 _).mpr ?_
    rcases mem_cons.mp stmt with rfl | inRest
    · exact Or.inl used
    · exact Or.inr ⟨ih inRest other.2, other.1⟩

section

variable {free : E → List V} {blocks : List (List (V × E))}

omit [DecidableEq V] in
theorem Closed.mono {more : List V} (closed : Closed free known program)
    (sub : ∀ x ∈ known, x ∈ more)
    : Closed free more program := by
  induction program generalizing known more with
  | nil => trivial
  | cons s program ih =>
    obtain ⟨v, e⟩ := s
    refine ⟨fun x mem => sub x (closed.1 x mem), ih closed.2 (fun x mem => ?_)⟩
    rcases mem_cons.mp mem with rfl | inKnown
    · exact mem_cons_self
    · exact mem_cons_of_mem _ (sub x inKnown)

omit [DecidableEq V] in
theorem Closed.append (first : Closed free known program) (second : Closed free known rest)
    : Closed free known (program ++ rest) := by
  induction program generalizing known with
  | nil => exact second
  | cons s program ih =>
    obtain ⟨v, e⟩ := s
    exact ⟨first.1, ih first.2 (second.mono (fun x => mem_cons_of_mem v))⟩

omit [DecidableEq V] in
theorem Closed.mem (closed : Closed free known program) {s : V × E} (stmt : s ∈ program)
    {x : V} (used : x ∈ free s.2)
    : x ∈ known ∨ x ∈ targets program := by
  induction program generalizing known with
  | nil => cases stmt
  | cons first program ih =>
    rcases mem_cons.mp stmt with rfl | inRest
    · exact Or.inl (closed.1 x used)
    · exact mem_known_cons.mp (ih closed.2 inRest)

omit [DecidableEq V] in
theorem closed_flatten (closed : ∀ block ∈ blocks, Closed free known block)
    : Closed free known blocks.flatten := by
  induction blocks with
  | nil => trivial
  | cons block blocks ih =>
    exact Closed.append (closed block mem_cons_self)
      (ih (fun block' mem => closed block' (mem_cons_of_mem _ mem)))

omit [DecidableEq V] in
theorem mem_targets_flatten {x : V}
    : x ∈ targets blocks.flatten ↔ ∃ block ∈ blocks, x ∈ targets block := by
  simp only [targets, map_flatten, mem_flatten, List.mem_map]
  constructor
  · rintro ⟨_, ⟨block, mem, rfl⟩, inside⟩
    exact ⟨block, mem, by simpa using inside⟩
  · rintro ⟨block, mem, inside⟩
    exact ⟨_, ⟨block, mem, rfl⟩, by simpa using inside⟩

/-- Closed blocks that assign different variables do not disturb each other. -/
theorem run_blocks (closed : ∀ block ∈ blocks, Closed L.free known block)
    (apart : ∀ block ∈ blocks, ∀ x ∈ targets block, x ∉ known)
    (disjoint : blocks.Pairwise (fun b c => ∀ x ∈ targets b, x ∉ targets c))
    (results : ∀ block ∈ blocks, ∃ own, L.run env block = some own)
    : ∃ final,
        L.run env blocks.flatten = some final
        ∧ ∀ block ∈ blocks, ∀ own, L.run env block = some own
          → ∀ x ∈ targets block, final x = own x := by
  induction blocks generalizing env with
  | nil => exact ⟨env, rfl, fun block none => by cases none⟩
  | cons block blocks ih =>
    obtain ⟨others, disjointRest⟩ := pairwise_cons.mp disjoint
    obtain ⟨after, res⟩ := results block mem_cons_self
    have agree (x : V) (mem : x ∈ known) : env x = after x :=
      (run_other res (fun assigned => apart block mem_cons_self x assigned mem)).symm
    -- the other blocks compute the same from the environment that the first one leaves
    have again (b : List (V × E)) (mem : b ∈ blocks) {own : V → Option D}
        (alone : L.run env b = some own) :=
      run_of_closed (closed b (mem_cons_of_mem _ mem)) agree alone
    obtain ⟨final, whole, same⟩ := ih
      (fun b mem => closed b (mem_cons_of_mem _ mem))
      (fun b mem => apart b (mem_cons_of_mem _ mem)) disjointRest
      (fun b mem => by
        obtain ⟨own, alone⟩ := results b (mem_cons_of_mem _ mem)
        obtain ⟨own', later, _⟩ := again b mem alone
        exact ⟨own', later⟩)
    refine ⟨final, ?_, fun b mem own alone x assigned => ?_⟩
    · rw [flatten_cons, run_append, res]
      exact whole
    · rcases mem_cons.mp mem with rfl | inRest
      · rw [res] at alone
        cases alone
        refine run_other whole (fun inRest => ?_)
        obtain ⟨c, isRest, twice⟩ := mem_targets_flatten.mp inRest
        exact others c isRest x assigned twice
      · obtain ⟨own', later, alike⟩ := again b inRest alone
        rw [same b inRest own' later x assigned, alike x (Or.inr assigned)]

end

section

variable (sees : E → List V) (goal : List V)

/-- Variables that the kept statements and the goal are seen to use. -/
def live : List (V × E) → List V
  | [] => goal
  | (v, e) :: rest => if v ∈ live rest then sees e ++ live rest else live rest

/-- Keep the assignments to live variables. -/
def slice : List (V × E) → List (V × E)
  | [] => []
  | (v, e) :: rest => if v ∈ live sees goal rest then (v, e) :: slice rest else slice rest

end

variable {sees : E → List V} {goal : List V}

theorem mem_live_cons {v x : V} {e : E} (mem : x ∈ live sees goal rest)
    : x ∈ live sees goal ((v, e) :: rest) := by
  rw [live]
  split
  · exact mem_append_right _ mem
  · exact mem

theorem seen_of_mem_live {x : V} (mem : x ∈ live sees goal program)
    : x ∈ goal ∨ ∃ s ∈ program, x ∈ sees s.2 := by
  induction program with
  | nil => exact Or.inl mem
  | cons s program ih =>
    have later (here : x ∈ live sees goal program)
        : x ∈ goal ∨ ∃ s' ∈ s :: program, x ∈ sees s'.2 := by
      rcases ih here with isGoal | ⟨s', stmt, seen⟩
      · exact Or.inl isGoal
      · exact Or.inr ⟨s', mem_cons_of_mem _ stmt, seen⟩
    rw [live] at mem
    split at mem
    · rcases mem_append.mp mem with seen | inRest
      · exact Or.inr ⟨s, mem_cons_self, seen⟩
      · exact later inRest
    · exact later mem

theorem mem_live_of_sees {v x : V} {e : E} (needed : v ∈ live sees goal rest)
    (seen : x ∈ sees e)
    : x ∈ live sees goal ((v, e) :: rest) := by
  rw [live, if_pos needed]
  exact mem_append_left _ seen

section

variable (scan : ∀ s ∈ program, ∀ x ∈ L.free s.2, x ∈ sees s.2)

include scan

/-- If the scan sees everything, a slice computes the goal, from environments that agree on live
variables.
-/
theorem run_slice (agree : ∀ x ∈ live sees goal program, env x = env' x)
    (res : L.run env program = some final)
    : ∃ final',
        L.run env' (slice sees goal program) = some final' ∧ ∀ x ∈ goal, final x = final' x := by
  induction program generalizing env env' with
  | nil =>
    cases res
    exact ⟨env', rfl, agree⟩
  | cons s program ih =>
    obtain ⟨v, e⟩ := s
    obtain ⟨d, value, res⟩ := bind_eq_some_iff.mp res
    obtain ⟨here, later⟩ := forall_mem_cons.mp scan
    by_cases needed : v ∈ live sees goal program
    · have same := L.eval_congr env env' e fun x mem =>
        agree x (mem_live_of_sees needed (here x mem))
      obtain ⟨final', result', alike⟩ := ih later
        (fun x mem => update_agree d fun _ => agree x (mem_live_cons mem)) res
      refine ⟨final', ?_, alike⟩
      rw [slice, if_pos needed, run, ← same, value]
      exact result'
    · have agreeNext (x : V) (mem : x ∈ live sees goal program)
          : update env v (some d) x = env' x := by
        have other : x ≠ v := fun same => needed (same ▸ mem)
        rw [update_of_ne other, agree x (mem_live_cons mem)]
      obtain ⟨final', result', alike⟩ := ih later agreeNext res
      refine ⟨final', ?_, alike⟩
      rw [slice, if_neg needed]
      exact result'

/-- In a slice only live variables are free, and nothing that was not free before. -/
theorem free_wrap_slice {body : E} (uses : ∀ x ∈ L.free body, x ∈ goal) {x : V}
    (mem : x ∈ L.free (L.wrap (slice sees goal program) body))
    : x ∈ live sees goal program ∧ x ∈ L.free (L.wrap program body) := by
  induction program with
  | nil => exact ⟨uses x mem, mem⟩
  | cons s program ih =>
    obtain ⟨v, e⟩ := s
    obtain ⟨here, later⟩ := forall_mem_cons.mp scan
    by_cases needed : v ∈ live sees goal program
    · rw [slice, if_pos needed] at mem
      rcases (L.free_define x v e _).mp mem with inside | ⟨inRest, other⟩
      · exact ⟨mem_live_of_sees needed (here x inside),
          (L.free_define x v e _).mpr (Or.inl inside)⟩
      · obtain ⟨isLive, before⟩ := ih later inRest
        exact ⟨mem_live_cons isLive, (L.free_define x v e _).mpr (Or.inr ⟨before, other⟩)⟩
    · rw [slice, if_neg needed] at mem
      obtain ⟨isLive, before⟩ := ih later mem
      have other : x ≠ v := fun same => needed (same ▸ isLive)
      exact ⟨mem_live_cons isLive, (L.free_define x v e _).mpr (Or.inr ⟨before, other⟩)⟩

end

end ExprLanguage
