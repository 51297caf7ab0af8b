import FastPokeEmu.EmuFuzzball.MultiPath
import FastPokeEmu.EmuFuzzball.PathParsing

/-! Merging paths preserves what they compute.

The backward scan and the renaming of inputs do not look into conditional expressions, but the
parser leaves none. What is emitted computes what the programs compute as they are parsed.
-/

namespace FastPokeEmu.Paths.MultiPath

open Vine List ExprLanguage

variable {m : String} {x : Var}

/-- Every free variable is seen or stands inside a conditional expression. -/
theorem seen_or_inIte (e : Exp) : ∀ x ∈ e.free, x ∈ useExp e ∨ x ∈ inIte e := by
  induction e with
  | binOp op e1 e2 ih1 ih2 =>
    intro x member
    simp only [Exp.free, useExp, inIte, mem_append] at member ⊢
    rcases member with left | right
    · grind
    · grind
  | unOp op e1 ih => exact ih
  | cast op ty e1 ih => exact ih
  | temp v => exact fun x member => Or.inl member
  | mem v addr ty ih => exact ih
  | letTemp v e1 e2 ih1 ih2 =>
    intro x member
    simp only [Exp.free, useExp, inIte, mem_append, mem_cons, mem_filter]
      at member ⊢
    grind
  | ite ce te fe _ _ _ => exact fun x member => Or.inr member
  | const | unsupported => exact fun x none => by cases none

theorem useExp_renameExp (map : Renaming) (e : Exp)
    : useExp (renameExp map e) = (useExp e).map (renameVar map) := by
  induction e with
  | binOp op e1 e2 ih1 ih2 | letTemp v e1 e2 ih1 ih2 => simp [renameExp, useExp, ih1, ih2]
  | unOp op e1 ih | cast op ty e1 ih | mem v addr ty ih => simpa [renameExp, useExp] using ih
  | temp v => rfl
  | ite ce te fe _ _ _ => rfl
  | const ty value => rfl
  | unsupported => rfl

theorem mem_useExp_foldexp {pcOut : List (Var × Var)} {base : Exp}
    : x ∈ useExp (foldexp pcOut base)
      ↔ x ∈ useExp base ∨ ∃ pair ∈ pcOut, x = pair.1 ∨ x = pair.2 := by
  induction pcOut generalizing base with
  | nil => simp [foldexp]
  | cons pair rest ih =>
    simp only [foldexp, foldl_cons] at ih ⊢
    rw [ih]
    simp only [select, useExp, mem_append, mem_cons, not_mem_nil, or_false, exists_eq_or_imp]
    grind

section

variable {tab : Renaming} {progs : List PathProgram}

/-- Programs without conditional expressions. -/
def Plain (progs : List PathProgram) : Prop := ∀ p ∈ progs, ∀ s ∈ p.moves, inIte s.2 = []

theorem seen_allMoves (unifies : Unifies tab progs) (plain : Plain progs) (s : Var × Exp)
    (stmt : s ∈ allMoves tab progs.reverse) (x : Var) (used : x ∈ s.2.free)
    : x ∈ useExp s.2 := by
  obtain ⟨_, isBlock, inBlock⟩ := mem_flatten.mp stmt
  obtain ⟨p, isProg, rfl⟩ := mem_map.mp isBlock
  obtain ⟨s, here, rfl⟩ := mem_map.mp inBlock
  have isProg := mem_reverse.mp isProg
  refine (seen_or_inIte _ x used).resolve_right ?_
  rw [inIte_renameExp (unifies.keptStmts isProg s here).2, plain p isProg s here]
  exact not_mem_nil

theorem mem_oldInputs_reverse : x ∈ oldInputs progs.reverse ↔ x ∈ oldInputs progs := by
  simp only [mem_oldInputs, mem_reverse]

theorem mem_selection (unifies : Unifies tab progs) (mem : x ∈ (selection m progs).free)
    : x ∉ newInputs tab ++ oldInputs progs ∧ ∃ p ∈ progs, x ∈ p.targets := by
  obtain ⟨p, isProg, assigned⟩ := free_foldexp_outPairs rfl mem
  exact ⟨unifies.target_notMem isProg assigned, p, isProg, assigned⟩

theorem mem_goal : x ∈ (useExp (selection m progs)).eraseDups ↔ x ∈ (selection m progs).free := by
  rw [mem_eraseDups, selection, mem_useExp_foldexp, free_foldexp]
  simp [zero, useExp, Exp.free]

/-- The scan never sees an old input: those that it sees have been renamed. -/
theorem live_notMem (unifies : Unifies tab progs)
    (mem : x ∈ ExprLanguage.live useExp (useExp (selection m progs)).eraseDups
      (allMoves tab progs.reverse))
    : x ∉ oldInputs progs := by
  intro input
  obtain ⟨w, found⟩ := unifies.covers x input
  rcases seen_of_mem_live mem with isGoal | ⟨s, stmt, seen⟩
  · exact (mem_selection unifies (mem_goal.mp isGoal)).1 (mem_append_right _ input)
  · obtain ⟨_, isBlock, inBlock⟩ := mem_flatten.mp stmt
    obtain ⟨p, _, rfl⟩ := mem_map.mp isBlock
    obtain ⟨s, _, rfl⟩ := mem_map.mp inBlock
    rw [useExp_renameExp] at seen
    obtain ⟨y, _, rfl⟩ := mem_map.mp seen
    cases known : tab.lookup y.name with
    | none => simp [renameVar, known] at found
    | some w' =>
      have renamed : renameVar tab y = w' := by rw [renameVar, known]; rfl
      obtain ⟨q, isProg, here⟩ := mem_oldInputs.mp input
      exact unifies.isFresh _ _ known (renamed ▸ Old.of_input isProg here)

/-- The emitted expression selects from what all paths compute. -/
theorem eval_emitted_selected (unifies : Unifies tab progs) (distinct : Distinct progs)
    (plain : Plain progs) (M : Meaning) {value : Var → Value}
    (typed : ∀ p ∈ progs, TypedInputs value p)
    (same : ∀ x ∈ oldInputs progs, value (renameVar tab x) = value x)
    : ∃ final,
        Computes M value progs final
        ∧ eval M (newEnv tab value) (emitted tab progs m)
          = some (selected final (outPairs m progs) ⟨.reg8, 0⟩) := by
  obtain ⟨final, whole, reversed⟩ := unifies.reverse.run_allMoves M distinct.reverse
    (fun q isProg => typed q (mem_reverse.mp isProg))
    (fun x input => same x (mem_oldInputs_reverse.mp input))
  have computes : Computes M value progs final :=
    reversed.mono (fun q isProg => mem_reverse.mpr isProg)
  have agree (x : Var) (notOld : x ∉ oldInputs progs)
      : bothEnv tab progs.reverse value x = newEnv tab value x := by
    simp [bothEnv, newEnv, mem_oldInputs_reverse, notOld]
  obtain ⟨final', sliced, alike⟩ := run_slice (L := language M) (seen_allMoves unifies plain)
    (fun x isLive => agree x (live_notMem unifies isLive)) whole
  refine ⟨final, computes, ?_⟩
  calc eval M (newEnv tab value) (emitted tab progs m)
      = ((language M).run (newEnv tab value) _).bind (eval M · (selection m progs)) :=
        eval_wrap (L := language M) (selection m progs)
    _ = eval M final' (selection m progs) := by rw [sliced, Option.bind_some]
    _ = eval M final (selection m progs) :=
        eval_congr M _ _ _ (fun x mem => (alike x (mem_goal.mpr mem)).symm)
    _ = _ := (eval_foldexp (computes.evaluated typed m) rfl (toVal_of .reg8 0)).1

end

section

variable {supply : Nat → Nat} {tab : Renaming} {progs : List PathProgram}

/-- The inputs that programs read, by their names. -/
def byName (value : String → Value) (x : Var) : Value := value x.name

/-- The emitted expression has the value that the path computes. -/
theorem eval_emitted (table : TableOf supply (oldInputs progs) tab)
    (injective : Function.Injective supply)
    (fresh : ∀ p ∈ progs, ∀ x ∈ p.vars, ∀ k, x.id ≠ supply k) (distinct : Distinct progs)
    (plain : Plain progs) (M : Meaning) {value : String → Value}
    (typed : ∀ p ∈ progs, TypedInputs (byName value) p) {p : PathProgram} (mem : p ∈ progs)
    (only : ∀ q ∈ progs, q.Holds M (byName value) ↔ q = p)
    : ∃ v,
        p.output M (byName value) m = some v
        ∧ eval M (inputEnv tab value) (emitted tab progs m) = some v := by
  have unifies := table.unifies fresh
  have onOld (q : PathProgram) (isProg : q ∈ progs) (x : Var) (input : x ∈ q.inputs)
      : valueOf tab (byName value) value x = byName value x :=
    valueOf_old _ value (fun isNew => unifies.fresh x isNew (Old.of_input isProg input))
  have typed' (q : PathProgram) (isProg : q ∈ progs)
      : TypedInputs (valueOf tab (byName value) value) q := by
    intro x input
    rw [onOld q isProg x input]
    exact typed q isProg x input
  obtain ⟨final, computes, selected⟩ := eval_emitted_selected unifies distinct plain M typed'
    (fun x input => by
      obtain ⟨w, found⟩ := unifies.covers x input
      obtain ⟨q, isProg, here⟩ := mem_oldInputs.mp input
      rw [onOld q isProg x here, renameVar, found]
      exact valueOf_new _ value (Assoc.mem_of_lookup found)
        (fun entry inTable same => table.unique injective inTable (Assoc.mem_of_lookup found) same))
  have only' (q : PathProgram) (isProg : q ∈ progs)
      : q.Holds M (valueOf tab (byName value) value) ↔ q = p := by
    rw [← only q isProg, PathProgram.holds_congr M (onOld q isProg)]
  have output := computes.output_eq (m := m) typed' mem only' (fun _ => rfl)
  rw [newEnv_valueOf] at selected
  refine ⟨_, ?_, selected⟩
  rw [← output, PathProgram.output_congr M (onOld p mem)]

theorem free_emitted (unifies : Unifies tab progs) (plain : Plain progs) (M : Meaning)
    (mem : x ∈ (emitted tab progs m).free)
    : x ∈ newInputs tab := by
  obtain ⟨isLive, before⟩ := free_wrap_slice (L := language M) (seen_allMoves unifies plain)
    (fun x used => mem_goal.mpr used) mem
  have known := free_wrap (L := language M) unifies.reverse.closed_allMoves
    (fun x used => Or.inr ?_) before
  · rcases mem_append.mp known with isNew | isOld
    · exact isNew
    · exact absurd (mem_oldInputs_reverse.mp isOld) (live_notMem unifies isLive)
  · obtain ⟨_, p, isProg, assigned⟩ := mem_selection unifies used
    rw [unifies.reverse.targets_allMoves]
    exact mem_flatMap.mpr ⟨p, mem_reverse.mpr isProg, assigned⟩

theorem outPairs_ne_nil {p : PathProgram} {o : Var} (mem : p ∈ progs)
    (written : p.named m = some o)
    : outPairs m progs ≠ [] := by
  obtain ⟨output, name⟩ := PathProgram.named_eq_some.mp written
  have inPairs : (p.pathcond, o) ∈ outPairs m progs :=
    mem_outPairs.mpr ⟨p, mem, rfl, output, name⟩
  exact ne_nil_of_mem inPairs

theorem plain_parsed (progs : List PathProgram) : Plain (progs.map PathProgram.parsed) := by
  intro _ isProg s stmt
  obtain ⟨p, _, rfl⟩ := mem_map.mp isProg
  obtain ⟨s, _, rfl⟩ := mem_map.mp stmt
  exact inIte_parseExp s.2

theorem distinct_parsed (distinct : Distinct progs) : Distinct (progs.map PathProgram.parsed) := by
  refine pairwise_map.mpr (distinct.imp ?_)
  intro p q apart
  simpa only [PathProgram.targets, PathProgram.parsed, targets_parseMoves] using apart

/-- Programs are merged as they are parsed. Every output that a path writes is emitted, and uses
declared inputs only. It has the value that the only path taken computes, if all conditional
expressions that the programs evaluate have true conditions.
Witness: `merging_preserves_outputs_halves`.
-/
theorem merging_preserves_outputs (supply : Nat → Nat) (injective : Function.Injective supply)
    (progs : List PathProgram) (distinct : Distinct progs)
    (fresh : ∀ p ∈ progs, ∀ x ∈ p.vars, ∀ k, x.id ≠ supply k)
    : ∃ merged,
        main supply (progs.map (·.parsed.source)) = some merged
        ∧ (∀ p ∈ progs, ∀ m o, p.named m = some o
            → ∃ out e, (out, e) ∈ merged.outputs ∧ out.name = m)
        ∧ ∀ out e, (out, e) ∈ merged.outputs
          → (∀ x ∈ e.free, x ∈ merged.invars)
            ∧ ∀ (M : Meaning) (value : String → Value),
                (∀ p ∈ progs, TypedInputs (byName value) p)
                → (∀ p ∈ progs, p.Decided M (byName value))
                → ∀ p ∈ progs, (∀ q ∈ progs, q.Holds M (byName value) ↔ q = p)
                → ∃ v,
                    p.output M (byName value) out.name = some v
                    ∧ eval M (inputEnv merged.inputVariables value) e = some v := by
  have solver : Meaning := ⟨fun _ _ _ => 0⟩
  obtain ⟨merged, result, table, declared, emits, present⟩ :=
    main_eq supply (progs.map PathProgram.parsed)
  rw [map_map] at result
  have fresh' : ∀ p ∈ progs.map PathProgram.parsed, ∀ x ∈ p.vars, ∀ k, x.id ≠ supply k :=
    forall_mem_map.mpr fun p mem x occurs => fresh p mem x (PathProgram.vars_parsed x occurs)
  refine ⟨merged, result, fun p member m o written => ?_, fun out e member => ?_⟩
  · exact present m (outPairs_ne_nil (mem_map_of_mem member) written)
  · rw [emits out e member]
    refine ⟨fun x free => ?_, fun M value typed decided p isProg only => ?_⟩
    · exact (declared x).mpr (free_emitted (table.unifies fresh') (plain_parsed progs) solver free)
    · have only' : ∀ q ∈ progs.map PathProgram.parsed,
          q.Holds M (byName value) ↔ q = p.parsed := by
        refine forall_mem_map.mpr fun q mem => ?_
        rw [PathProgram.holds_parsed (decided q mem), only q mem]
        refine ⟨congrArg _, fun same => (only q mem).mp ?_⟩
        rw [← PathProgram.holds_parsed (decided q mem), same,
          PathProgram.holds_parsed (decided p isProg)]
        exact (only p isProg).mpr rfl
      rw [← PathProgram.output_parsed (decided p isProg)]
      exact eval_emitted table injective fresh' (distinct_parsed distinct) (plain_parsed progs) M
        (forall_mem_map.mpr typed) (mem_map_of_mem isProg) only'

end

/-- Inputs below five are incremented, behind a condition that is true on the path. -/
def lower : PathProgram where
  decls :=
    [⟨1, "in_x_1", .reg8⟩, ⟨2, "t_2", .reg8⟩, ⟨3, "out_r_3", .reg8⟩, ⟨4, "pathcond_4", .reg1⟩]
  moves :=
    [(⟨2, "t_2", .reg8⟩, .binOp .plus (.temp ⟨1, "in_x_1", .reg8⟩) (.const .reg8 1)),
     (⟨4, "pathcond_4", .reg1⟩,
       .binOp .lt (.temp ⟨1, "in_x_1", .reg8⟩) (.const .reg8 5)),
     (⟨3, "out_r_3", .reg8⟩,
       .ite (.temp ⟨4, "pathcond_4", .reg1⟩) (.temp ⟨2, "t_2", .reg8⟩) (.const .reg8 0))]
  pathcond := ⟨4, "pathcond_4", .reg1⟩
  condTyp := (rfl : Typ.reg1 = .reg1)

/-- Other inputs are negated. -/
def upper : PathProgram where
  decls := [⟨5, "in_x_1", .reg8⟩, ⟨6, "out_r_6", .reg8⟩, ⟨7, "pathcond_7", .reg1⟩]
  moves :=
    [(⟨6, "out_r_6", .reg8⟩, .unOp .neg (.temp ⟨5, "in_x_1", .reg8⟩)),
     (⟨7, "pathcond_7", .reg1⟩,
       .binOp .le (.const .reg8 5) (.temp ⟨5, "in_x_1", .reg8⟩))]
  pathcond := ⟨7, "pathcond_7", .reg1⟩
  condTyp := (rfl : Typ.reg1 = .reg1)

theorem merging_preserves_outputs_halves
    : ∃ merged,
        main (· + 100) [lower.parsed.source, upper.parsed.source] = some merged
        ∧ ∃ out e,
            (out, e) ∈ merged.outputs
            ∧ out.name = "out_r"
            ∧ (∀ x ∈ e.free, x ∈ merged.invars)
            ∧ ∀ M, ∃ v,
                lower.output M (byName (fun _ => ⟨.reg8, 3⟩)) "out_r" = some v
                ∧ eval M (inputEnv merged.inputVariables (fun _ => ⟨.reg8, 3⟩)) e = some v := by
  have small : ∀ p ∈ [lower, upper], ∀ x ∈ p.vars, x.id < 100 := by decide +kernel
  obtain ⟨merged, result, present, correct⟩ :=
    merging_preserves_outputs (· + 100) (fun k k' same => Nat.add_right_cancel same)
      [lower, upper] (by decide +kernel) (fun p member x occurs k => by
        have bound := small p member x occurs
        omega)
  obtain ⟨out, e, member, name⟩ := present lower (by simp) "out_r" ⟨3, "out_r_3", .reg8⟩
    (by decide +kernel)
  obtain ⟨known, value⟩ := correct out e member
  refine ⟨merged, result, out, e, member, name, known, fun M => ?_⟩
  have differ : upper ≠ lower := fun same =>
    absurd (congrArg PathProgram.decls same) (by decide +kernel)
  have taken : ∀ q ∈ [lower, upper],
      q.Holds M (byName (fun _ => ⟨.reg8, 3⟩)) ↔ q = lower := by
    intro q member
    rcases mem_pair.mp member with rfl | rfl
    · exact ⟨fun _ => rfl, fun _ => ⟨_, rfl, rfl⟩⟩
    · refine ⟨fun holds => ?_, fun same => absurd same differ⟩
      obtain ⟨final, result, holds⟩ := holds
      cases result
      cases holds
  have decided : ∀ p ∈ [lower, upper], p.Decided M (byName (fun _ => ⟨.reg8, 3⟩)) := by
    intro p member
    rcases mem_pair.mp member with rfl | rfl
    · exact ⟨⟨trivial, trivial⟩, fun _ first => by
        cases first
        exact ⟨⟨trivial, trivial⟩, fun _ second => by
          cases second
          exact ⟨⟨⟨_, rfl, rfl⟩, trivial⟩, fun _ _ => trivial⟩⟩⟩
    · exact ⟨trivial, fun _ _ => ⟨⟨trivial, trivial⟩, fun _ _ => trivial⟩⟩
  have here := value M (fun _ => ⟨.reg8, 3⟩) (by decide +kernel) decided lower (by simp) taken
  rwa [name] at here

/-- The output is the second branch of a conditional expression. -/
def guarded : PathProgram where
  decls :=
    [⟨1, "in_x_1", .reg8⟩, ⟨2, "t_2", .reg8⟩, ⟨3, "out_r_3", .reg8⟩, ⟨4, "pathcond_4", .reg1⟩]
  moves :=
    [(⟨2, "t_2", .reg8⟩, .binOp .plus (.temp ⟨1, "in_x_1", .reg8⟩) (.const .reg8 1)),
     (⟨4, "pathcond_4", .reg1⟩, .const .reg1 1),
     (⟨3, "out_r_3", .reg8⟩,
       .ite (.const .reg1 0) (.temp ⟨2, "t_2", .reg8⟩) (.const .reg8 5))]
  pathcond := ⟨4, "pathcond_4", .reg1⟩
  condTyp := (rfl : Typ.reg1 = .reg1)

/-- The path computes five, and the first branch is emitted: eight for the input seven. -/
theorem second_branch_lost
    : guarded.Holds ⟨fun _ _ _ => 0⟩ (byName (fun _ => ⟨.reg8, 7⟩))
      ∧ guarded.output ⟨fun _ _ _ => 0⟩ (byName (fun _ => ⟨.reg8, 7⟩)) "out_r"
        = some ⟨.reg8, 5⟩
      ∧ (main (· + 100) [guarded.parsed.source]).map (fun merged =>
          merged.outputs.map (fun output =>
            (output.1.name,
              eval ⟨fun _ _ _ => 0⟩ (inputEnv merged.inputVariables (fun _ => ⟨.reg8, 7⟩))
                output.2)))
        = some [("out_r", some ⟨.reg8, 8⟩)] :=
  ⟨⟨_, rfl, rfl⟩, by decide +kernel, by decide +kernel⟩

end FastPokeEmu.Paths.MultiPath
