import Mathlib.Logic.Function.Basic

/-! Feistel rounds over a family of blocks.
A round swaps the halves and xors a recorded vector into one of them. What has been
recorded may depend on the other half, as in a cipher.
-/

namespace Feistel

variable {ι : Type} {w : Nat}

@[ext] structure Blocks (ι : Type) (w : Nat) where
  left : ι → BitVec w
  right : ι → BitVec w

/-- One round that records the given vector. -/
def round (recorded : ι → BitVec w) (b : Blocks ι w) : Blocks ι w :=
  ⟨b.right, fun i => b.left i ^^^ recorded i⟩

theorem round_injective_recorded (b : Blocks ι w)
    : Function.Injective (fun recorded => round recorded b) := by
  intro recorded recorded' same
  funext i
  have right : b.left i ^^^ recorded i = b.left i ^^^ recorded' i :=
    congrFun (congrArg Blocks.right same) i
  exact BitVec.xor_right_inj (b.left i) |>.mp right

theorem round_injective (f : (ι → BitVec w) → ι → BitVec w)
    : Function.Injective (fun b : Blocks ι w => round (f b.right) b) := by
  intro b b' same
  have right : b.right = b'.right := congrArg Blocks.left same
  have left : b.left = b'.left := by
    funext i
    have xored : b.left i ^^^ f b.right i = b'.left i ^^^ f b'.right i :=
      congrFun (congrArg Blocks.right same) i
    rw [right] at xored
    exact BitVec.xor_left_inj (f b'.right i) |>.mp xored
  exact Blocks.ext left right

/-- A run of rounds: the blocks before every round, and what every round records. -/
structure Run (ι : Type) (w : Nat) (rounds : Nat) where
  blocks : Nat → Blocks ι w
  recorded : Nat → ι → BitVec w
  follows : ∀ k < rounds, blocks (k + 1) = round (recorded k) (blocks k)

namespace Run

variable {rounds : Nat}

/-- Both runs use one function from the right half to the recorded vector in a round. -/
def Alike (run run' : Run ι w rounds) (k : Nat) : Prop :=
  ∃ f : (ι → BitVec w) → ι → BitVec w,
    run.recorded k = f (run.blocks k).right ∧ run'.recorded k = f (run'.blocks k).right

theorem Alike.blocks_eq_iff {run run' : Run ι w rounds} {k : Nat} (alike : run.Alike run' k)
    (inside : k < rounds)
    : run.blocks (k + 1) = run'.blocks (k + 1) ↔ run.blocks k = run'.blocks k := by
  obtain ⟨f, here, there⟩ := alike
  rw [run.follows k inside, run'.follows k inside, here, there]
  exact (round_injective f).eq_iff

/-- Two runs from equal blocks in which exactly one round records different vectors end in
different blocks. Witness: induction up to that round, and from it to the end.
-/
theorem blocks_ne_of_one_difference {run run' : Run ι w rounds}
    (start : run.blocks 0 = run'.blocks 0) {p : Nat} (inside : p < rounds)
    (alike : ∀ k < rounds, k ≠ p → run.Alike run' k)
    (ne : run.recorded p ≠ run'.recorded p)
    : run.blocks rounds ≠ run'.blocks rounds := by
  have before (k : Nat) (early : k ≤ p) : run.blocks k = run'.blocks k := by
    induction k with
    | zero => exact start
    | succ k ih =>
      exact ((alike k (by omega) (by omega)).blocks_eq_iff (by omega)).mpr (ih (by omega))
  have here : run.blocks (p + 1) ≠ run'.blocks (p + 1) := by
    rw [run.follows p inside, run'.follows p inside, before p (Nat.le_refl p)]
    exact fun same => ne (round_injective_recorded _ same)
  have after (n : Nat) (late : p + 1 + n ≤ rounds)
      : run.blocks (p + 1 + n) ≠ run'.blocks (p + 1 + n) := by
    induction n with
    | zero => exact here
    | succ n ih =>
      exact fun same => ih (by omega)
        (((alike (p + 1 + n) (by omega) (by omega)).blocks_eq_iff (by omega)).mp same)
  have last := after (rounds - (p + 1)) (by omega)
  rwa [Nat.add_sub_cancel' (by omega)] at last

end Run

end Feistel
