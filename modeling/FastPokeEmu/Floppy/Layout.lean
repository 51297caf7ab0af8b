import FastPokeEmu.Floppy.Recording
import FastPokeEmu.Floppy.Generated

/-! Where the words are that a round works on: the data area of the generator, the blocks of
the memory operand and a scratch word.
-/

namespace FastPokeEmu.Floppy

open ByteMemory
open BitVec (ofNat)

/-- Addresses of words in the generator's data area, exception data included. -/
def IsData (a : Nat) : Prop := edataAddr ≤ a ∧ a + 4 ≤ endAddr ∧ a % 4 = 0

instance (a : Nat) : Decidable (IsData a) := inferInstanceAs (Decidable (_ ∧ _ ∧ _))

/-- Keys of the words. -/
inductive Slot (n : Nat)
  | data (a : {a : Nat // IsData a})
  | operand (j : Fin n)
  | scratch
  deriving DecidableEq

namespace Slot

variable {n : Nat}

/-- The word at an address of the data area. -/
def word (a : Nat) : Slot n := if isData : IsData a then .data ⟨a, isData⟩ else .scratch

theorem word_eq {a : Nat} (isData : IsData a) : (word a : Slot n) = .data ⟨a, isData⟩ :=
  dif_pos isData

theorem word_injective {a b : Nat} (isData : IsData a) (isData' : IsData b)
    (same : (word a : Slot n) = word b)
    : a = b := by
  rw [word_eq isData, word_eq isData'] at same
  cases same
  rfl

/-- A block of the memory operand. -/
def block (idx : Nat) : Slot n := if inside : idx < n then .operand ⟨idx, inside⟩ else .scratch

theorem block_injective {idx idx' : Nat} (inside : idx < n)
    (same : (block idx : Slot n) = block idx')
    : idx = idx' := by
  unfold block at same
  rw [dif_pos inside] at same
  split at same
  · cases same
    rfl
  · cases same

theorem word_ne_block {a : Nat} (isData : IsData a) (idx : Nat)
    : (word a : Slot n) ≠ block idx := by
  rw [word_eq isData, block]
  split <;> simp

theorem block_ne_scratch {idx : Nat} (inside : idx < n) : (block idx : Slot n) ≠ .scratch := by
  simp [block, inside]

theorem word_ne_scratch {a : Nat} (isData : IsData a) : (word a : Slot n) ≠ .scratch := by
  simp [word_eq isData]

end Slot

/-- Physical address of a byte of the data segment. -/
def Translation.data (τ : Translation) (a i : Nat) : Word :=
  τ .ds (ofNat 32 a + ofNat 32 i)

/-- From some address on, the bytes of the data area have places of their own. -/
def Translation.Apart (τ : Translation) (low : Nat) : Prop :=
  ∀ a b,
    low ≤ a → a < endAddr → low ≤ b → b < endAddr → τ .ds (ofNat 32 a) = τ .ds (ofNat 32 b) → a = b

/-- The words do not overlap. -/
structure Layout (τ : Translation) {n : Nat} (operand : Fin n → Nat → Word) (scratch : Nat)
    : Prop where
  dataApart : τ.Apart edataAddr
  operandApart : ∀ j j' i i', i < 4 → i' < 4 → operand j i = operand j' i' → j = j' ∧ i = i'
  operandData
    : ∀ j i a,
        i < 4 → edataAddr ≤ a → a < endAddr → operand j i ≠ τ .ds (ofNat 32 a)
  scratchApart
    : ∀ i i', i < 4 → i' < 4 → τ.data scratch i = τ.data scratch i' → i = i'
  scratchData
    : ∀ i a,
        i < 4 → edataAddr ≤ a → a < endAddr → τ.data scratch i ≠ τ .ds (ofNat 32 a)
  scratchOperand : ∀ i j i', i < 4 → i' < 4 → τ.data scratch i ≠ operand j i'

namespace Layout

variable {τ : Translation} {n : Nat} {operand : Fin n → Nat → Word} {scratch : Nat}

def place (τ : Translation) (operand : Fin n → Nat → Word) (scratch : Nat)
    : Slot n → Nat → Word
  | .data a => τ.data a
  | .operand j => operand j
  | .scratch => τ.data scratch

theorem data_eq (τ : Translation) (a i : Nat) : τ.data a i = τ .ds (ofNat 32 (a + i)) := by
  rw [Translation.data, BitVec.ofNat_add]

/-- The family of words. -/
def words (layout : Layout τ operand scratch) : Words (Slot n) Word where
  place := place τ operand scratch
  distinct := by
    intro k k' i i' small small' same
    cases k with
    | data a =>
      obtain ⟨a, low, high, aligned⟩ := a
      cases k' with
      | data b =>
        obtain ⟨b, low', high', aligned'⟩ := b
        simp only [place, data_eq] at same
        have equal := layout.dataApart (a + i) (b + i') (by omega) (by omega) (by omega)
          (by omega) same
        have first : a = b := by omega
        exact ⟨by simp [first], by omega⟩
      | operand j =>
        simp only [place, data_eq] at same
        exact absurd same.symm (layout.operandData j i' (a + i) small' (by omega) (by omega))
      | scratch =>
        simp only [place, data_eq τ a] at same
        exact absurd same.symm (layout.scratchData i' (a + i) small' (by omega) (by omega))
    | operand j =>
      cases k' with
      | data b =>
        obtain ⟨b, low', high', aligned'⟩ := b
        simp only [place, data_eq] at same
        exact absurd same (layout.operandData j i (b + i') small (by omega) (by omega))
      | operand j' =>
        obtain ⟨equal, position⟩ := layout.operandApart j j' i i' small small' same
        exact ⟨by rw [equal], position⟩
      | scratch => exact absurd same.symm (layout.scratchOperand i' j i small' small)
    | scratch =>
      cases k' with
      | data b =>
        obtain ⟨b, low', high', aligned'⟩ := b
        simp only [place, data_eq τ b] at same
        exact absurd same (layout.scratchData i (b + i') small (by omega) (by omega))
      | operand j => exact absurd same (layout.scratchOperand i j i' small small')
      | scratch => exact ⟨rfl, layout.scratchApart i i' small small' same⟩

/-- Content of a word. -/
def value (layout : Layout τ operand scratch) (s : St) (k : Slot n) : Word :=
  layout.words.value s.mem k

theorem offset_abs (a : Nat) (gpr : Gpr → Word) : (MemOp.abs a).offset gpr = ofNat 32 a := by
  simp [MemOp.offset, MemOp.abs, BitVec.ofInt_natCast]

theorem points_data (layout : Layout τ operand scratch) (gpr : Gpr → Word) {a : Nat}
    (isData : IsData a)
    : Points layout.words τ gpr (.abs a) (.word a) := by
  intro i _
  rw [offset_abs, Slot.word_eq isData]
  rfl

theorem points_scratch (layout : Layout τ operand scratch) (gpr : Gpr → Word)
    : Points layout.words τ gpr (.abs scratch) .scratch := by
  intro i _
  rw [offset_abs]
  rfl

end Layout

end FastPokeEmu.Floppy
