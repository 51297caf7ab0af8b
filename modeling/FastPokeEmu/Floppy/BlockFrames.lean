import FastPokeEmu.Floppy.BlockAccesses

/-! What a run of generated code does to the words of blocks. As long as the stack, the operands
and the bytes of parameters lie elsewhere, a word changes only where an instruction names its
address. So the order of gadgets matters only for those that name the same word.
-/

namespace FastPokeEmu.Floppy

open ByteMemory List

/-- The operand in memory that an instruction writes, with the number of bytes. A byte that a
parameter sets is at an address of the test case's own, and does not count.
-/
def Ins.dest : Ins → Option (MemOp × Nat)
  | .store r m => some (m, r.part.bytes)
  | .storeSeg _ m => some (m, 2)
  | .storeExt n _ m => some (m, n)
  | .fstpt m => some (m, 10)
  | .movlImm _ m | .andlMem _ m | .popMem m | .movlLabel _ m => some (m, 4)
  | _ => none

/-- The instruction names the address as the one it writes to. -/
def Ins.Writes (i : Ins) (a : Nat) : Prop := i.dest.map Prod.fst = some (.abs a)

instance (i : Ins) (a : Nat) : Decidable (i.Writes a) := inferInstanceAs (Decidable (_ = _))

theorem Ins.writes_iff {i : Ins} {a : Nat} : i.Writes a ↔ ∃ n, i.dest = some (.abs a, n) := by
  simp [Writes]

/-- At most a word is written at each of the addresses. -/
def Ins.Narrow (words : List Nat) (i : Ins) : Prop :=
  ∀ a ∈ words, ∀ n, i.dest = some (.abs a, n) → n ≤ 4

/-- The words at these addresses have no byte in common. -/
def Translation.Spread (τ : Translation) (words : List Nat) : Prop :=
  ∀ a ∈ words, ∀ b ∈ words, ∀ j < 4, ∀ k < 4, τ.data a j = τ.data b k → a = b ∧ j = k

/-- Allocated words do not overlap, where the addresses of the data area are told apart. -/
theorem Fresh.spread {τ : Translation} {low high : Nat} {words : List Nat}
    (fresh : Fresh low high words) (start : startAddr ≤ low) (aligned : low % 4 = 0)
    (bounded : low ≤ endAddr) (apart : τ.Apart startAddr)
    : τ.Spread words := by
  intro a memberA b memberB j smallJ k smallK same
  obtain ⟨lowA, highA⟩ := fresh.inside a memberA
  obtain ⟨lowB, highB⟩ := fresh.inside b memberB
  have last := fresh.bounded bounded
  have alignedA := (fresh.aligned aligned).2 a memberA
  have alignedB := (fresh.aligned aligned).2 b memberB
  rw [Layout.data_eq, Layout.data_eq] at same
  have equal := apart (a + j) (b + k) (by omega) (by omega) (by omega) (by omega) same
  omega

namespace Cpu

variable (cpu : Cpu) (τ : Translation) (words : List Nat) {mask : Word} {left right : List Asm}

/-- Before the instruction the blocks are in their places, and it does not hit any of them
unless it names one.
-/
structure Spares (s : St) (i : Ins) : Prop where
  inPlace : ∀ a ∈ words, ∀ k < 4, cpu.place s (.abs a) k = τ.data a k
  elsewhere
    : (∀ a ∈ words, ¬ i.Writes a) → ∀ a ∈ words, ∀ k < 4, τ.data a k ∉ cpu.footprint s i

/-- Every executed instruction spares the blocks that it does not name. -/
def SparesRun (s : St) (code : List Asm) : Prop :=
  ∀ step ∈ cpu.steps s code, cpu.Spares τ words step.1 step.2

/-- Nothing moves the data area: neither a selector in DS nor a control register nor a byte of the
GDT or of the page tables gives the blocks other places.
-/
def Unmoved (s : St) (code : List Asm) : Prop :=
  ∀ step ∈ cpu.steps s code, ∀ a ∈ words, ∀ k ∈ List.range 4,
    cpu.place step.1 (.abs a) k = τ.data a k
deriving Decidable

/-- The stack, the operands and the bytes of parameters do not overlap the blocks. -/
def Avoids (s : St) (code : List Asm) : Prop :=
  ∀ step ∈ cpu.steps s code, (∀ a ∈ words, ¬ step.2.Writes a)
    → ∀ a ∈ words, ∀ k ∈ List.range 4, τ.data a k ∉ cpu.footprint step.1 step.2
deriving Decidable

variable {cpu τ words} {s : St} {i : Ins} {a b : Nat} {code : List Asm}

theorem Unmoved.spares (unmoved : cpu.Unmoved τ words s code) (avoids : cpu.Avoids τ words s code)
    : cpu.SparesRun τ words s code := by
  intro step mem
  refine ⟨fun a block k small => ?_, fun unnamed a block k small => ?_⟩
  · exact unmoved step mem a block k (mem_range.mpr small)
  · exact avoids step mem unnamed a block k (mem_range.mpr small)

theorem SparesRun.append_left (spares : cpu.SparesRun τ words s (left ++ right))
    : cpu.SparesRun τ words s left := by
  intro step mem
  apply spares step
  rw [steps_append]
  exact mem_append_left _ mem

theorem SparesRun.append_right (spares : cpu.SparesRun τ words s (left ++ right))
    : cpu.SparesRun τ words (cpu.run s left) right := by
  intro step mem
  apply spares step
  rw [steps_append]
  exact mem_append_right _ mem

theorem SparesRun.head {rest : List Asm}
    (spares : cpu.SparesRun τ words s (.ins i :: rest))
    : cpu.Spares τ words s i :=
  spares (s, i) mem_cons_self

theorem SparesRun.tail {rest : List Asm}
    (spares : cpu.SparesRun τ words s (.ins i :: rest))
    : cpu.SparesRun τ words (cpu.exec s i) rest :=
  fun step mem => spares step (mem_cons_of_mem _ mem)

theorem place_abs_drop (cpu : Cpu) (s : St) (a k : Nat)
    : cpu.place (drop s) (.abs a) k = cpu.place s (.abs a) k := by
  simp only [place, Layout.offset_abs]
  rfl

theorem footprint_of_dest {n : Nat} (dest : i.dest = some (.abs a, n))
    : cpu.footprint s i = cpu.places s (.abs a) n := by
  cases i with
  | popMem m =>
    cases dest
    exact map_congr_left (fun k _ => cpu.place_abs_drop s a k)
  | store | storeSeg | storeExt | fstpt | movlImm | andlMem | movlLabel =>
    cases dest
    rfl
  | _ => cases dest

/-- An instruction changes no block that it does not name. -/
theorem Spares.kept (spares : cpu.Spares τ words s i) (spread : τ.Spread words)
    (narrow : i.Narrow words) (block : a ∈ words) (away : ¬ i.Writes a)
    : dataWord τ (cpu.exec s i) a = dataWord τ s a := by
  refine read_congr (fun k small => cpu.exec_mem ?_)
  by_cases named : ∃ b ∈ words, i.Writes b
  · obtain ⟨b, other, writes⟩ := named
    obtain ⟨n, dest⟩ := Ins.writes_iff.mp writes
    have bound := narrow b other n dest
    rw [footprint_of_dest dest]
    intro inside
    obtain ⟨j, smallJ, same⟩ := cpu.mem_places.mp inside
    rw [spares.inPlace b other j (by omega)] at same
    have equal := (spread b other a block j (by omega) k small same).1
    exact away (equal ▸ writes)
  · apply spares.elsewhere ?_ a block k small
    intro b other writes
    exact named ⟨b, other, writes⟩

theorem Spares.word (spares : cpu.Spares τ words s i) (block : a ∈ words)
    : cpu.word s (.abs a) = dataWord τ s a :=
  read_congr (fun k small => by rw [spares.inPlace a block k small])

theorem Spares.put (spares : cpu.Spares τ words s i) (spread : τ.Spread words)
    (block : a ∈ words) (value : Word)
    : dataWord τ (cpu.put s (.abs a) value 4) a = value := by
  rw [Cpu.put, write_congr s.mem value (spares.inPlace a block)]
  exact read_write_all s.mem value rfl
    (fun j smallJ k smallK same => (spread a block a block j smallJ k smallK same).2)

theorem Spares.masked (spares : cpu.Spares τ words s (.andlMem mask (.abs a)))
    (spread : τ.Spread words) (block : a ∈ words)
    : dataWord τ (cpu.exec s (.andlMem mask (.abs a))) a = dataWord τ s a &&& mask := by
  rw [← spares.word block]
  exact spares.put spread block _

theorem Spares.copied {t : Gpr} (first : cpu.Spares τ words s (.load (.abs a) ⟨t, .full⟩))
    (second
      : cpu.Spares τ words (cpu.exec s (.load (.abs a) ⟨t, .full⟩))
          (.store ⟨t, .full⟩ (.abs b)))
    (spread : τ.Spread words) (source : a ∈ words) (target : b ∈ words)
    : dataWord τ
          (cpu.exec (cpu.exec s (.load (.abs a) ⟨t, .full⟩)) (.store ⟨t, .full⟩ (.abs b))) b
        = dataWord τ s a := by
  have carried : (cpu.exec s (.load (.abs a) ⟨t, .full⟩)).reg ⟨t, .full⟩
      = cpu.word s (.abs a) := Function.update_self ..
  rw [← first.word source, ← carried]
  exact second.put spread target _

section

variable (spares : cpu.SparesRun τ words s code) (spread : τ.Spread words)
  (narrow : ∀ i ∈ instructions code, i.Narrow words)

include spares spread narrow

theorem SparesRun.kept (block : a ∈ words) (away : ∀ i ∈ instructions code, ¬ i.Writes a)
    : dataWord τ (cpu.run s code) a = dataWord τ s a := by
  apply cpu.run_induction (P := fun s' => dataWord τ s' a = dataWord τ s a) ?_ rfl
  intro step mem same
  have inside := cpu.mem_instructions_of_steps mem
  exact ((spares step mem).kept spread (narrow _ inside) block (away _ inside)).trans same

/-- A block that instructions only mask is masked by a run, or unchanged. -/
theorem SparesRun.masked_or (block : a ∈ words)
    (only : ∀ i ∈ instructions code, i.Writes a → i = .andlMem mask (.abs a))
    : dataWord τ (cpu.run s code) a = dataWord τ s a
      ∨ dataWord τ (cpu.run s code) a = dataWord τ s a &&& mask := by
  apply cpu.run_induction
    (P := fun s' =>
      dataWord τ s' a = dataWord τ s a ∨ dataWord τ s' a = dataWord τ s a &&& mask)
    ?_ (Or.inl rfl)
  intro step mem current
  obtain ⟨before, i⟩ := step
  have inside := cpu.mem_instructions_of_steps mem
  have here := spares _ mem
  by_cases writes : i.Writes a
  · have masks : i = .andlMem mask (.abs a) := only i inside writes
    subst masks
    have after := here.masked spread block
    rcases current with same | masked
    · exact Or.inr (by rw [after, same])
    · exact Or.inr (by rw [after, masked, BitVec.and_assoc, BitVec.and_self])
  · have after := here.kept spread (narrow i inside) block writes
    exact current.imp after.trans after.trans

end

theorem instructions_append (left right : List Asm)
    : instructions (left ++ right) = instructions left ++ instructions right :=
  flatMap_append

/-- A block that instructions only mask is masked, if one of them is always executed. -/
theorem SparesRun.masked
    (spares : cpu.SparesRun τ words s (left ++ .ins (.andlMem mask (.abs a)) :: right))
    (spread : τ.Spread words)
    (narrow : ∀ i ∈ instructions (left ++ .ins (.andlMem mask (.abs a)) :: right), i.Narrow words)
    (block : a ∈ words)
    (only
      : ∀ i ∈ instructions (left ++ .ins (.andlMem mask (.abs a)) :: right),
          i.Writes a → i = .andlMem mask (.abs a))
    : dataWord τ (cpu.run s (left ++ .ins (.andlMem mask (.abs a)) :: right)) a
      = dataWord τ s a &&& mask := by
  have inLeft (i : Ins) (mem : i ∈ instructions left)
      : i ∈ instructions (left ++ .ins (.andlMem mask (.abs a)) :: right) := by
    rw [instructions_append]
    exact mem_append_left _ mem
  have inRight (i : Ins) (mem : i ∈ instructions right)
      : i ∈ instructions (left ++ .ins (.andlMem mask (.abs a)) :: right) := by
    rw [instructions_append]
    exact mem_append_right _ (mem_cons_of_mem _ mem)
  have before := spares.append_left.masked_or spread (fun i mem => narrow i (inLeft i mem))
    block (fun i mem => only i (inLeft i mem))
  have masking := spares.append_right.head.masked spread block
  have after := spares.append_right.tail.masked_or spread
    (fun i mem => narrow i (inRight i mem)) block
    (fun i mem => only i (inRight i mem))
  -- masking once more changes nothing
  have masked : dataWord τ (cpu.exec (cpu.run s left) (.andlMem mask (.abs a))) a
      = dataWord τ s a &&& mask := by
    rw [masking]
    rcases before with same | same
    · rw [same]
    · rw [same, BitVec.and_assoc, BitVec.and_self]
  rw [run_append, run_cons]
  rcases after with same | same
  · exact same.trans masked
  · rw [masked, BitVec.and_assoc, BitVec.and_self] at same
    exact same

/-- A block that is copied by two instructions, and not named after that. -/
theorem SparesRun.copied {t : Gpr}
    (spares
      : cpu.SparesRun τ words s
          (left ++ .ins (.load (.abs a) ⟨t, .full⟩) :: .ins (.store ⟨t, .full⟩ (.abs b)) :: right))
    (spread : τ.Spread words) (narrow : ∀ i ∈ instructions right, i.Narrow words)
    (source : a ∈ words) (target : b ∈ words) (away : ∀ i ∈ instructions right, ¬ i.Writes b)
    : dataWord τ
          (cpu.run s
            (left
              ++ .ins (.load (.abs a) ⟨t, .full⟩) :: .ins (.store ⟨t, .full⟩ (.abs b)) :: right))
          b
        = dataWord τ (cpu.run s left) a := by
  have copying := spares.append_right
  rw [run_append, run_cons, run_cons]
  exact (copying.tail.tail.kept spread narrow target away).trans
    (copying.head.copied copying.tail.head spread source target)

end Cpu

end FastPokeEmu.Floppy
