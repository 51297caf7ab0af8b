import FastPokeEmu.Floppy.Round

/-! A machine with flat segments and without paging, as the base system sets it up: every
address denotes itself.
-/

namespace FastPokeEmu.Floppy

open ByteMemory
open BitVec (ofNat toNat toNat_ofNat)

def flat : Translation := fun _ a => a

theorem flat_near : flat.Near := by
  intro sg a i j small small' same
  have equal : ofNat 32 i = ofNat 32 j := (BitVec.add_right_inj a).mp same
  have values := congrArg toNat equal
  simp only [toNat_ofNat] at values
  omega

/-- Only the zero flag of the arithmetic flags is kept track of. -/
def flatCpu : Cpu where
  translation _ _ _ := flat
  near _ _ _ := flat_near
  descriptor _ _ := 0
  flags _ a b _ := if a == b then 0x40 else 0
  flags_cmp a b old := by
    cases same : a == b <;> simp only [Bool.false_eq_true, if_true, if_false] <;> decide
  pushed eflags := eflags
  popped _ value := value
  popped_mask _ _ := rfl
  label _ := 0

/-- Blocks of a memory operand from an address on. Together with the scratch word they lie below
the data area.
-/
def lowOperand (b idx i : Nat) : Word := ofNat 32 (b + 4 * idx + i)

def lowScratch : Nat := 0x600000

theorem flat_data (a i : Nat) : flat.data a i = ofNat 32 (a + i) := Layout.data_eq flat a i

/-- Small operands, scratch words and the data area do not overlap. -/
theorem flat_layout {n b : Nat} (fits : 0x500000 ≤ b ∧ b + 4 * n ≤ lowScratch)
    : Layout flat (fun j : Fin n => lowOperand b j) lowScratch where
  dataApart a b low high low' high' same := by
    have values := congrArg toNat same
    simp only [flat, toNat_ofNat, endAddr] at values high high'
    omega
  operandApart j j' i i' small small' same := by
    have values := congrArg toNat same
    simp only [lowOperand, toNat_ofNat, lowScratch] at values fits
    have := j.isLt
    have := j'.isLt
    refine ⟨Fin.ext ?_, ?_⟩ <;> omega
  operandData j i a small low high same := by
    have values := congrArg toNat same
    simp only [flat, lowOperand, toNat_ofNat, endAddr, edataAddr, lowScratch]
      at values low high fits
    have := j.isLt
    omega
  scratchApart i i' small small' same := by
    rw [flat_data, flat_data] at same
    have values := congrArg toNat same
    simp only [lowScratch, toNat_ofNat] at values
    omega
  scratchData i a small low high same := by
    rw [flat_data] at same
    have values := congrArg toNat same
    simp only [flat, lowScratch, toNat_ofNat, endAddr, edataAddr] at values low high
    omega
  scratchOperand i j i' small small' same := by
    rw [flat_data] at same
    have values := congrArg toNat same
    simp only [lowOperand, lowScratch, toNat_ofNat] at values fits
    have := j.isLt
    omega

/-- A stack pointer below the operand, with room for what the gadgets push. -/
def LowStack (s : St) : Prop := 0x3fff00 ≤ (s.gpr .esp).toNat ∧ (s.gpr .esp).toNat ≤ 0x400000

instance (s : St) : Decidable (LowStack s) := inferInstanceAs (Decidable (_ ∧ _))

/-- A run is safe if the stack pointer stays in its place. -/
theorem flat_safeRun {n b : Nat} (fits : 0x500000 ≤ b ∧ b + 4 * n ≤ lowScratch) {s : St}
    {code : List Asm} (stack : ∀ step ∈ flatCpu.steps s code, LowStack step.1)
    : flatCpu.SafeRun (flat_layout fits).words flat s code := by
  intro step mem
  obtain ⟨low, high⟩ := stack step mem
  refine ⟨rfl, fun i small k j small' same => ?_⟩
  have place : flatCpu.slotPlace step.1 i = step.1.gpr .esp - 4 + ofNat 32 i := rfl
  have slot : (flatCpu.slotPlace step.1 i).toNat = (step.1.gpr .esp).toNat - 4 + i := by
    rw [place]
    bv_omega
  have upper : (flatCpu.slotPlace step.1 i).toNat < 0x500000 := by omega
  have lower : 0x500000 ≤ ((flat_layout fits).words.place k j).toNat := by
    cases k with
    | data a =>
      obtain ⟨a, above, below, _⟩ := a
      show 0x500000 ≤ (flat.data a j).toNat
      rw [flat_data, toNat_ofNat]
      simp only [edataAddr, endAddr] at above below
      omega
    | operand idx =>
      show 0x500000 ≤ (lowOperand b idx j).toNat
      simp only [lowOperand, toNat_ofNat, lowScratch] at fits ⊢
      have := idx.isLt
      omega
    | scratch =>
      show 0x500000 ≤ (flat.data lowScratch j).toNat
      rw [flat_data, toNat_ofNat]
      simp only [lowScratch]
      omega
  rw [same] at upper
  omega

def fixedChoices : Choices := ⟨fun _ => lowScratch, fun _ => 0⟩

/-- Memory that holds some words, and zeros elsewhere. -/
def memoryWith : List (Nat × Word) → Word → Byte
  | [] => fun _ => 0
  | (a, value) :: rest => write (memoryWith rest) (flat.data a) value 4

def flatState (gpr : Gpr → Word) (words : List (Nat × Word)) : St :=
  ⟨gpr, 0, fun _ => 0, fun _ => 0, fun _ => 0, fun _ => 0, fun _ => 0, memoryWith words⟩

def flatSetting : Setting := ⟨flatCpu, flat⟩

/-- Lists of a test case, as far as a round needs them. -/
def testLists (inst : Inst) (order : HashOrder) (test : Nat)
    : Option (Root × GenState × List Gadget × Gadget) := do
  let (root, st) ← generate inst fixedChoices 2 test
  let post ← sortGadget order (root.output ++ root.restore)
  let copyR ← mergeCopyR root.backupR
  some (root, st, post, copyR)

theorem testLists_spec {inst : Inst} {order : HashOrder} {test : Nat}
    {lists : Root × GenState × List Gadget × Gadget} (made : testLists inst order test = some lists)
    : generate inst fixedChoices 2 test = some (lists.1, lists.2.1)
      ∧ sortGadget order (lists.1.output ++ lists.1.restore) = some lists.2.2.1
      ∧ mergeCopyR lists.1.backupR = some lists.2.2.2 := by
  simp only [testLists, Option.bind_eq_bind, Option.bind_eq_some_iff, Prod.exists] at made
  obtain ⟨_, _, generated, _, sorted, _, merged, final⟩ := made
  cases final
  exact ⟨generated, sorted, merged⟩

/-- A round of a test case, with the effect of installing the inputs and running the code. -/
def flatRound (inst : Inst) (order : HashOrder) (test b : Nat) (start : St) (effect : St → St)
    (before : Gpr → Word) (succeeds : (testLists inst order test).isSome = true)
    : Round inst fixedChoices 2 :=
  let lists := (testLists inst order test).get succeeds
  have spec := testLists_spec (Option.some_get succeeds).symm
  { test := test
    root := lists.1
    st := lists.2.1
    made := spec.1
    order := order
    post := lists.2.2.1
    sorted := spec.2.1
    copyR := lists.2.2.2
    merged := spec.2.2
    start := start
    tested := effect (flatCpu.run start lists.2.2.2.asm)
    before := before
    operand := lowOperand b }

section

variable {inst : Inst} (round : Round inst fixedChoices 2)

/-- Code that only stores a register has stored the old value. -/
def holdsSaved : List Asm → Bool
  | [.ins (.store r m)] => dataWord flat round.tested (m.disp.getD 0).toNat == round.before r.reg
  | _ => true

/-- The text of a block denotes its place. -/
def holdsLocated : Item → Bool
  | .block idx =>
    (List.range 4).all fun i =>
      (inst.text idx).offset round.used + ofNat 32 i == round.operand idx i
  | _ => true

variable {round}

/-- All assumptions about a round on the flat machine can be evaluated. -/
theorem regular_of_checks {b : Nat} (operand : round.operand = lowOperand b)
    (fits : 0x500000 ≤ b ∧ b + 4 * inst.span ≤ lowScratch)
    (copy : ∀ step ∈ flatCpu.steps round.start round.copyR.asm, LowStack step.1)
    (tail : ∀ step ∈ flatCpu.steps round.tested round.tailCode, LowStack step.1)
    (installed
      : ∀ a ∈ round.st.feistelL ++ round.st.feistelR ++ round.st.feistelRBak,
          dataWord flat round.tested a = dataWord flat (flatCpu.run round.start round.copyR.asm) a)
    (saved : ∀ g ∈ round.root.backup, holdsSaved round g.asm = true)
    (located : ∀ item ∈ inst.loads ++ inst.stores, holdsLocated round item = true)
    : round.Regular flatSetting := by
  obtain ⟨_, _, _, _, _, _, _, _, _, _, _, _, _⟩ := round
  cases operand
  refine ⟨fun _ => flat_layout fits, fun _ => flat_safeRun fits copy,
    fun _ => flat_safeRun fits tail, installed, fun g mem r a asm => ?_, fun idx mem i small => ?_⟩
  · have holds := saved g mem
    rw [asm] at holds
    exact beq_iff_eq.mp holds
  · have holds := located _ mem
    exact beq_iff_eq.mp (List.all_eq_true.mp holds i (List.mem_range.mpr small))

end

end FastPokeEmu.Floppy
