import FastPokeEmu.Floppy.BlockBounds
import FastPokeEmu.Floppy.BlockFrames
import FastPokeEmu.Floppy.PagingTests

/-! The list that installs the inputs of a test case. The gadgets of parameters, of backups and
of inputs and the copy of the R blocks are sorted together, and nothing orders the copy and the
inputs. The only gadgets that change a block which is still needed are those that set EFLAGS:
they mask their R block in place, before or after it is copied.
-/

namespace FastPokeEmu.Floppy

open ByteMemory List GenState Cpu

variable {c : Column}

/-- Among the blocks, the instruction writes to those given only, and at most a word. -/
def Ins.WritesOnly (st : GenState) (own : List Nat) (i : Ins) : Prop :=
  ∀ a ∈ st.batch.words, ∀ n, i.dest = some (.abs a, n) → n ≤ 4 ∧ a ∈ own

namespace Ins.WritesOnly

variable {st : GenState} {own own' : List Nat} {i : Ins}

theorem of_none (none : i.dest = none) : i.WritesOnly st own := by
  intro a _ n dest
  rw [none] at dest
  cases dest

theorem of_dest {m : MemOp} {bytes : Nat} (dest : i.dest = some (m, bytes)) (small : bytes ≤ 4)
    (inside : ∀ a ∈ st.batch.words, m = .abs a → a ∈ own)
    : i.WritesOnly st own := by
  intro a block n named
  rw [dest] at named
  cases named
  exact ⟨small, inside a block rfl⟩

theorem of_abs {a bytes : Nat} (dest : i.dest = some (.abs a, bytes)) (small : bytes ≤ 4)
    (mem : a ∈ own)
    : i.WritesOnly st own := by
  refine of_dest dest small (fun b _ same => ?_)
  rw [← MemOp.abs_injective same]
  exact mem

theorem mono (only : i.WritesOnly st own) (sub : own ⊆ own') : i.WritesOnly st own' := by
  intro a block n dest
  obtain ⟨small, mem⟩ := only a block n dest
  exact ⟨small, sub mem⟩

theorem narrow (only : i.WritesOnly st own) : i.Narrow st.batch.words :=
  fun a block n dest => (only a block n dest).1

theorem away (only : i.WritesOnly st own) {a : Nat} (block : a ∈ st.batch.words)
    (other : a ∉ own)
    : ¬ i.Writes a := by
  intro writes
  obtain ⟨n, dest⟩ := Ins.writes_iff.mp writes
  exact other (only a block n dest).2

end Ins.WritesOnly

/-- General purpose registers and EFLAGS. -/
def RegName.Core : RegName → Prop
  | .gpr _ | .eflags => True
  | _ => False

/-- General purpose registers, EFLAGS and memory. -/
def Item.Core : Item → Prop
  | .reg name _ => name.Core
  | .block _ => True

def Item.isFlags : Item → Bool
  | .reg .eflags _ => true
  | _ => false

section

variable {inst : Inst} {choices : Choices} {st : GenState} {own : List Nat} {name : RegName}
  {tb : Tables} {asm : List Asm} {a bak src size len : Nat} {g : Gadget}
  {backup restore : List Gadget}

theorem reg2MemAsm_writesOnly (core : name.Core)
    (code : reg2MemAsm name (.abs bak) size = some asm)
    : ∀ i ∈ Cpu.instructions asm, i.WritesOnly st [bak] := by
  refine forall_iff_forall_mem.mp ?_
  cases name with
  | gpr r =>
    obtain ⟨part, rfl⟩ := reg2MemAsm_gpr code
    exact Ins.WritesOnly.of_abs rfl part.bytes_le mem_cons_self
  | eflags =>
    cases code
    exact ⟨.of_none rfl, .of_abs rfl (Nat.le_refl 4) mem_cons_self⟩
  | _ => exact core.elim

theorem RegName.Core.resize {whole : RegName} (core : name.Core)
    (resized : resizeReg name size = some whole)
    : whole.Core := by
  cases name with
  | gpr r =>
    obtain ⟨part, rfl⟩ := resizeReg_gpr resized
    trivial
  | eflags =>
    cases resized
    trivial
  | _ => exact core.elim

theorem registerBackup_writesOnly {mnemonic : String} (core : name.Core)
    (made : registerBackup tb name bak len mnemonic = some (backup, restore))
    : ∀ g ∈ backup, ∀ i ∈ Cpu.instructions g.asm, i.WritesOnly st [bak] := by
  unfold registerBackup at made
  split at made
  · exact core.elim
  · simp only [Option.bind_eq_bind, Option.bind_eq_some_iff] at made
    obtain ⟨whole, resized, saving, saved, _, _, final⟩ := made
    cases final
    intro g mem
    rw [mem_singleton.mp mem]
    exact reg2MemAsm_writesOnly (core.resize resized) (genReg2Mem_spec saved).1

theorem genStoreMem_writesOnly (m : MemOp)
    : ∀ i ∈ Cpu.instructions (genStoreMem tb m (.abs bak)).asm, i.WritesOnly st [bak] :=
  forall_instructions (copyWord m (.abs bak))
    ⟨.of_none rfl, .of_abs rfl (Nat.le_refl 4) mem_cons_self⟩ rfl

theorem genStoreChangeMem_writesOnly {m : MemOp} {mnemonic : String}
    (apart : ∀ a, m = .abs a → a ∉ st.batch.words)
    : ∀ i ∈ Cpu.instructions (genStoreChangeMem tb (.abs src) m mnemonic).asm,
        i.WritesOnly st own := by
  rw [genStoreChangeMem_asm]
  refine forall_iff_forall_mem.mp ⟨.of_none rfl, .of_none rfl, .of_none rfl, ?_⟩
  exact .of_dest rfl (Nat.le_refl 4) (fun a block same => absurd block (apart a same))

theorem mem2RegAsm_writesOnly (st : GenState) (own : List Nat) (core : name.Core)
    (code : mem2RegAsm (.abs src) name size = some asm)
    : (name ≠ .eflags ∧ ∀ i ∈ Cpu.instructions asm, i.WritesOnly st own)
      ∨ (name = .eflags ∧ asm = flagsAsm src) := by
  cases name with
  | gpr r =>
    refine Or.inl ⟨by simp, forall_iff_forall_mem.mp ?_⟩
    obtain ⟨part, rfl⟩ := mem2RegAsm_gpr code
    exact Ins.WritesOnly.of_none rfl
  | eflags =>
    cases code
    exact Or.inr ⟨rfl, rfl⟩
  | _ => exact core.elim

theorem writesOnly_of_absolutes (none : g.absolutes = [])
    : ∀ i ∈ Cpu.instructions g.asm, i.WritesOnly st own := by
  have operand {i : Ins} {m : MemOp} {n : Nat} (dest : i.dest = some (m, n))
      : m ∈ i.operands := by
    cases i with
    | store | storeSeg | storeExt | fstpt | movlImm | andlMem | popMem | movlLabel =>
      cases dest
      exact mem_singleton.mpr rfl
    | _ => cases dest
  intro i mem a _ n dest
  have listed : a ∈ g.absolutes := by
    refine mem_filterMap.mpr ⟨.abs a, ?_, rfl⟩
    exact mem_flatMap.mpr ⟨i, mem, operand dest⟩
  rw [none] at listed
  cases listed

theorem Saves.backup_writes {fresh : Bool} {item : Item}
    (saves : Saves inst tb bak fresh item backup restore) (core : item.Core) (saved : bak ∈ own)
    : ∀ g ∈ backup, ∀ i ∈ Cpu.instructions g.asm, i.WritesOnly st own := by
  have within : [bak] ⊆ own := cons_subset.mpr ⟨saved, nil_subset _⟩
  intro g mem i inside
  cases saves with
  | reg _ backed => exact (registerBackup_writesOnly core backed g mem i inside).mono within
  | block =>
    rw [mem_singleton.mp mem] at inside
    exact (genStoreMem_writesOnly _ i inside).mono within
  | old => cases mem

/-- What the gadgets of one input do to the blocks. -/
theorem Load.Valid.setinput_writes {load : Load} (valid : load.Valid inst st) (own : List Nat)
    (core : load.item.Core)
    (apart : ∀ idx, load.item = .block idx → ∀ a, inst.text idx = .abs a → a ∉ st.batch.words)
    : (load.item.isFlags = false
        ∧ ∀ g ∈ load.emitted.setinput, ∀ i ∈ Cpu.instructions g.asm, i.WritesOnly st own)
      ∨ (load.item.isFlags = true
        ∧ ∃ g, load.emitted.setinput = [g] ∧ g.asm = flagsAsm load.src) := by
  have sets := (loadEmitted_cases valid.emits).2.1
  generalize load.item = item at sets core apart ⊢
  generalize load.emitted.setinput = setinput at sets ⊢
  cases sets with
  | @reg name len _ made =>
    rcases mem2RegAsm_writesOnly st own core (genMem2Reg_code made)
      with ⟨other, only⟩ | ⟨rfl, code⟩
    · refine Or.inl ⟨?_, fun g mem i inside => only i ?_⟩
      · cases name with
        | eflags => exact absurd rfl other
        | _ => rfl
      · simp only [Cpu.instructions, flatMap_assoc]
        exact mem_flatMap.mpr ⟨g, mem, inside⟩
    · cases made
      exact Or.inr ⟨rfl, _, rfl, rfl⟩
  | @block idx =>
    refine Or.inl ⟨rfl, fun g mem i inside => ?_⟩
    rw [mem_singleton.mp mem] at inside
    exact genStoreChangeMem_writesOnly (apart idx rfl) i inside
  | old => exact Or.inl ⟨rfl, forall_mem_nil _⟩

end

/-- Blocks from which EFLAGS are set. -/
def Inst.flagBlocks (inst : Inst) (st : GenState) : List Nat :=
  ((indexed 0 inst.loads).filter (fun e => e.2.isFlags)).filterMap (fun e => st.feistelR[e.1]?)

theorem Inst.mem_flagBlocks {inst : Inst} {st : GenState} {a : Nat}
    : a ∈ inst.flagBlocks st
      ↔ ∃ e ∈ indexed 0 inst.loads, e.2.isFlags = true ∧ st.feistelR[e.1]? = some a := by
  simp [flagBlocks, and_assoc]

/-- The L and R blocks are as before, and the R blocks have been copied. -/
structure BlocksInstalled (τ : Translation) (st : GenState) (s s' : St) : Prop where
  l : ∀ a ∈ st.feistelL, dataWord τ s' a = dataWord τ s a
  r : ∀ a ∈ st.feistelR, dataWord τ s' a = dataWord τ s a
  copied
    : ∀ k a b : Nat,
        st.feistelR[k]? = some a → st.feistelRBak[k]? = some b → dataWord τ s' b = dataWord τ s a

/-- What matters of the gadgets of a pre list: one of them copies the R blocks, and the others
write backup words or mask blocks.
-/
structure PreGadgets (inst : Inst) (st : GenState) (copyR : Gadget) (others : List Gadget)
    : Prop where
  copies
    : copyR.asm
      = .ins (.push .eax)
        :: (copyCode (st.feistelR.zip st.feistelRBak) ++ [.ins (.pop .eax)])
  writes
    : ∀ g ∈ others, ∀ i ∈ Cpu.instructions g.asm,
        i.WritesOnly st (st.feistelIn ++ st.feistelOut)
        ∨ ∃ a ∈ inst.flagBlocks st, i = .andlMem flagMask (.abs a)
  masks : ∀ a ∈ inst.flagBlocks st, ∃ g ∈ others, g.asm = flagsAsm a

theorem mem_instructions_flatMap {gs : List Gadget} {i : Ins}
    : i ∈ Cpu.instructions (gs.flatMap Gadget.asm) ↔ ∃ g ∈ gs, i ∈ Cpu.instructions g.asm := by
  simp only [Cpu.instructions, flatMap_assoc, mem_flatMap]

theorem copyCode_writesOnly {st : GenState} {own : List Nat} {ps : List (Nat × Nat)}
    (targets : ∀ p ∈ ps, p.2 ∈ own)
    : ∀ i ∈ Cpu.instructions (copyCode ps), i.WritesOnly st own := by
  intro i mem
  simp only [copyCode, Cpu.instructions, flatMap_assoc] at mem
  obtain ⟨p, inside, here⟩ := mem_flatMap.mp mem
  refine forall_instructions (P := fun i => i.WritesOnly st own)
    (copyWord (.abs p.1) (.abs p.2)) ⟨.of_none rfl, ?_⟩ rfl i here
  exact .of_abs rfl (Nat.le_refl 4) (targets p inside)

theorem GenState.column_apart {st : GenState} {low high a : Nat} {c c' : Column}
    (allocated : Fresh low high st.batch.words) (here : a ∈ st.column c)
    (there : a ∈ st.column c')
    : c = c' := by
  obtain ⟨i, atI⟩ := mem_iff_getElem?.mp here
  obtain ⟨j, atJ⟩ := mem_iff_getElem?.mp there
  exact (column_injective allocated atI atJ).1

theorem GenState.mem_words_of_column {st : GenState} {a : Nat} (here : a ∈ st.column c)
    : a ∈ st.batch.words := by
  obtain ⟨i, atI⟩ := mem_iff_getElem?.mp here
  exact mem_words atI

namespace PreGadgets

variable {inst : Inst} {st : GenState} {copyR : Gadget} {others gs : List Gadget}
  {low high a b : Nat} {cpu : Cpu} {τ : Translation} {s : St}

theorem flagBlocks_subset (mem : a ∈ inst.flagBlocks st) : a ∈ st.column .r := by
  obtain ⟨_, _, _, here⟩ := Inst.mem_flagBlocks.mp mem
  exact mem_of_getElem? here

theorem copyR_writes (pre : PreGadgets inst st copyR others)
    : ∀ i ∈ Cpu.instructions copyR.asm, i.WritesOnly st st.feistelRBak := by
  have targets (p : Nat × Nat) (mem : p ∈ st.feistelR.zip st.feistelRBak)
      : p.2 ∈ st.feistelRBak := (of_mem_zip mem).2
  intro i mem
  rw [pre.copies, ← singleton_append, instructions_append, instructions_append]
    at mem
  rcases mem_append.mp mem with push | rest
  · rw [mem_singleton.mp push]
    exact .of_none rfl
  · rcases mem_append.mp rest with copy | pop
    · exact copyCode_writesOnly targets i copy
    · rw [mem_singleton.mp pop]
      exact .of_none rfl

theorem notMem_backups (allocated : Fresh low high st.batch.words) (here : a ∈ st.column c)
    (notIns : c ≠ .ins) (notOuts : c ≠ .outs)
    : a ∉ st.feistelIn ++ st.feistelOut := by
  intro saved
  rcases mem_append.mp saved with input | output
  · exact notIns (column_apart allocated here (show a ∈ st.column .ins from input))
  · exact notOuts (column_apart allocated here (show a ∈ st.column .outs from output))

section

variable (pre : PreGadgets inst st copyR others) (allocated : Fresh low high st.batch.words)
  {g : Gadget}

include pre

theorem narrow (listed : g ∈ copyR :: others) {i : Ins} (inside : i ∈ Cpu.instructions g.asm)
    : i.Narrow st.batch.words := by
  rcases mem_cons.mp listed with rfl | other
  · exact (pre.copyR_writes i inside).narrow
  · rcases pre.writes g other i inside with only | ⟨a, _, rfl⟩
    · exact only.narrow
    · intro b _ n dest
      cases dest
      exact Nat.le_refl 4

include allocated

/-- Of the L and R blocks, only those of EFLAGS are written, and they are masked. -/
theorem masked_of_writes (listed : g ∈ copyR :: others) {i : Ins}
    (inside : i ∈ Cpu.instructions g.asm) (here : a ∈ st.column c) (lr : c = .l ∨ c = .r)
    (writes : i.Writes a)
    : a ∈ inst.flagBlocks st ∧ i = .andlMem flagMask (.abs a) := by
  have block := mem_words_of_column here
  rcases mem_cons.mp listed with rfl | other
  · refine absurd writes ((pre.copyR_writes i inside).away block (fun copy => ?_))
    have same := column_apart allocated here (show a ∈ st.column .rBak from copy)
    rcases lr with rfl | rfl <;> cases same
  · rcases pre.writes g other i inside with only | ⟨b, flags, rfl⟩
    · refine absurd writes (only.away block (notMem_backups allocated here ?_ ?_))
      · rcases lr with rfl | rfl <;> simp
      · rcases lr with rfl | rfl <;> simp
    · have same : b = a := MemOp.abs_injective (Option.some.inj writes)
      subst same
      exact ⟨flags, rfl⟩

theorem not_writes_copy (other : g ∈ others) {i : Ins} (inside : i ∈ Cpu.instructions g.asm)
    (copy : b ∈ st.column .rBak)
    : ¬ i.Writes b := by
  rcases pre.writes g other i inside with only | ⟨a, flags, rfl⟩
  · exact only.away (mem_words_of_column copy) (notMem_backups allocated copy (by simp) (by simp))
  · intro writes
    have same : a = b := MemOp.abs_injective (Option.some.inj writes)
    subst same
    cases column_apart allocated copy (flagBlocks_subset flags)

end

section

variable (pre : PreGadgets inst st copyR others) (allocated : Fresh low high st.batch.words)
  (perm : gs.Perm (copyR :: others)) (spread : τ.Spread st.batch.words)

include pre allocated perm spread

section

variable {code : List Asm}
  (listed : ∀ i ∈ Cpu.instructions code, i ∈ Cpu.instructions (gs.flatMap Gadget.asm))
  (spares : cpu.SparesRun τ st.batch.words s code)

include listed spares

theorem keeps (here : a ∈ st.column c)
    (lr : c = .l ∨ c = .r) (unmasked : a ∉ inst.flagBlocks st)
    : dataWord τ (cpu.run s code) a = dataWord τ s a := by
  apply spares.kept spread ?_ (mem_words_of_column here)
  · intro i mem writes
    obtain ⟨g, inside, instruction⟩ := mem_instructions_flatMap.mp (listed i mem)
    exact unmasked (pre.masked_of_writes allocated (perm.subset inside) instruction here lr
      writes).1
  · intro i mem
    obtain ⟨g, inside, instruction⟩ := mem_instructions_flatMap.mp (listed i mem)
    exact pre.narrow (perm.subset inside) instruction

theorem masked_or (flags : a ∈ inst.flagBlocks st)
    : dataWord τ (cpu.run s code) a = dataWord τ s a
      ∨ dataWord τ (cpu.run s code) a = dataWord τ s a &&& flagMask := by
  have here := flagBlocks_subset flags
  apply spares.masked_or spread ?_ (mem_words_of_column here)
  · intro i mem writes
    obtain ⟨g, inside, instruction⟩ := mem_instructions_flatMap.mp (listed i mem)
    exact (pre.masked_of_writes allocated (perm.subset inside) instruction here (Or.inr rfl)
      writes).2
  · intro i mem
    obtain ⟨g, inside, instruction⟩ := mem_instructions_flatMap.mp (listed i mem)
    exact pre.narrow (perm.subset inside) instruction

end

variable (spares : cpu.SparesRun τ st.batch.words s (gs.flatMap Gadget.asm))

include spares

/-- Blocks of EFLAGS are masked by the whole list, wherever their gadget is in it. -/
theorem masked (flags : a ∈ inst.flagBlocks st)
    : dataWord τ (cpu.run s (gs.flatMap Gadget.asm)) a = dataWord τ s a &&& flagMask := by
  obtain ⟨g, other, code⟩ := pre.masks a flags
  have listed : g ∈ gs := perm.mem_iff.mpr (mem_cons_of_mem _ other)
  obtain ⟨front, back, split⟩ := append_of_mem listed
  have shape : gs.flatMap Gadget.asm
      = front.flatMap Gadget.asm
        ++ .ins (.andlMem flagMask (.abs a))
          :: ([.ins (.pushMem (.abs a)), .ins .popf] ++ back.flatMap Gadget.asm) := by
    rw [split, flatMap_append, flatMap_cons, code]
    rfl
  have ofInstruction (i : Ins) (mem : i ∈ Cpu.instructions (gs.flatMap Gadget.asm))
      : i.Narrow st.batch.words ∧ (i.Writes a → i = .andlMem flagMask (.abs a)) := by
    obtain ⟨g, inside, instruction⟩ := mem_instructions_flatMap.mp mem
    refine ⟨pre.narrow (perm.subset inside) instruction, fun writes => ?_⟩
    exact (pre.masked_of_writes allocated (perm.subset inside) instruction
      (flagBlocks_subset flags) (Or.inr rfl) writes).2
  rw [shape] at spares ofInstruction ⊢
  exact spares.masked spread (fun i mem => (ofInstruction i mem).1)
    (mem_words_of_column (flagBlocks_subset flags))
    (fun i mem => (ofInstruction i mem).2)

/-- R blocks are copied before or after they are masked. Witness: the copies that follow and
the gadgets after the copying one do not name the target.
-/
theorem copied (lengths : st.feistelR.length = st.feistelRBak.length) {k : Nat}
    (source : st.feistelR[k]? = some a) (target : st.feistelRBak[k]? = some b)
    : dataWord τ (cpu.run s (gs.flatMap Gadget.asm)) b = dataWord τ s a
      ∨ a ∈ inst.flagBlocks st
        ∧ dataWord τ (cpu.run s (gs.flatMap Gadget.asm)) b = dataWord τ s a &&& flagMask := by
  have inR : a ∈ st.column .r := mem_of_getElem? source
  have inBak : b ∈ st.column .rBak := mem_of_getElem? target
  obtain ⟨front, back, split⟩ := append_of_mem (perm.mem_iff.mpr mem_cons_self)
  have around : (front ++ back).Perm others := by
    rw [split] at perm
    exact (perm_middle.symm.trans perm).cons_inv
  have pair : (a, b) ∈ st.feistelR.zip st.feistelRBak :=
    mem_of_getElem? (List.getElem?_zip_eq_some.mpr ⟨source, target⟩)
  obtain ⟨done, rest, pairs⟩ := append_of_mem pair
  have shape : gs.flatMap Gadget.asm
      = (front.flatMap Gadget.asm ++ .ins (.push .eax) :: copyCode done)
        ++ .ins (.load (.abs a) ⟨.eax, .full⟩) :: .ins (.store ⟨.eax, .full⟩ (.abs b))
          :: (copyCode rest ++ .ins (.pop .eax) :: back.flatMap Gadget.asm) := by
    rw [split, flatMap_append, flatMap_cons, pre.copies, pairs]
    simp only [copyCode, flatMap_append, flatMap_cons, append_assoc, cons_append, nil_append]
    rfl
  have ne : b ∉ rest.map Prod.snd := by
    have targets : ((st.feistelR.zip st.feistelRBak).map Prod.snd).Nodup := by
      rw [map_snd_zip (Nat.le_of_eq lengths.symm)]
      exact column_nodup allocated .rBak
    rw [pairs, map_append, map_cons] at targets
    exact (nodup_cons.mp (nodup_append.mp targets).2.1).1
  have away (i : Ins)
      (mem : i ∈ Cpu.instructions (copyCode rest ++ .ins (.pop .eax) :: back.flatMap Gadget.asm))
      : ¬ i.Writes b := by
    rw [instructions_append, ← singleton_append, instructions_append] at mem
    rcases mem_append.mp mem with copy | last
    · have only : i.WritesOnly st (rest.map Prod.snd) :=
        copyCode_writesOnly (fun p inside => mem_map_of_mem inside) i copy
      exact only.away (mem_words_of_column inBak) ne
    · rcases mem_append.mp last with pop | gadget
      · rw [mem_singleton.mp pop]
        exact fun writes => by cases writes
      · obtain ⟨g, inside, instruction⟩ := mem_instructions_flatMap.mp gadget
        exact pre.not_writes_copy allocated (around.subset (mem_append_right _ inside))
          instruction inBak
  have listed (i : Ins) (mem : i ∈ Cpu.instructions (gs.flatMap Gadget.asm))
      : i.Narrow st.batch.words := by
    obtain ⟨g, inside, instruction⟩ := mem_instructions_flatMap.mp mem
    exact pre.narrow (perm.subset inside) instruction
  have parts := congrArg Cpu.instructions shape
  rw [instructions_append] at parts
  have inLeft (i : Ins)
      (mem
        : i ∈ Cpu.instructions (front.flatMap Gadget.asm ++ .ins (.push .eax) :: copyCode done))
      : i ∈ Cpu.instructions (gs.flatMap Gadget.asm) := by
    rw [parts]
    exact mem_append_left _ mem
  have inRight (i : Ins)
      (mem : i ∈ Cpu.instructions (copyCode rest ++ .ins (.pop .eax) :: back.flatMap Gadget.asm))
      : i ∈ Cpu.instructions (gs.flatMap Gadget.asm) := by
    rw [parts]
    exact mem_append_right _ (mem_cons_of_mem _ (mem_cons_of_mem _ mem))
  rw [shape] at spares
  have moved := spares.copied spread (fun i mem => listed i (inRight i mem))
    (mem_words_of_column inR) (mem_words_of_column inBak) away
  rw [← shape] at moved
  rw [moved]
  by_cases flags : a ∈ inst.flagBlocks st
  · have before := pre.masked_or allocated perm spread inLeft spares.append_left flags
    exact before.imp_right (And.intro flags)
  · exact Or.inl (pre.keeps allocated perm spread inLeft spares.append_left inR (Or.inr rfl) flags)

/-- The list leaves the blocks as they are, and the R blocks copied, exactly if the words from
which EFLAGS are set have no bits outside of the mask.
-/
theorem installed_iff (lengths : st.feistelR.length = st.feistelRBak.length)
    : BlocksInstalled τ st s (cpu.run s (gs.flatMap Gadget.asm))
      ↔ ∀ a ∈ inst.flagBlocks st, dataWord τ s a &&& flagMask = dataWord τ s a := by
  constructor
  · intro installed a flags
    rw [← pre.masked allocated perm spread spares flags]
    exact installed.r a (flagBlocks_subset flags)
  · intro within
    refine ⟨fun a left => ?_, fun a right => ?_, fun k a b source target => ?_⟩
    · refine pre.keeps allocated perm spread (fun _ mem => mem) spares (c := .l) left
        (Or.inl rfl) (fun flags => ?_)
      cases column_apart (c := .l) allocated left (flagBlocks_subset flags)
    · by_cases flags : a ∈ inst.flagBlocks st
      · rw [pre.masked allocated perm spread spares flags, within a flags]
      · exact pre.keeps allocated perm spread (fun _ mem => mem) spares (c := .r) right
          (Or.inr rfl) flags
    · rcases pre.copied allocated perm spread spares lengths source target
        with same | ⟨flags, masked⟩
      · exact same
      · rw [masked, within a flags]

end

end PreGadgets

end FastPokeEmu.Floppy
