import FastPokeEmu.Floppy.PostGadgets
import FastPokeEmu.Library.Schedule

/-! What a sorted list of gadgets after the tested instruction does.
Every gadget has a specification; that it is met depends on the registers the earlier
gadgets have left, and hence on the declared dependencies.
-/

namespace FastPokeEmu.Floppy

open ByteMemory List Function Gadget Cpu

variable {a : Nat} {left right : Nat} {r : Gpr} {what : Recorded}

section

variable {τ : Translation} {n : Nat} {operand : Fin n → Nat → Word} {scratch : Nat}
  (layout : Layout τ operand scratch) (cpu : Cpu) (inst : Inst)

/-- The value that a Feistel gadget is meant to record. -/
def Recorded.value (s : St) : Recorded → Word
  | .gpr r => s.gpr r
  | .eflags => cpu.pushed s.eflags
  | .block idx => layout.value s (.block idx)
  | .exception a => layout.value s (.word a)

/-- Specification of a gadget. -/
structure Post.Does (p : Post) (s s' : St) : Prop where
  words : ∀ k ∉ p.targets, layout.value s' k = layout.value s k
  gprs : ∀ r ∉ p.touches inst, s'.gpr r = s.gpr r
  records
    : ∀ left right what,
        p = .record left right what
        → layout.value s' (.word right)
          = layout.value s (.word left) ^^^ what.value layout cpu s := by simp
  copies
    : ∀ left right,
        p = .surplus left right → layout.value s' (.word right) = layout.value s (.word left) := by
    simp
  restoresMem
    : ∀ bak idx,
        p = .restoreMem bak idx → layout.value s' (.block idx) = layout.value s (.word bak) := by
    simp
  restoresReg
    : ∀ r part bak,
        p = .restoreReg (.gpr ⟨r, part⟩) bak → s'.gpr r = layout.value s (.word bak) := by
    simp

variable {layout cpu inst} {s s' : St}

theorem Post.words_of_update {p : Post} {k : Slot n} {v : Word}
    (words : layout.words.value s'.mem = update (layout.words.value s.mem) k v)
    (target : k ∈ p.targets)
    : ∀ k' ∉ p.targets, layout.value s' k' = layout.value s k' := by
  intro k' away
  refine (congrFun words k').trans (update_of_ne ?_ _ _)
  rintro rfl
  exact away target

/-- Recording gadgets, from what they do to the words and the registers. -/
theorem Post.Does.of_record (scratched : Word)
    (words
      : layout.words.value s'.mem
        = update
            (if what = .eflags then
              update (layout.words.value s.mem) .scratch scratched
            else layout.words.value s.mem)
            (.word right)
            (layout.value s (.word left) ^^^ what.value layout cpu s))
    (gprs : ∀ r ∉ (Post.record left right what).touches inst, s'.gpr r = s.gpr r)
    : (Post.record left right what).Does layout cpu inst s s' where
  words := by
    intro k away
    have notRight : k ≠ .word right := by
      rintro rfl
      cases what <;> simp [Post.targets] at away
    rw [Layout.value, words, update_of_ne notRight]
    split
    next isFlags =>
      subst isFlags
      have notScratch : k ≠ .scratch := by
        rintro rfl
        simp [Post.targets] at away
      rw [update_of_ne notScratch, Layout.value]
    · rfl
  gprs := gprs
  records := by
    rintro _ _ _ ⟨⟩
    rw [Layout.value, words, update_self]

end

section

variable {τ : Translation} {n : Nat} {operand : Fin n → Nat → Word} {scratch : Nat}
  {layout : Layout τ operand scratch} {cpu : Cpu} {inst : Inst} {fin : GenState} {p : Post}
  {g : Gadget} {s : St}

/-- Copying a surplus block. -/
theorem Post.Emits.does_surplus (emits : (Post.surplus left right).Emits inst fin scratch g)
    (safe : cpu.SafeRun layout.words τ s g.asm)
    : (Post.surplus left right).Does layout cpu inst s (cpu.run s g.asm) := by
  obtain ⟨isLeft, isRight, tb, rfl⟩ := emits
  rw [genStoreMem_asm] at safe ⊢
  rw [run_ins, run_copyWord safe.head.tr (layout.points_data s.gpr isLeft)
    (layout.points_data s.gpr isRight) (by simp)]
  have words := layout.words.value_write s.mem (.word right) (layout.value s (.word left))
  exact {
    words := Post.words_of_update words (by simp [Post.targets])
    gprs := by
      intro r away
      refine update_of_ne ?_ _ _
      rintro rfl
      simp [Post.touches, carrier, MemOp.mentionsEax, MemOp.abs] at away
    copies := by
      rintro _ _ ⟨⟩
      exact (congrFun words _).trans (update_self ..) }

/-- Restoring a block of memory. -/
theorem Post.Emits.does_restoreMem {bak idx : Nat}
    (emits : (Post.restoreMem bak idx).Emits inst fin scratch g)
    (safe : cpu.SafeRun layout.words τ s g.asm)
    (points : Points layout.words τ s.gpr (inst.text idx) (.block idx))
    (away : inst.carrier ∉ inst.addressRegs)
    : (Post.restoreMem bak idx).Does layout cpu inst s (cpu.run s g.asm) := by
  obtain ⟨isData, _, tb, _, _, rfl⟩ := emits
  have tr : cpu.tr s = τ := by
    rw [genStoreChangeMem_asm] at safe
    exact safe.head.tr
  obtain ⟨words, gprs⟩ := run_storeChange tb "restore inputs" tr
    (layout.points_data s.gpr isData) points (by simp)
    (by rw [inst.carrier_abs]; exact away)
  rw [inst.carrier_abs] at gprs
  exact {
    words := Post.words_of_update words (by simp [Post.targets])
    gprs := by
      intro r outside
      refine gprs r ?_
      rintro rfl
      simp [Post.touches] at outside
    restoresMem := by
      rintro _ _ ⟨⟩
      exact (congrFun words _).trans (update_self ..) }

/-- Restoring a register. -/
theorem Post.Emits.does_restoreReg {name : RegName} {bak : Nat}
    (emits : (Post.restoreReg name bak).Emits inst fin scratch g)
    (safe : cpu.SafeRun layout.words τ s g.asm)
    : (Post.restoreReg name bak).Does layout cpu inst s (cpu.run s g.asm) := by
  obtain ⟨isData, _, _, _, _, _, _, _, _, res, member⟩ := id emits
  have points := layout.points_data s.gpr isData
  have whole {r : Gpr} {part : Part} {bak' : Nat}
      (same : Post.restoreReg name bak = .restoreReg (.gpr ⟨r, part⟩) bak')
      : (cpu.run s g.asm).gpr r = layout.value s (.word bak') := by
    cases same
    rw [emits.restoreReg_gpr.1] at safe ⊢
    rw [run_restore_gpr safe.head.tr points]
    exact update_self ..
  by_cases isFlags : name = .eflags
  · subst isFlags
    rw [emits.restoreReg_eflags.1] at safe ⊢
    obtain ⟨words, gprs⟩ := run_restore_eflags safe points
    exact {
      words := Post.words_of_update words (by simp [Post.targets])
      gprs := fun r _ => congrFun gprs r }
  · obtain ⟨_, _, _, _, asm, touched, notFlags⟩ :=
      registerBackup_other isFlags res g member
    have quiet : (cpu.run s g.asm).mem = s.mem ∧ _ := run_mem2reg asm notFlags
    obtain ⟨mem, gprs⟩ := quiet
    rw [touched] at gprs
    exact {
      words := fun k _ => by rw [Layout.value, mem, Layout.value]
      gprs := gprs
      restoresReg := fun _ _ _ same => whole same }

theorem Post.Emits.does_record (emits : (Post.record left right what).Emits inst fin scratch g)
    (apart : inst.Apart) (safe : cpu.SafeRun layout.words τ s g.asm)
    (located
      : ∀ idx, what = .block idx →
          Points layout.words τ s.gpr (inst.text idx) (.block idx)
          ∧ inst.carrier ∉ inst.addressRegs)
    : (Post.record left right what).Does layout cpu inst s (cpu.run s g.asm) := by
  obtain ⟨isLeft, isRight, _, exception, _⟩ := id emits
  have atLeft := layout.points_data s.gpr isLeft
  have atRight := layout.points_data s.gpr isRight
  cases what with
  | gpr r =>
    by_cases isEax : r = .eax
    · subst isEax
      rw [emits.record_eax.1] at safe ⊢
      obtain ⟨words, gprs⟩ := run_record_eax safe atLeft atRight
      exact .of_record 0 words (fun r _ => congrFun gprs r)
    · rw [(emits.record_gpr isEax).1] at safe ⊢
      obtain ⟨words, gprs⟩ := run_mix safe.head.tr atLeft atRight (exec_xorReg isEax _)
      refine .of_record 0 words (fun r away => gprs r ?_)
      rintro rfl
      simp [Post.touches, isEax] at away
  | eflags =>
    rw [emits.record_eflags.1] at safe ⊢
    obtain ⟨words, gprs⟩ := run_record_eflags safe atLeft atRight (layout.points_scratch s.gpr)
    exact .of_record _ words (fun r _ => congrFun gprs r)
  | block idx =>
    obtain ⟨points, away⟩ := located idx rfl
    rw [(emits.record_block apart).1] at safe ⊢
    obtain ⟨words, gprs⟩ := run_mix safe.head.tr atLeft atRight
      (exec_xorMem safe.head.tr points (inst.regs_text idx ▸ away) _)
    refine .of_record 0 words (fun r outside => gprs r ?_)
    rintro rfl
    simp [Post.touches] at outside
  | exception a =>
    rw [emits.record_exception.1] at safe ⊢
    obtain ⟨words, gprs⟩ := run_mix safe.head.tr atLeft atRight
      (exec_xorMem safe.head.tr (layout.points_data s.gpr (exception a rfl).1) (by simp) _)
    refine .of_record 0 words (fun r outside => gprs r ?_)
    rintro rfl
    simp [Post.touches] at outside

/-- A gadget does its part if the memory operand is where its text says. -/
theorem Post.Emits.does (emits : p.Emits inst fin scratch g) (apart : inst.Apart)
    (safe : cpu.SafeRun layout.words τ s g.asm)
    (located
      : ∀ idx ∈ p.blocks,
          Points layout.words τ s.gpr (inst.text idx) (.block idx)
          ∧ inst.carrier ∉ inst.addressRegs)
    : p.Does layout cpu inst s (cpu.run s g.asm) := by
  cases p with
  | record left right what =>
    exact emits.does_record apart safe (fun idx same => located idx (by simp [same, blocks]))
  | surplus left right => exact emits.does_surplus safe
  | restoreMem bak idx =>
    obtain ⟨points, away⟩ := located idx (mem_singleton_self idx)
    exact emits.does_restoreMem safe points away
  | restoreReg name bak => exact emits.does_restoreReg safe

end

namespace Post

variable {inst : Inst}

/-- Addresses of the words of the data area that a gadget changes. -/
def written : Post → List Nat
  | .record _ right _ => [right]
  | .surplus _ right => [right]
  | .restoreReg .eflags bak => [bak]
  | _ => []

/-- Addresses of the words of the data area that a gadget reads, except for the saved value
of EFLAGS.
-/
def sources : Post → List Nat
  | .record left _ (.exception a) => [left, a]
  | .record left _ _ => [left]
  | .surplus left _ => [left]
  | .restoreMem bak _ => [bak]
  | .restoreReg .eflags _ => []
  | .restoreReg _ bak => [bak]

def recordsFlags : Post → Bool
  | .record _ _ .eflags => true
  | _ => false

/-- Gadgets touch the temporaries and what they restore. -/
theorem touches_cases {p : Post} (touched : r ∈ p.touches inst)
    : r = .eax
      ∨ (r = inst.carrier ∧ p.blocks ≠ [])
      ∨ p.Restores r
      ∨ ∃ name bak, p = .restoreReg name bak ∧ r ∈ name.undeclared := by
  cases p with
  | record left right what =>
    cases what with
    | gpr r' =>
      simp only [touches] at touched
      split at touched
      · cases touched
      · exact Or.inl (mem_singleton.mp touched)
    | eflags => cases touched
    | block idx => exact Or.inr (Or.inl ⟨mem_singleton.mp touched, by simp [blocks]⟩)
    | exception a => exact Or.inl (mem_singleton.mp touched)
  | surplus left right => exact Or.inl (mem_singleton.mp touched)
  | restoreMem bak idx => exact Or.inr (Or.inl ⟨mem_singleton.mp touched, by simp [blocks]⟩)
  | restoreReg name bak =>
    right; right
    cases name with
    | gpr r' =>
      rw [mem_singleton.mp touched]
      exact Or.inl ⟨r'.part, bak, rfl⟩
    | cr | dr | xcr0 => exact Or.inr ⟨_, _, rfl, touched⟩
    | _ => cases touched

/-- A word of the data area is changed only if its address is written. -/
theorem Emits.notTarget {fin : GenState} {scratch n : Nat} {p : Post} {g : Gadget}
    (emits : p.Emits inst fin scratch g) (isData : IsData a) (unwritten : a ∉ p.written)
    : (Slot.word a : Slot n) ∉ p.targets := by
  have other {b : Nat} (isData' : IsData b) (away : a ∉ [b])
      : (Slot.word a : Slot n) ≠ .word b := fun same =>
    away (by simp [Slot.word_injective isData isData' same])
  cases p with
  | record left right what =>
    have differs := other emits.2.1 unwritten
    cases what <;> simp [targets, differs, Slot.word_ne_scratch isData]
  | surplus left right => simp [targets, other emits.2.1 unwritten]
  | restoreMem bak idx => simp [targets, Slot.word_ne_block isData idx]
  | restoreReg name bak =>
    cases name with
    | eflags => simp [targets, other emits.1 unwritten]
    | _ => simp [targets]

/-- A block of memory is changed only by the gadget that restores it. -/
theorem Emits.restoreMem_of_target {fin : GenState} {scratch n : Nat} {p : Post} {g : Gadget}
    (emits : p.Emits inst fin scratch g) {idx : Nat} (inside : idx < n)
    (target : (Slot.block idx : Slot n) ∈ p.targets)
    : ∃ bak, p = .restoreMem bak idx := by
  have notWord {a : Nat} (isData : IsData a) : (Slot.block idx : Slot n) ≠ .word a :=
    Ne.symm (Slot.word_ne_block isData idx)
  cases p with
  | record left right what =>
    have differs := notWord emits.2.1
    cases what <;> simp [targets, differs, Slot.block_ne_scratch inside] at target
  | surplus left right => simp [targets, notWord emits.2.1] at target
  | restoreMem bak idx' =>
    rw [Slot.block_injective inside (mem_singleton.mp target)]
    exact ⟨bak, rfl⟩
  | restoreReg name bak =>
    cases name with
    | eflags => simp [targets, notWord emits.1] at target
    | _ => simp [targets] at target

end Post

/-- A sorted list of gadgets, none of which changes a word that another one reads. -/
structure Agenda (inst : Inst) (fin : GenState) (scratch : Nat)
    (pairs : List (Post × Gadget))
    : Prop where
  emits : ∀ q ∈ pairs, q.1.Emits inst fin scratch q.2
  sorted : pairs.Pairwise (fun a b => a.2.depend b.2 = false)
  written : pairs.Pairwise (fun a b => List.Disjoint a.1.written b.1.written)
  sources : ∀ q ∈ pairs, ∀ a ∈ q.1.written, ∀ q' ∈ pairs, a ∉ q'.1.sources
  flags : pairs.Pairwise (fun a b => ¬(a.1.recordsFlags = true ∧ b.1.recordsFlags = true))

/-- The sort puts a restored register's gadget before everything that accesses memory
through it.
-/
structure Anchored (inst : Inst) (pairs : List (Post × Gadget)) (r : Gpr) : Prop where
  restored : ∃ q ∈ pairs, q.1.Restores r
  notPop : inst.popCategory = false
  single : ∀ q ∈ pairs, ∀ idx ∈ q.1.blocks, idx = 0
  named : ∃ name ∈ (getMemOp inst 0).2, r.name.same name = true

section

variable {τ : Translation} {n : Nat} {operand : Fin n → Nat → Word} {scratch : Nat}
  (layout : Layout τ operand scratch) (inst : Inst) (pairs : List (Post × Gadget))

/-- Accesses to the memory operand go through registers with the expected values: either
the register is restored first, or no gadget disturbs it.
-/
structure Addressed (s : St) (before used : Gpr → Word) : Prop where
  located
    : ∀ q ∈ pairs, ∀ idx ∈ q.1.blocks,
        idx < n
        ∧ Points layout.words τ used (inst.text idx) (.block idx)
        ∧ inst.carrier ∉ inst.addressRegs
  saved
    : ∀ q ∈ pairs, ∀ r ∈ inst.addressRegs, ∀ part bak,
        q.1 = .restoreReg (.gpr ⟨r, part⟩) bak → layout.value s (.word bak) = before r
  settled
    : ∀ q ∈ pairs, q.1.blocks ≠ [] → ∀ r ∈ inst.addressRegs,
        (Anchored inst pairs r ∧ used r = before r)
        ∨ (used r = s.gpr r
          ∧ ∀ d ∈ pairs, r ∈ d.1.touches inst → d.1.Restores r ∧ before r = s.gpr r)
  undeclared
    : ∀ d ∈ pairs, ∀ name bak,
        d.1 = .restoreReg name bak
        → ∀ r ∈ name.undeclared, ∀ q ∈ pairs,
            (q.1.blocks ≠ [] → r ∉ inst.addressRegs)
            ∧ ∀ left right, q.1 ≠ .record left right (.gpr r)

end

theorem Post.Emits.sources_isData {inst : Inst} {fin : GenState} {scratch : Nat} {p : Post}
    {g : Gadget} (emits : p.Emits inst fin scratch g) (source : a ∈ p.sources)
    : IsData a := by
  cases p with
  | record left right what =>
    obtain ⟨isLeft, _, _, exception, _⟩ := emits
    cases what with
    | exception b =>
      simp only [sources, mem_cons, not_mem_nil, or_false] at source
      rcases source with rfl | rfl
      · exact isLeft
      · exact (exception a rfl).1
    | _ =>
      rw [mem_singleton.mp source]
      exact isLeft
  | surplus | restoreMem => rw [mem_singleton.mp source]; exact emits.1
  | restoreReg name bak =>
    cases name with
    | eflags => cases source
    | _ => rw [mem_singleton.mp source]; exact emits.1

section

variable {τ : Translation} {n : Nat} {operand : Fin n → Nat → Word} {scratch : Nat}
  {layout : Layout τ operand scratch} {cpu : Cpu} {inst : Inst} {fin : GenState}
  {pairs done rest : List (Post × Gadget)} {q : Post × Gadget} {s : St}
  {before used : Gpr → Word}

/-- Run the code of a gadget that comes with its purpose. -/
def runPair {α : Type} (cpu : Cpu) (s : St) (q : α × Gadget) : St := cpu.run s q.2.asm

theorem foldl_runPair {α : Type} (cpu : Cpu) (pairs : List (α × Gadget)) (s : St)
    : pairs.foldl (runPair cpu) s = cpu.run s (pairs.flatMap (fun q => q.2.asm)) := by
  induction pairs generalizing s with
  | nil => rfl
  | cons q rest ih => simp [ih, runPair, run_append]

variable (layout cpu inst) in
/-- The gadgets so far have met their specifications. -/
def Done (s : St) (done : List (Post × Gadget)) : Prop :=
  Schedule.Follows (runPair cpu) (fun q => q.1.Does layout cpu inst) s done

variable (layout pairs) in
/-- Words that gadgets read are as they were. -/
def Kept (s s' : St) : Prop :=
  ∀ q ∈ pairs, ∀ a ∈ q.1.sources, layout.value s' (.word a) = layout.value s (.word a)

namespace Agenda

variable {g : Gadget}

theorem restoring (addressed : Addressed layout inst pairs s before used) {b : Post × Gadget}
    (mem : b ∈ pairs) {s1 s2 : St} (does : b.1.Does layout cpu inst s1 s2)
    (kept : Kept layout pairs s s1) (address : r ∈ inst.addressRegs) (restores : b.1.Restores r)
    : s2.gpr r = before r := by
  obtain ⟨part, bak, shape⟩ := restores
  rw [does.restoresReg r part bak shape, kept b mem bak (by simp [shape, Post.sources])]
  exact addressed.saved b mem r address part bak shape

variable (agenda : Agenda inst fin scratch pairs)

include agenda

theorem kept_step {b : Post × Gadget}
    (mem : b ∈ pairs) {s1 s2 : St} (does : b.1.Does layout cpu inst s1 s2)
    (kept : Kept layout pairs s s1)
    : Kept layout pairs s s2 := by
  intro q there a source
  rw [← kept q there a source]
  refine does.words _ ((agenda.emits b mem).notTarget
    ((agenda.emits q there).sources_isData source) (fun written => ?_))
  exact agenda.sources b mem a written q there source

theorem kept (follows : Done layout cpu inst s done)
    (earlier : done ⊆ pairs)
    : Kept layout pairs s (done.foldl (runPair cpu) s) :=
  follows.keeps (P := Kept layout pairs s)
    (fun _ mem _ _ does kept => agenda.kept_step (earlier mem) does kept)
    (fun _ _ _ _ => rfl)

theorem unwritten (follows : Done layout cpu inst s pairs) (isData : IsData a)
    (away : ∀ q ∈ pairs, a ∉ q.1.written)
    : layout.value (pairs.foldl (runPair cpu) s) (.word a) = layout.value s (.word a) :=
  follows.keeps (P := fun s' => layout.value s' (.word a) = layout.value s (.word a))
    (fun b there _ _ does current =>
      (does.words _ ((agenda.emits b there).notTarget isData (away b there))).trans current)
    rfl

/-- What a gadget writes stays. The sources are kept until its turn. -/
theorem written_last (follows : Done layout cpu inst s pairs) (mem : q ∈ pairs)
    (isData : IsData a) (written : a ∈ q.1.written) {v : Word}
    (sets : ∀ done rest, pairs = done ++ q :: rest
      → let s1 := done.foldl (runPair cpu) s
        Done layout cpu inst s done → Kept layout pairs s s1
        → q.1.Does layout cpu inst s1 (runPair cpu s1 q)
        → layout.value (runPair cpu s1 q) (.word a) = v)
    : layout.value (pairs.foldl (runPair cpu) s) (.word a) = v := by
  obtain ⟨done, rest, split⟩ := append_of_mem mem
  have sofar : Done layout cpu inst s done := by
    subst split
    exact follows.append_left
  have turn := sets done rest split sofar
    (agenda.kept sofar fun b there => by simp [split, there]) (follows done _ rest split)
  subst split
  refine follows.last (P := fun s' => layout.value s' (.word a) = v) (fun _ => turn) ?_
  intro b there s1 s2 does current
  have disjoint := (pairwise_cons.mp (pairwise_append.mp agenda.written).2.1).1 b there
  refine (does.words _ ((agenda.emits b (by simp [there])).notTarget isData ?_)).trans current
  exact fun again => disjoint written again

theorem copied (follows : Done layout cpu inst s pairs)
    (mem : (.surplus left right, g) ∈ pairs)
    : layout.value (pairs.foldl (runPair cpu) s) (.word right) = layout.value s (.word left) := by
  refine agenda.written_last follows mem (agenda.emits _ mem).2.1 (by simp [Post.written]) ?_
  intro done rest _ s1 _ kept does
  rw [does.copies left right rfl]
  exact kept _ mem left (by simp [Post.sources])

variable (apart : inst.Apart) (addressed : Addressed layout inst pairs s before used)

include addressed

theorem address_settled (earlier : done ⊆ pairs) (follows : Done layout cpu inst s done)
    (address : r ∈ inst.addressRegs)
    (unchanged : ∀ d ∈ pairs, r ∈ d.1.touches inst → d.1.Restores r ∧ before r = s.gpr r)
    : (done.foldl (runPair cpu) s).gpr r = s.gpr r := by
  refine (follows.keeps (P := fun s' => Kept layout pairs s s' ∧ s'.gpr r = s.gpr r) ?_
    ⟨fun _ _ _ _ => rfl, rfl⟩).2
  rintro b mem s1 s2 does ⟨kept, current⟩
  have inside := earlier mem
  refine ⟨agenda.kept_step inside does kept, ?_⟩
  by_cases touched : r ∈ b.1.touches inst
  · obtain ⟨restores, same⟩ := unchanged b inside touched
    rw [restoring addressed inside does kept address restores, same]
  · rw [does.gprs r touched, current]

include apart

/-- A register that is restored keeps the saved value if no later gadget kills it. -/
theorem restored_last {d : Post × Gadget} {back : List (Post × Gadget)}
    (earlier : done ++ d :: back ⊆ pairs) (follows : Done layout cpu inst s (done ++ d :: back))
    (address : r ∈ inst.addressRegs) (restores : d.1.Restores r)
    (declared : ∀ b ∈ pairs, ∀ name bak, b.1 = .restoreReg name bak → r ∉ name.undeclared)
    (unkilled : ∀ b ∈ back, .reg r.name ∉ b.2.kill)
    : ((done ++ d :: back).foldl (runPair cpu) s).gpr r = before r := by
  have here : d ∈ pairs := earlier (by simp)
  refine (follows.last (P := fun s' => Kept layout pairs s s' ∧ s'.gpr r = before r) ?_ ?_).2
  · intro does
    have kept := agenda.kept follows.append_left (append_subset.mp earlier).1
    exact ⟨agenda.kept_step here does kept, restoring addressed here does kept address restores⟩
  · rintro b mem s1 s2 does ⟨kept, current⟩
    have inside : b ∈ pairs := earlier (by simp [mem])
    refine ⟨agenda.kept_step inside does kept, ?_⟩
    by_cases touched : r ∈ b.1.touches inst
    · rcases (agenda.emits b inside).declares apart touched with
        killed | ⟨again, _⟩ | ⟨name, bak, shape, hidden⟩
      · exact absurd killed (unkilled b mem)
      · exact restoring addressed inside does kept address again
      · exact absurd hidden (declared b inside name bak shape)
    · rw [does.gprs r touched, current]

/-- A register that has to be restored before memory is accessed has been. -/
theorem address_anchored (split : pairs = done ++ q :: rest)
    (follows : Done layout cpu inst s done) (accesses : q.1.blocks ≠ [])
    (address : r ∈ inst.addressRegs) (anchored : Anchored inst pairs r)
    (declared : ∀ b ∈ pairs, ∀ name bak, b.1 = .restoreReg name bak → r ∉ name.undeclared)
    : (done.foldl (runPair cpu) s).gpr r = before r := by
  have here : q ∈ pairs := by simp [split]
  have sorted := agenda.sorted
  rw [split] at sorted
  obtain ⟨d, mem, restores⟩ := anchored.restored
  obtain ⟨part, bak, shape⟩ := id restores
  have defines : Loc.reg r.name ∈ d.2.define := by
    have emits := agenda.emits d mem
    rw [shape] at emits
    rw [emits.restoreReg_gpr.2.1]
    exact mem_singleton_self _
  have depends : q.2.depend d.2 = true := by
    obtain ⟨name, listed, same⟩ := anchored.named
    obtain ⟨idx, _, blocks⟩ := exists_cons_of_ne_nil accesses
    have zero : 0 ∈ q.1.blocks := by
      have first := anchored.single q here idx (by simp [blocks])
      simp [blocks, first]
    exact depend_of_define_needed defines
      ((agenda.emits q here).declares_address apart anchored.notPop zero listed same)
  have inDone : d ∈ done := by
    rw [split] at mem
    rcases mem_append.mp mem with there | there
    · exact there
    · rcases mem_cons.mp there with rfl | later
      · rw [shape] at accesses
        exact absurd rfl accesses
      · have none := (pairwise_cons.mp (pairwise_append.mp sorted).2.1).1 d later
        rw [none] at depends
        cases depends
  obtain ⟨front, back, rfl⟩ := append_of_mem inDone
  refine agenda.restored_last apart addressed
    (fun b there => by rw [split]; exact mem_append_left _ there)
    follows address restores declared (fun b there killed => ?_)
  have none := (pairwise_cons.mp (pairwise_append.mp (pairwise_append.mp sorted).1).2.1).1 b there
  rw [depend_of_kill_define killed defines] at none
  cases none

/-- Before a gadget accesses memory, every register in its address has the expected value. -/
theorem address (split : pairs = done ++ q :: rest) (follows : Done layout cpu inst s done)
    (accesses : q.1.blocks ≠ []) (inside : r ∈ inst.addressRegs)
    : (done.foldl (runPair cpu) s).gpr r = used r := by
  have here : q ∈ pairs := by simp [split]
  have declared (b : Post × Gadget) (mem : b ∈ pairs) (name : RegName) (bak : Nat)
      (shape : b.1 = .restoreReg name bak) : r ∉ name.undeclared := fun hidden =>
    (addressed.undeclared b mem name bak shape r hidden q here).1 accesses inside
  rcases addressed.settled q here accesses r inside with
    ⟨anchored, value⟩ | ⟨value, unchanged⟩
  · rw [value]
    exact agenda.address_anchored apart addressed split follows accesses inside anchored declared
  · rw [value]
    exact agenda.address_settled addressed (fun b there => by simp [split, there]) follows
      inside unchanged

theorem all_done
    (safe : cpu.SafeRun layout.words τ s (pairs.flatMap (fun q => q.2.asm)))
    : Done layout cpu inst s pairs := by
  refine Schedule.follows_of_step ?_
  intro done q rest split follows
  have here : q ∈ pairs := by simp [split]
  refine (agenda.emits q here).does apart ?_ ?_
  · rw [split, flatMap_append] at safe
    rw [foldl_runPair]
    exact safe.append_right.append_left
  · intro idx accessed
    obtain ⟨_, points, away⟩ := addressed.located q here idx accessed
    refine ⟨points.congr ?_, away⟩
    intro r inside
    exact agenda.address apart addressed split follows (ne_nil_of_mem accessed) inside

/-- A gadget that records something finds the value the instruction has left. -/
theorem finds (split : pairs = done ++ (.record left right what, g) :: rest)
    (follows : Done layout cpu inst s done)
    : what.value layout cpu (done.foldl (runPair cpu) s) = what.value layout cpu s := by
  have here : (Post.record left right what, g) ∈ pairs := by simp [split]
  have earlier : done ⊆ pairs := fun b there => by simp [split, there]
  have emits : (Post.record left right what).Emits inst fin scratch g := agenda.emits _ here
  have sorted := agenda.sorted
  rw [split] at sorted
  have independent (b : Post × Gadget) (there : b ∈ done) : b.2.depend g = false :=
    (pairwise_append.mp sorted).2.2 b there _ mem_cons_self
  cases what with
  | gpr r =>
    have uses : Loc.reg r.name ∈ g.use := by
      by_cases isEax : r = .eax
      · subst isEax
        simp [emits.record_eax.2]
      · simp [(emits.record_gpr isEax).2.2]
    refine follows.keeps (P := fun s' => s'.gpr r = s.gpr r) ?_ rfl
    intro b there s1 s2 does current
    by_cases touched : r ∈ b.1.touches inst
    · have none := independent b there
      rcases (agenda.emits b (earlier there)).declares apart touched with
        killed | ⟨_, defined⟩ | ⟨name, bak, shape, hidden⟩
      · rw [depend_of_use_kill uses killed] at none
        cases none
      · rw [depend_of_use_define uses defined] at none
        cases none
      · exact absurd rfl ((addressed.undeclared b (earlier there) name bak shape r hidden
          _ here).2 left right)
    · rw [does.gprs r touched, current]
  | eflags =>
    -- nothing can run before the flags are recorded
    have none : done = [] := by
      rw [eq_nil_iff_forall_not_mem]
      intro b there
      have uses : g.use.has (.reg .eflags) = true := by
        rw [emits.record_eflags.2]
        rfl
      cases unused : b.2.use.has (.reg .eflags) with
      | false =>
        have depends := depend_of_eflags uses unused
        rw [independent b there] at depends
        cases depends
      | true =>
        obtain ⟨left', right', shape⟩ :=
          (agenda.emits b (earlier there)).eflags_of_use apart unused
        have once := agenda.flags
        rw [split] at once
        exact (pairwise_append.mp once).2.2 b there _ mem_cons_self ⟨by rw [shape]; rfl, rfl⟩
    rw [none]
    rfl
  | block idx =>
    have inside := (addressed.located _ here idx (by simp [Post.blocks])).1
    have uses : Loc.mem (inst.text idx) ∈ g.use := by
      simp [(emits.record_block apart).2.2]
    refine follows.keeps
      (P := fun s' => layout.value s' (.block idx) = layout.value s (.block idx)) ?_ rfl
    intro b there s1 s2 does current
    refine (does.words _ (fun target => ?_)).trans current
    have emits' := agenda.emits b (earlier there)
    obtain ⟨bak, shape⟩ := emits'.restoreMem_of_target inside target
    rw [shape] at emits'
    have none := independent b there
    rw [depend_of_use_define uses (by simp [(emits'.restoreMem_sets apart).1])] at none
    cases none
  | exception a => exact agenda.kept follows earlier _ here a (by simp [Post.sources])

/-- Every recording gadget leaves the L block xored with the recorded value. -/
theorem recorded (follows : Done layout cpu inst s pairs)
    (mem : (.record left right what, g) ∈ pairs)
    : layout.value (pairs.foldl (runPair cpu) s) (.word right)
      = layout.value s (.word left) ^^^ what.value layout cpu s := by
  refine agenda.written_last follows mem (agenda.emits _ mem).2.1 (by simp [Post.written]) ?_
  intro done rest split s1 sofar kept does
  rw [does.records left right what rfl, agenda.finds apart addressed split sofar]
  rw [kept _ mem left (by cases what <;> simp [Post.sources])]

end Agenda

end

end FastPokeEmu.Floppy
