import FastPokeEmu.Floppy.Plan

/-! The handlers of operands, each in one piece: which words they ask for, what they emit and
how the state changes.
-/

namespace FastPokeEmu.Floppy

open Option

/-- Gadgets for an input: a register is always set, and everything else is emitted once. -/
def loadEmitted (inst : Inst) (tb : Tables) (src bak : Nat) (fresh : Bool)
    : Item → Option Emitted
  | .reg name len => do
      let setinput ← genMem2Reg tb (.abs src) name len
      if fresh then
        let (backup, restore) ← registerBackup tb name bak len "restore inputs"
        some ⟨backup, setinput, [], restore⟩
      else some ⟨[], setinput, [], []⟩
  | .block idx =>
    if fresh then
      some ⟨[genStoreMem tb (inst.text idx) (.abs bak)],
        [genStoreChangeMem tb (.abs src) (inst.text idx) "setinput"], [],
        [genStoreChangeMem tb (.abs bak) (inst.text idx) "restore inputs"]⟩
    else some .none

/-- Gadgets for an output; it is backed up and restored unless the first pass did so. -/
def storeEmitted (inst : Inst) (tb : Tables) (bak : Nat) (fresh : Bool) (record : Gadget)
    : Item → Option Emitted
  | .reg name len =>
    if fresh then do
      let (backup, restore) ← registerBackup tb name bak len "restore outputs"
      some ⟨backup, [], [record], restore⟩
    else some ⟨[], [], [record], []⟩
  | .block idx =>
    if fresh then
      some ⟨[genStoreMem tb (inst.text idx) (.abs bak)], [], [record],
        [genStoreChangeMem tb (.abs bak) (inst.text idx) "restore inputs"]⟩
    else some ⟨[], [], [record], []⟩

/-- What is saved and restored on behalf of an item. -/
inductive Saves (inst : Inst) (tb : Tables) (bak : Nat)
    : Bool → Item → List Gadget → List Gadget → Prop
  | reg {name : RegName} {len : Nat} {mnemonic : String} {backup restore : List Gadget}
      (named : mnemonic ≠ "")
      (backed : registerBackup tb name bak len mnemonic = some (backup, restore))
    : Saves inst tb bak true (.reg name len) backup restore
  | block {idx : Nat}
    : Saves inst tb bak true (.block idx) [genStoreMem tb (inst.text idx) (.abs bak)]
        [genStoreChangeMem tb (.abs bak) (inst.text idx) "restore inputs"]
  | old {item : Item} : Saves inst tb bak false item [] []

/-- How an input is set. -/
inductive Sets (inst : Inst) (tb : Tables) (src : Nat) : Item → List Gadget → Prop
  | reg {name : RegName} {len : Nat} {setinput : List Gadget}
      (set : genMem2Reg tb (.abs src) name len = some setinput)
    : Sets inst tb src (.reg name len) setinput
  | block {idx : Nat}
    : Sets inst tb src (.block idx)
        [genStoreChangeMem tb (.abs src) (inst.text idx) "setinput"]
  | old {idx : Nat} : Sets inst tb src (.block idx) []

section

variable {inst : Inst} {choices : Choices} {isInit : Bool} {op : Operand} {st st' : GenState}
  {e : Emitted} {tb : Tables} {src bak : Nat} {fresh : Bool} {record : Gadget} {item : Item}
  {P : Nat → Emitted → GenState → Prop}

theorem loadEmitted_cases (res : loadEmitted inst tb src bak fresh item = some e)
    : Saves inst tb bak fresh item e.backup e.restore
      ∧ Sets inst tb src item e.setinput
      ∧ e.feistel = [] := by
  cases item with
  | reg name len =>
    simp only [loadEmitted, bind_eq_bind, bind_eq_some_iff] at res
    obtain ⟨setinput, set, rest⟩ := res
    cases fresh with
    | true =>
      obtain ⟨⟨backup, restore⟩, backed, final⟩ := bind_eq_some_iff.mp rest
      cases final
      exact ⟨.reg (by decide) backed, .reg set, rfl⟩
    | false =>
      cases rest
      exact ⟨.old, .reg set, rfl⟩
  | block idx =>
    cases fresh with
    | true =>
      cases res
      exact ⟨.block, .block, rfl⟩
    | false =>
      cases res
      exact ⟨.old, .old, rfl⟩

theorem storeEmitted_cases (res : storeEmitted inst tb bak fresh record item = some e)
    : Saves inst tb bak fresh item e.backup e.restore ∧ e.setinput = [] ∧ e.feistel = [record] := by
  cases fresh with
  | false => cases item <;> cases res <;> exact ⟨.old, rfl, rfl⟩
  | true =>
    cases item with
    | reg name len =>
      obtain ⟨⟨backup, restore⟩, backed, final⟩ := bind_eq_some_iff.mp res
      cases final
      exact ⟨.reg (by decide) backed, rfl, rfl⟩
    | block idx =>
      cases res
      exact ⟨.block, rfl, rfl⟩

/-- A register operand in the first pass. -/
inductive RegRead (inst : Inst) (isInit : Bool) (op : Operand) (st : GenState)
    : Option RegName → Emitted → GenState → Prop
  | skipped {name : Option RegName} (regs : List RegName)
      (items : op.kind = .reg name → inst.loadItems op = [])
    : RegRead inst isInit op st name .none
        { st with inToReg := { st.inToReg with regs := regs } }
  | handled {reg : RegName} {st1 : GenState} {src bak : Nat} {e : Emitted}
      (items : op.kind = .reg (some reg) → inst.loadItems op = [.reg reg op.len])
      (positive : op.len ≠ 0)
      (added
        : whenInit isInit (addInput reg op.len)
            { st with inToReg := { st.inToReg with regs := reg :: st.inToReg.regs } }
          = some st1)
      (atSrc : st1.feistelR[st1.countR]? = some src)
      (atBak : st1.feistelIn[st1.countR]? = some bak)
      (emits
        : loadEmitted inst st1.tables src bak (decide (.reg reg ∉ st1.lRestore))
            (.reg reg op.len)
          = some e)
    : RegRead inst isInit op st (some reg) e
        { st1 with
          countR := st1.countR + (op.len + 3) / 4
          lRestore :=
            if .reg reg ∈ st1.lRestore then st1.lRestore else st1.lRestore ++ [.reg reg] }

theorem handleRegRead_cases {name : Option RegName}
    (res : handleRegRead inst isInit op name st = some (e, st'))
    : RegRead inst isInit op st name e st' := by
  cases name with
  | none =>
    cases res
    exact .skipped st.inToReg.regs (fun kind => by simp [Inst.loadItems, kind])
  | some name =>
    simp only [handleRegRead] at res
    split at res
    next skipped =>
      cases res
      refine .skipped st.inToReg.regs (fun kind => ?_)
      rcases skipped with ltr | empty
      · simp [Inst.loadItems, kind, ltr]
      · simp [Inst.loadItems, kind, empty]
    next handled =>
      split at res
      next writeOnly =>
        cases res
        exact .skipped _ (fun kind => by simp [Inst.loadItems, kind, writeOnly])
      next reads =>
        simp only [bind_eq_bind, bind_eq_some_iff] at res
        obtain ⟨st1, added, src, atSrc, bak, atBak, setinput, made, rest⟩ := res
        have handles {e : Emitted} := @RegRead.handled inst _ _ _ _ _ _ _ e
          (fun kind => by simp_all [Inst.loadItems]) (fun empty => handled (.inr empty)) added
          atSrc atBak
        split at rest
        next old =>
          cases rest
          have step := handles (by simp only [loadEmitted, made, old]; rfl)
          rwa [if_pos old] at step
        next new =>
          obtain ⟨⟨backup, restore⟩, backed, final⟩ := bind_eq_some_iff.mp rest
          cases final
          have step := handles (by simp [loadEmitted, made, new, backed]; rfl)
          rwa [if_neg new] at step

/-- One block of a memory operand in the first pass. -/
theorem handleMemReadBlock_cases {idx val rBak bak : Nat}
    (res : handleMemReadBlock inst isInit idx val rBak bak st = some (e, st'))
    : ∃ st1 src opBak,
        whenInit isInit (addBlock (inst.text idx) val rBak bak) st = some st1
        ∧ st1.feistelR[st1.countR]? = some src
        ∧ st1.feistelIn[st1.countR]? = some opBak
        ∧ loadEmitted inst st1.tables src opBak (decide (.mem (inst.text idx) ∉ st1.lRestore))
            (.block idx)
          = some e
        ∧ st'
          = { st1 with
              countR := st1.countR + 1
              lRestore :=
                if .mem (inst.text idx) ∈ st1.lRestore then st1.lRestore
                else st1.lRestore ++ [.mem (inst.text idx)] } := by
  simp only [handleMemReadBlock, bind_eq_bind, bind_eq_some_iff] at res
  obtain ⟨st1, added, src, atSrc, opBak, atBak, rest⟩ := res
  refine ⟨st1, src, opBak, added, atSrc, atBak, ?_⟩
  split at rest
  next old =>
    cases rest
    have seen : .mem (inst.text idx) ∈ st1.lRestore := old
    exact ⟨by simp [loadEmitted, seen], by rw [if_pos seen]⟩
  next new =>
    cases rest
    have unseen : .mem (inst.text idx) ∉ st1.lRestore := new
    exact ⟨by simp only [loadEmitted, unseen]; rfl, by rw [if_neg unseen]; rfl⟩

/-- A memory operand in the first pass: it is skipped, or its blocks are handled one by one. -/
theorem handleMemRead_cases (res : handleMemRead inst isInit op st = some (e, st'))
    (start
      : ∀ st1,
          Allocates (3 * ((op.len + 3) / 4)) .empty
            { st with inToReg := { st.inToReg with mems := getMemOp inst 0 :: st.inToReg.mems } }
            st1
          → P 0 .none st1)
    (step
      : ∀ k e1 st1 e2 st2,
          k < max ((op.len + 3) / 4) 1
          → P k e1 st1
          → handleMemReadBlock inst isInit k (st.nextAddr + 4 * k)
              (st.nextAddr + 4 * ((op.len + 3) / 4) + 4 * k)
              (st.nextAddr + 4 * ((op.len + 3) / 4) + 4 * ((op.len + 3) / 4) + 4 * k) st1
            = some (e2, st2)
          → P (k + 1) (e1.append e2) st2)
    : (e = .none ∧ st' = st ∧ inst.popCategory = true)
      ∨ (e = .none
        ∧ st' = { st with
            inToReg := { st.inToReg with mems := getMemOp inst 0 :: st.inToReg.mems } }
        ∧ ∀ n, op.kind = .mem n → inst.loadItems op = [])
      ∨ (inst.popCategory = false
        ∧ P (max ((op.len + 3) / 4) 1) e st'
        ∧ ∀ n,
            op.kind = .mem n
            → inst.loadItems op = (List.range (max ((op.len + 3) / 4) 1)).map .block) := by
  simp only [handleMemRead] at res
  split at res
  next pop =>
    cases res
    exact .inl ⟨rfl, rfl, pop⟩
  next notPop =>
    split at res
    next reads =>
      simp only [bind_eq_bind, bind_eq_some_iff, Prod.exists] at res
      obtain ⟨f, st1, first, rBak, st2, second, bak, st3, third, looped⟩ := res
      obtain ⟨new, rfl, fits⟩ := getAddr_three first second third
      simp only [Batch.input, Batch.mk.injEq] at new
      obtain ⟨rfl, rfl, -, rfl, -⟩ := new
      rw [length_consecutive] at looped
      refine .inr (.inr ⟨Bool.eq_false_iff.mpr notPop, ?_, fun n kind => ?_⟩)
      · have invariant := Folds.foldlM_induction
          (P := fun done (acc : Emitted × GenState) => P done.length acc.1 acc.2) ?_ ?_ looped
        · simpa using invariant
        · exact start _ ⟨by simp [GenState.batch], rfl, fits, rfl, rfl, rfl, rfl, rfl⟩
        · intro done idx rest acc acc' whole sofar next
          have bound : idx < max ((op.len + 3) / 4) 1 := List.mem_range.mp (by rw [whole]; simp)
          simp only [getElem?_consecutive bound, bind_some, bind_eq_some_iff,
            Prod.exists] at next
          obtain ⟨eNew, stC, block, final⟩ := next
          cases final
          rw [List.length_append, Folds.eq_length_of_range_eq whole] at *
          exact step _ _ _ _ _ bound sofar block
      · simp [Inst.loadItems, kind, notPop, reads]
    next unread =>
      cases res
      exact .inr (.inl ⟨rfl, rfl, fun n kind => by simp [Inst.loadItems, kind, unread]⟩)

/-- A register operand in the second pass. -/
inductive RegWrite (inst : Inst) (choices : Choices) (isInit : Bool) (op : Operand)
    (st : GenState)
    : Option RegName → Emitted → GenState → Prop
  | skipped {name : Option RegName} (regs : List RegName)
      (items : op.kind = .reg name → inst.storeItems op = [])
    : RegWrite inst choices isInit op st name .none
        { st with outToReg := { st.outToReg with regs := regs } }
  | handled {reg : RegName} {st1 st2 : GenState} {record : Gadget} {bak : Nat} {e : Emitted}
      (items : op.kind = .reg (some reg) → inst.storeItems op = [.reg reg op.len])
      (positive : op.len ≠ 0)
      (added
        : whenInit isInit (addOutput choices op.len)
            { st with outToReg := { st.outToReg with regs := reg :: st.outToReg.regs } }
          = some st1)
      (padded : padR (st1.countL + (op.len + 3) / 4) st1 = some st2)
      (recorded : recordRegister choices reg op.len st2 = some record)
      (atBak : st2.feistelOut[st2.countL]? = some bak)
      (emits
        : storeEmitted inst st2.tables bak (decide (.reg reg ∉ st2.lRestore)) record
            (.reg reg op.len)
          = some e)
    : RegWrite inst choices isInit op st (some reg) e
        { st2 with countL := st2.countL + (op.len + 3) / 4, draws := st2.draws + 1 }

theorem handleRegWrite_cases (inst : Inst) {name : Option RegName}
    (res : handleRegWrite choices isInit op name st = some (e, st'))
    : RegWrite inst choices isInit op st name e st' := by
  cases name with
  | none =>
    cases res
    exact .skipped st.outToReg.regs (fun kind => by simp [Inst.storeItems, kind])
  | some name =>
    simp only [handleRegWrite] at res
    split at res
    next empty =>
      cases res
      exact .skipped st.outToReg.regs (fun kind => by simp [Inst.storeItems, kind, empty])
    next pos =>
      split at res
      next readOnly =>
        cases res
        exact .skipped _ (fun kind => by simp [Inst.storeItems, kind, readOnly])
      next writes =>
        simp only [bind_eq_bind, bind_eq_some_iff] at res
        obtain ⟨st1, added, st2, padded, g, recorded, bak, atBak, rest⟩ := res
        have handles {e : Emitted} := @RegWrite.handled inst _ _ _ _ _ _ _ _ _ e
          (fun kind => by simp_all [Inst.storeItems]) pos added padded recorded atBak
        split at rest
        next old =>
          cases rest
          exact handles (by simp [storeEmitted, old])
        next new =>
          obtain ⟨⟨backup, restore⟩, backed, final⟩ := bind_eq_some_iff.mp rest
          cases final
          exact handles (by simp [storeEmitted, new, backed])

/-- One block of a memory operand in the second pass; whether it is fresh is asked for the
whole operand.
-/
theorem handleMemWriteBlock_cases {opStr : MemOp} {j : Nat}
    (res : handleMemWriteBlock inst choices opStr j st = some (e, st'))
    : ∃ left right bak record,
        st.feistelL[st.countL + j]? = some left
        ∧ st.feistelR[st.countL + j]? = some right
        ∧ st.feistelOut[st.countL + j]? = some bak
        ∧ genFeistelCipher st.tables (choices.scratch st.draws) left (.mem (inst.text j)) right 4
          = some record
        ∧ storeEmitted inst st.tables bak (decide (.mem opStr ∉ st.lRestore)) record (.block j)
          = some e
        ∧ st'
          = { st with
              lRestore :=
                if .mem opStr ∈ st.lRestore then st.lRestore
                else st.lRestore ++ [.mem opStr] } := by
  simp only [handleMemWriteBlock, bind_eq_bind, bind_eq_some_iff] at res
  obtain ⟨left, atLeft, bak, atBak, right, atRight, record, made, rest⟩ := res
  refine ⟨left, right, bak, record, atLeft, atRight, atBak, made, ?_⟩
  split at rest
  next old =>
    cases rest
    exact ⟨by simp [storeEmitted, old], by rw [if_pos old]⟩
  next new =>
    cases rest
    exact ⟨by simp only [storeEmitted, new]; rfl, by rw [if_neg new]⟩

/-- The blocks of a memory operand in the second pass. -/
def handleMemWriteBlocks (inst : Inst) (choices : Choices) (r : Nat) (st : GenState)
    : Option (Emitted × GenState) :=
  (List.range r).foldlM
    (fun acc j => do
      let (e, st) ← handleMemWriteBlock inst choices (inst.text 0) j acc.2
      some (acc.1.append e, st))
    (Emitted.none, st)

theorem handleMemWriteBlocks_induction {r : Nat} (start : P 0 .none st)
    (step
      : ∀ k e1 st1 e2 st2,
          P k e1 st1
          → handleMemWriteBlock inst choices (inst.text 0) k st1 = some (e2, st2)
          → P (k + 1) (e1.append e2) st2)
    (looped : handleMemWriteBlocks inst choices r st = some (e, st'))
    : P r e st' := by
  have invariant := Folds.foldlM_induction
    (P := fun done (acc : Emitted × GenState) => P done.length acc.1 acc.2) start ?_ looped
  · simpa using invariant
  · intro done j rest acc acc' whole sofar next
    simp only [bind_eq_bind, bind_eq_some_iff, Prod.exists] at next
    obtain ⟨eNew, stC, block, final⟩ := next
    cases final
    rw [List.length_append]
    exact step _ _ _ _ _ sofar (Folds.eq_length_of_range_eq whole ▸ block)

/-- A memory operand in the second pass. -/
theorem handleMemWrite_cases (res : handleMemWrite inst choices isInit op st = some (e, st'))
    : (e = .none
        ∧ st' = { st with
            outToReg := { st.outToReg with mems := getMemOp inst 0 :: st.outToReg.mems } }
        ∧ ∀ n, op.kind = .mem n → inst.storeItems op = [])
      ∨ ∃ st1 st2 st3,
          whenInit isInit (addOutput choices op.len)
              { st with
                outToReg := { st.outToReg with mems := getMemOp inst 0 :: st.outToReg.mems } }
            = some st1
          ∧ padR (st1.countL + (op.len + 3) / 4) st1 = some st2
          ∧ handleMemWriteBlocks inst choices ((op.len + 3) / 4) st2 = some (e, st3)
          ∧ st' = { st3 with countL := st3.countL + (op.len + 3) / 4 }
          ∧ ∀ n,
              op.kind = .mem n
              → inst.storeItems op = (List.range ((op.len + 3) / 4)).map .block := by
  simp only [handleMemWrite, bind_eq_bind] at res
  split at res
  next written =>
    simp only [bind_eq_some_iff, Prod.exists] at res
    obtain ⟨st1, added, st2, padded, e3, st3, looped, final⟩ := res
    cases final
    exact .inr ⟨st1, st2, st3, added, padded, looped, rfl, fun n kind => by
      simp [Inst.storeItems, kind, written]⟩
  next unwritten =>
    cases res
    exact .inl ⟨rfl, rfl, fun n kind => by simp [Inst.storeItems, kind, unwritten]⟩

end

end FastPokeEmu.Floppy
