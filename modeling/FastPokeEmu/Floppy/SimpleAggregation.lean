import FastPokeEmu.Floppy.Aggregation
import FastPokeEmu.Floppy.SimpleEffects

/-! Programs of simple aggregation: many tests, one after the other, each followed by the
copies of its outputs. At the end every output can be found at the words picked for it,
unless a copy reads or writes in the wrong place.
-/

namespace FastPokeEmu.Floppy

open ByteMemory List

variable {inst : Inst} {cs : List Copy} {gs : List Gadget} {output post : List Gadget}

/-- The instruction writes the operand. -/
def Inst.writes (inst : Inst) (op : Operand) : Bool :=
  match op.kind with
  | .reg _ => op.access ≠ .read
  | .mem n => (inst.memory n).written
  | .other => false

/-- The gadgets for an operand copy it as a whole. -/
def Inst.Copyable (inst : Inst) (op : Operand) : Prop :=
  match op.kind with
  | .reg (some name) => op.len ≤ name.copiedBytes
  -- all words receive the first block, and the text is that of the first operand
  | .mem n => n = 0 ∧ op.len ≤ 4 ∧ (inst.text 0).Legible
  | _ => op.len = 0

instance (inst : Inst) (op : Operand) : Decidable (inst.Copyable op) := by
  unfold Inst.Copyable
  split <;> infer_instance

/-- A test of mode 1, with the state that the tested instruction leaves. -/
structure SimpleTest where
  inst : Inst
  choices : Choices
  /-- Number of random choices made for earlier tests. -/
  draws : Nat
  output : List Gadget
  after : GenState
  made : genSimpleRoot inst choices (.drawn draws) = some (output, after)
  order : HashOrder
  post : List Gadget
  sorted : sortGadget order output = some post
  /-- The copies in the order in which their gadgets run; there is such a list. -/
  ran : List Copy
  ranAll : ran.Perm (inst.copies choices draws)
  emitted : Emits inst ran post
  /-- Return point of the phase that follows, and the word that holds it. -/
  label : Nat
  retseg : Seg
  retp : Nat
  tested : St
  /-- Physical addresses of the bytes of the memory operand. -/
  operand : Nat → Word

/-- Whatever words are picked, and whatever the sort does, the sorted list of a test consists of the
gadgets of its copies: one for each word picked for an operand that is written. -/
theorem exists_ran {choices : Choices} {draws : Nat} {after : GenState} {order : HashOrder}
    (made : genSimpleRoot inst choices (.drawn draws) = some (output, after))
    (sorted : sortGadget order output = some post)
    : ∃ ran : List Copy, ran.Perm (inst.copies choices draws) ∧ Emits inst ran post := by
  obtain ⟨gs, perm, emits⟩ := genSimpleRoot_spec made
  have ordered := (sortGadget_spec sorted).1.trans perm
  obtain ⟨ran, here, there⟩ := perm_comp_forall₂ ordered emits.flip
  exact ⟨ran, there, here.flip⟩

namespace SimpleTest

variable (cpu : Cpu) (τ : Translation) (t : SimpleTest)

def returnOp : MemOp := ⟨some t.retseg, some t.retp, none, none, 0⟩

/-- The state in which the copies start: the return point has been updated. -/
def entered : St := cpu.exec t.tested (.movlLabel t.label t.returnOp)

def code : List Asm := t.post.flatMap Gadget.asm

/-- The state after the copies. -/
def final : St := cpu.run (t.entered cpu) t.code

/-- A byte of an operand right after the tested instruction. -/
def operandByte (op : Operand) (i : Nat) : Byte :=
  match op.kind with
  | .reg (some name) => name.byte cpu t.tested i
  | _ => t.tested.mem (t.operand i)

/-- The first copy, if it runs earlier, changes what the second one reads. Copies of memory
declare the register that they change, so they run after copies of that register.
-/
def Spoils (b c : Copy) : Prop :=
  match c.op.kind with
  | .reg (some (.gpr r)) => b.isMem = false ∧ r.reg ∈ b.touched t.inst
  | .reg (some (.st _)) => b.isSt = true
  | .mem _ =>
    (∃ r ∈ t.inst.addressRegs, r ∈ b.touched t.inst)
    ∨ ∃ i < c.op.len, t.operand i ∈ b.writes τ (t.tested.gpr .esp)
  | _ => False

instance (b c : Copy) : Decidable (t.Spoils τ b c) := by
  unfold Spoils
  split <;> infer_instance

/-- The copies of a test are right. -/
structure Intact : Prop where
  /-- No fault, and address translation does not change. -/
  steady
    : cpu.tr t.tested = τ ∧ ∀ step ∈ cpu.steps (t.entered cpu) t.code, cpu.tr step.1 = τ
  copyable : ∀ op ∈ t.inst.operands, t.inst.writes op = true → t.inst.Copyable op
  unspoiled
    : t.ran.Pairwise (fun b c => t.inst.writes c.op = true → ¬ t.Spoils τ b c)
  /-- The text of the memory operand still denotes it, and it does not hold the return
  point.
  -/
  located
    : ∀ c ∈ t.ran,
        t.inst.writes c.op = true
        → c.isMem = true
        → ∀ i < c.op.len,
            cpu.place t.tested (t.inst.text 0) i = t.operand i
            ∧ t.operand i ∉ cpu.places t.tested t.returnOp 4

end SimpleTest

/-- Apart from copies, nothing changes a byte between a state and the end of the program. -/
def Keeps (cpu : Cpu) (a : Word) : St → List SimpleTest → St → Prop
  | s, [], finish => finish.mem a = s.mem a
  | s, t :: rest, finish => (t.entered cpu).mem a = s.mem a ∧ Keeps cpu a (t.final cpu) rest finish

/-- A run of a whole program without faults. -/
structure SimpleRun where
  cpu : Cpu
  τ : Translation
  tests : List SimpleTest
  finish : St

namespace SimpleRun

variable (run : SimpleRun)

/-- All copies, with their tests, in the order in which they run. -/
def copies : List (SimpleTest × Copy) := run.tests.flatMap (fun t => t.ran.map (fun c => (t, c)))

/-- Copies are right, and remain. -/
structure Intact : Prop where
  tests : ∀ t ∈ run.tests, t.Intact run.cpu run.τ
  /-- Words picked for a copy do not overlap the copy of an output made earlier. -/
  apart
    : run.copies.Pairwise (fun x y =>
        x.1.inst.writes x.2.op = true
        → ∀ i < x.2.op.len,
            run.τ.data x.2.dest i ∉ y.2.writes run.τ (y.1.tested.gpr .esp))
  /-- Other code of the program does not write to the copies of outputs. -/
  kept
    : ∀ front t back,
        run.tests = front ++ t :: back
        → ∀ c ∈ t.ran,
            t.inst.writes c.op = true
            → ∀ i < c.op.len,
                Keeps run.cpu (run.τ.data c.dest i) (t.final run.cpu) back run.finish

/-- Every output of every test is at the words picked for it. -/
def Holds : Prop :=
  ∀ t ∈ run.tests, ∀ op ∈ t.inst.operands,
    t.inst.writes op = true
    → op.len ≠ 0
    → (∃ dest, (op, dest) ∈ t.inst.picked t.choices t.draws)
      ∧ ∀ dest,
          (op, dest) ∈ t.inst.picked t.choices t.draws
          → ∀ i < op.len,
              run.finish.mem (run.τ.data dest i) = t.operandByte run.cpu op i

end SimpleRun

theorem Emits.map (emits : Emits inst cs gs) : cs.map (Copy.gadget inst) = gs.map some := by
  induction emits with
  | nil => rfl
  | cons made _ ih => rw [map_cons, map_cons, made, ih]

namespace SimpleTest

variable {cpu : Cpu} {τ : Translation} {t : SimpleTest}

theorem ran_pairwise (t : SimpleTest)
    : t.ran.Pairwise (fun b c =>
        ∀ gb gc,
          b.gadget t.inst = some gb → c.gadget t.inst = some gc → gb.depend gc = false) := by
  have ordered : (t.post.map some).Pairwise (fun x y : Option Gadget =>
      ∀ gb gc, x = some gb → y = some gc → gb.depend gc = false) := by
    refine pairwise_map.mpr ((sortGadget_spec t.sorted).2.imp ?_)
    intro a b independent gb gc left right
    cases left
    cases right
    exact independent
  rw [← t.emitted.map] at ordered
  exact pairwise_map.mp ordered

/-- A copy of memory runs after the copies of the register that it changes. -/
theorem notMem_touched_of_before {b c : Copy} {gb gc : Gadget} {r : GReg}
    (isMem : b.isMem = true) (kind : c.op.kind = .reg (some (.gpr r)))
    (madeB : b.gadget t.inst = some gb) (madeC : c.gadget t.inst = some gc)
    (independent : gb.depend gc = false)
    : r.reg ∉ b.touched t.inst := by
  intro touched
  cases kindB : b.op.kind with
  | mem n =>
    simp only [Copy.touched, kindB, mem_singleton] at touched
    have killed := (Copy.gadget_mem kindB madeB).2
    have used := (Copy.gadget_reg kind madeC).2
    have meets : gc.use.meets gb.kill = true := by
      refine LocSet.meets_of_mem used (killed ▸ mem_singleton_self _) ?_
      have halves : t.inst.carrier.hasHalves = true := by
        simp only [Inst.carrier, carrier]
        split <;> rfl
      rw [← touched] at halves ⊢
      simp [Loc.same, RegName.same, Gpr.name, halves]
    simp [Gadget.depend, meets] at independent
  | _ => simp [Copy.isMem, kindB] at isMem

end SimpleTest

theorem Emits.of_append {front back : List Copy} (emits : Emits inst (front ++ back) gs)
    : ∃ first last, gs = first ++ last ∧ Emits inst front first ∧ Emits inst back last := by
  induction front generalizing gs with
  | nil => exact ⟨[], gs, rfl, .nil, emits⟩
  | cons c rest ih =>
    cases emits with
    | cons made later =>
      obtain ⟨first, last, rfl, left, right⟩ := ih later
      exact ⟨_ :: first, last, rfl, .cons made left, right⟩

namespace SimpleTest

variable {cpu : Cpu} {τ : Translation} {t : SimpleTest} {before after : List Copy} {c : Copy}

theorem op_mem (t : SimpleTest) {c : Copy} (mem : c ∈ t.ran) : c.op ∈ t.inst.operands := by
  obtain ⟨pick, picked, here⟩ := mem_flatMap.mp (t.ranAll.mem_iff.mp mem)
  have copied := mem_of_picks picked
  have same : c.op = pick.1 := by
    simp only [copiesOf] at here
    split at here
    · obtain ⟨i, _, rfl⟩ := mem_map.mp here
      rfl
    · rw [mem_singleton.mp here]
  rw [same]
  rcases mem_append.mp copied with isReg | isMem
  · exact (mem_filter.mp isReg).1
  · exact (mem_filter.mp isMem).1

theorem rel_of_before {R : Copy → Copy → Prop} (pairwise : cs.Pairwise R)
    (split : cs = before ++ c :: after) {b : Copy} (mem : b ∈ before)
    : R b c := by
  rw [split, pairwise_append] at pairwise
  exact pairwise.2.2 b mem c mem_cons_self

theorem exists_gadget (t : SimpleTest) {c : Copy} (mem : c ∈ t.ran)
    : ∃ g, c.gadget t.inst = some g := by
  have listed := mem_map_of_mem (f := Copy.gadget t.inst) mem
  rw [t.emitted.map] at listed
  obtain ⟨g, _, same⟩ := mem_map.mp listed
  exact ⟨g, same.symm⟩

/-- Earlier copies leave the general purpose register of an output alone. -/
theorem Intact.register_kept (intact : t.Intact cpu τ) (split : t.ran = before ++ c :: after)
    (output : t.inst.writes c.op = true) {r : GReg} (kind : c.op.kind = .reg (some (.gpr r)))
    : r.reg ∉ before.flatMap (Copy.touched t.inst) := by
  intro mem
  obtain ⟨b, earlier, touched⟩ := mem_flatMap.mp mem
  have clean := rel_of_before intact.unspoiled split earlier output
  simp only [Spoils, kind, not_and] at clean
  cases isMem : b.isMem with
  | false => exact clean isMem touched
  | true =>
    obtain ⟨gb, madeB⟩ := t.exists_gadget (c := b) (by rw [split]; simp [earlier])
    obtain ⟨gc, madeC⟩ := t.exists_gadget (c := c) (by rw [split]; simp)
    exact notMem_touched_of_before isMem kind madeB madeC
      (rel_of_before t.ran_pairwise split earlier gb gc madeB madeC) touched

section

variable {s : St}
  (frame
    : Frame (before.flatMap (Copy.writes τ (t.tested.gpr .esp)))
        (before.flatMap (Copy.touched t.inst)) (before.any Copy.isSt) (t.entered cpu) s)

include frame

/-- When the gadget of an output register starts, the register is as it was. -/
theorem Intact.register_unchanged (intact : t.Intact cpu τ)
    (split : t.ran = before ++ c :: after) (output : t.inst.writes c.op = true)
    {name : RegName} (kind : c.op.kind = .reg (some name)) (copied : 0 < name.copiedBytes)
    (i : Nat)
    : name.byte cpu s i = name.byte cpu t.tested i := by
  cases name with
  | gpr r =>
    have kept := frame.gpr _ (intact.register_kept split output kind)
    exact congrArg (byteAt · i) (r.value_congr kept)
  | seg sg => exact congrArg (fun seg => byteAt (seg sg) i) frame.seg
  | cr n => exact congrArg (fun cr => byteAt (cr n) i) frame.cr
  | dr n => exact congrArg (fun dr => byteAt (dr n) i) frame.dr
  | eflags => exact congrArg (fun eflags => byteAt (cpu.pushed eflags) i) frame.eflags
  | mm n => exact congrArg (byteAt · i) (frame.mm n)
  | xmm n => exact congrArg (byteAt · i) (frame.xmm n)
  | st n =>
    have plain : before.any Copy.isSt = false := by
      refine any_eq_false.mpr (fun b earlier isSt => ?_)
      have clean := rel_of_before intact.unspoiled split earlier output
      simp only [Spoils, kind] at clean
      exact clean isSt
    exact congrArg (byteAt · i) (frame.st plain n)
  | _ => exact absurd copied (Nat.lt_irrefl 0)

/-- When the gadget of a memory output starts, its text denotes the operand, which is as it
was.
-/
theorem Intact.memory_unchanged (intact : t.Intact cpu τ)
    (split : t.ran = before ++ c :: after) (output : t.inst.writes c.op = true) {n : Nat}
    (kind : c.op.kind = .mem n) (tr : cpu.tr s = τ) {i : Nat} (inside : i < c.op.len)
    : s.mem (cpu.place s (t.inst.text 0) i) = t.tested.mem (t.operand i) := by
  have isMem : c.isMem = true := by simp [Copy.isMem, kind]
  have inRan : c ∈ t.ran := by rw [split]; simp
  obtain ⟨located, notReturn⟩ := intact.located c inRan output isMem i inside
  have clean (b : Copy) (earlier : b ∈ before) : ¬ t.Spoils τ b c :=
    rel_of_before intact.unspoiled split earlier output
  simp only [Spoils, kind, not_or, not_exists, not_and] at clean
  have address : (t.inst.text 0).offset s.gpr = (t.inst.text 0).offset t.tested.gpr := by
    refine MemOp.offset_congr _ (fun r mem => frame.gpr r (fun touched => ?_))
    obtain ⟨b, earlier, here⟩ := mem_flatMap.mp touched
    exact (clean b earlier).1 r mem here
  have place : cpu.place s (t.inst.text 0) i = t.operand i := by
    rw [← located, Cpu.place, Cpu.place, address, tr, intact.steady.1]
  have apart : t.operand i ∉ before.flatMap (Copy.writes τ (t.tested.gpr .esp)) := by
    intro written
    obtain ⟨b, earlier, here⟩ := mem_flatMap.mp written
    exact (clean b earlier).2 i inside here
  rw [place, frame.mem _ apart]
  exact cpu.exec_mem (i := .movlLabel t.label t.returnOp) notReturn

end

/-- The gadget of an output stores all bytes of the operand. -/
theorem Intact.stored (intact : t.Intact cpu τ) (split : t.ran = before ++ c :: after)
    (output : t.inst.writes c.op = true) {s : St}
    (frame
      : Frame (before.flatMap (Copy.writes τ (t.tested.gpr .esp)))
          (before.flatMap (Copy.touched t.inst)) (before.any Copy.isSt) (t.entered cpu) s)
    {g : Gadget} (made : c.gadget t.inst = some g)
    (steady : ∀ step ∈ cpu.steps s g.asm, cpu.tr step.1 = τ) {i : Nat} (inside : i < c.op.len)
    : (cpu.run s g.asm).mem (τ.data c.dest i) = t.operandByte cpu c.op i := by
  have inRan : c ∈ t.ran := by rw [split]; simp
  have copyable := intact.copyable c.op (t.op_mem inRan) output
  cases kind : c.op.kind with
  | reg name =>
    cases name with
    | none => simp [Copy.gadget, kind] at made
    | some name =>
      simp only [Inst.Copyable, kind] at copyable
      have same := intact.register_unchanged frame split output kind (by omega) i
      simp only [operandByte, kind, ← same]
      exact (run_reg2Mem (Copy.gadget_reg kind made).1 steady).2 copyable i inside
  | mem n =>
    simp only [Inst.Copyable, kind] at copyable
    obtain ⟨asm, _⟩ := Copy.gadget_mem kind made
    rw [asm] at steady ⊢
    have tr : cpu.tr s = τ := steady (s, _) mem_cons_self
    simp only [operandByte, kind, ← intact.memory_unchanged frame split output kind tr inside]
    exact (run_mem2Mem (t.inst.text 0) c.dest steady).2 i (by omega)
  | other => simp [Copy.gadget, kind] at made

/-- An output is at its word when the copies of its test have run. -/
theorem Intact.copied (intact : t.Intact cpu τ) (split : t.ran = before ++ c :: after)
    (output : t.inst.writes c.op = true) {i : Nat} (inside : i < c.op.len)
    (apart : ∀ y ∈ after, τ.data c.dest i ∉ y.writes τ (t.tested.gpr .esp))
    : (t.final cpu).mem (τ.data c.dest i) = t.operandByte cpu c.op i := by
  have emitted := t.emitted
  have steady := intact.steady.2
  rw [split] at emitted
  obtain ⟨first, rest, post, early, later⟩ := Emits.of_append emitted
  cases later with
  | @cons _ g _ last made late =>
    rw [SimpleTest.final]
    simp only [SimpleTest.code, post, flatMap_append, flatMap_cons,
      Cpu.steps_append, mem_append, Cpu.run_append] at steady ⊢
    have earlyFrame := run_copies_frame early (fun step mem => steady step (Or.inl mem))
    have own := fun step mem => steady step (Or.inr (Or.inl mem))
    have ownFrame := run_copy_frame made own
    have lateFrame := run_copies_frame late
      (fun step mem => steady step (Or.inr (Or.inr mem)))
    -- no copy moves the stack pointer
    have esp := (ownFrame.gpr _ (c.esp_notMem_touched t.inst)).trans
      (earlyFrame.gpr .esp (fun mem => by
        obtain ⟨b, _, touched⟩ := mem_flatMap.mp mem
        exact b.esp_notMem_touched t.inst touched))
    rw [lateFrame.mem _ ?_]
    · exact intact.stored split output earlyFrame made own inside
    · rw [esp]
      intro written
      obtain ⟨y, mem, here⟩ := mem_flatMap.mp written
      exact apart y mem here

theorem Intact.kept (intact : t.Intact cpu τ) {a : Word}
    (apart : ∀ y ∈ t.ran, a ∉ y.writes τ (t.tested.gpr .esp))
    : (t.final cpu).mem a = (t.entered cpu).mem a := by
  refine (run_copies_frame t.emitted intact.steady.2).mem a (fun written => ?_)
  obtain ⟨y, mem, here⟩ := mem_flatMap.mp written
  exact apart y mem here

end SimpleTest

theorem Keeps.finish {cpu : Cpu} {τ : Translation} {a : Word} {later : List SimpleTest}
    {s finish : St} (keeps : Keeps cpu a s later finish)
    (intact : ∀ t ∈ later, t.Intact cpu τ)
    (apart : ∀ t ∈ later, ∀ y ∈ t.ran, a ∉ y.writes τ (t.tested.gpr .esp))
    : finish.mem a = s.mem a := by
  induction later generalizing s with
  | nil => exact keeps
  | cons t rest ih =>
    obtain ⟨entered, others⟩ := keeps
    have own := (intact t mem_cons_self).kept (apart t mem_cons_self)
    have tail := ih others (fun t mem => intact t (mem_cons_of_mem _ mem))
      (fun t mem => apart t (mem_cons_of_mem _ mem))
    rw [tail, own, entered]

theorem SimpleTest.mem_ran_of_picked {t : SimpleTest} {op : Operand} {dest : Nat}
    (picked : (op, dest) ∈ t.inst.picked t.choices t.draws) (long : op.len ≠ 0)
    : ⟨op, dest⟩ ∈ t.ran := by
  refine t.ranAll.mem_iff.mpr (mem_flatMap.mpr ⟨_, picked, ?_⟩)
  simp only [copiesOf]
  split
  · exact mem_map.mpr ⟨0, mem_range.mpr (by omega), rfl⟩
  · exact mem_singleton.mpr rfl

/-- Words are picked for every output that can be copied. -/
theorem SimpleTest.Intact.picked {cpu : Cpu} {τ : Translation} {t : SimpleTest}
    (intact : t.Intact cpu τ) {op : Operand} (member : op ∈ t.inst.operands)
    (output : t.inst.writes op = true) (long : op.len ≠ 0)
    : ∃ dest, (op, dest) ∈ t.inst.picked t.choices t.draws := by
  refine exists_picks (mem_append.mpr ?_) _
  have copyable := intact.copyable op member output
  cases kind : op.kind with
  | reg name =>
    cases name with
    | none => simp [Inst.Copyable, kind, long] at copyable
    | some name =>
      refine Or.inl (mem_filter.mpr ⟨member, ?_⟩)
      simpa [Inst.copiesReg, Inst.writes, kind, long] using output
  | mem n =>
    simp only [Inst.Copyable, kind] at copyable
    refine Or.inr (mem_filter.mpr ⟨member, ?_⟩)
    simpa [Inst.copiesMem, Inst.writes, kind, copyable.1] using output
  | other => simp [Inst.writes, kind] at output

/-- In a program whose copies read and write in the right places, every output of every test
is found at the words picked for it.
Witness: a copy is right when it is made, and later copies and other code leave it alone.
-/
theorem outputs_survive (run : SimpleRun) (intact : run.Intact) : run.Holds := by
  intro t member op listed output long
  have test := intact.tests t member
  refine ⟨test.picked listed output long, fun dest picked i inside => ?_⟩
  have inRan := SimpleTest.mem_ran_of_picked picked long
  obtain ⟨front, back, tests⟩ := append_of_mem member
  obtain ⟨before, after, split⟩ := append_of_mem inRan
  have apart := intact.apart
  rw [SimpleRun.copies, pairwise_flatMap, tests] at apart
  obtain ⟨within, between⟩ := apart
  have own := pairwise_map.mp (within t (by simp))
  have later := (pairwise_cons.mp (pairwise_append.mp between).2.1).1
  have keeps := intact.kept front t back tests ⟨op, dest⟩ inRan output i inside
  rw [keeps.finish (τ := run.τ) (fun t' inBack => intact.tests t' (by rw [tests]; simp [inBack]))
    (fun t' inBack y ran => later t' inBack (t, ⟨op, dest⟩) (mem_map_of_mem inRan)
      (t', y) (mem_map_of_mem ran) output i inside)]
  refine test.copied split output inside (fun y inAfter => ?_)
  rw [split, pairwise_append, pairwise_cons] at own
  exact own.2.1.1 y inAfter output i inside

/-- The gadgets of a test, generated and sorted. -/
def simpleLists (inst : Inst) (choices : Choices) (draws : Nat)
    : Option (List Gadget × GenState × List Gadget) := do
  let (output, after) ← genSimpleRoot inst choices (.drawn draws)
  let post ← sortGadget .insertion output
  some (output, after, post)

theorem simpleLists_spec {choices : Choices} {draws : Nat} {after : GenState}
    (made : simpleLists inst choices draws = some (output, after, post))
    : genSimpleRoot inst choices (.drawn draws) = some (output, after)
      ∧ sortGadget .insertion output = some post := by
  simp only [simpleLists, Option.bind_eq_bind, Option.bind_eq_some_iff, Prod.exists] at made
  obtain ⟨_, _, generated, _, sorted, final⟩ := made
  cases final
  exact ⟨generated, sorted⟩

theorem emits_of_map (same : cs.map (Copy.gadget inst) = gs.map some) : Emits inst cs gs := by
  induction cs generalizing gs with
  | nil =>
    rw [map_eq_nil_iff.mp same.symm]
    exact .nil
  | cons c rest ih =>
    cases gs with
    | nil => cases same
    | cons g gs =>
      rw [map_cons, map_cons, List.cons.injEq] at same
      exact .cons same.1 (ih same.2)

/-- A test on the flat machine. -/
def flatTest (inst : Inst) (choices : Choices) (draws : Nat) (ran : List Copy) (tested : St)
    (listed
      : (simpleLists inst choices draws).any
          (fun lists => ran.map (Copy.gadget inst) = lists.2.2.map some)
        = true)
    (all : ran.Perm (inst.copies choices draws))
    : SimpleTest :=
  match made : simpleLists inst choices draws with
  | none => by simp [made] at listed
  | some (output, after, post) =>
    { inst := inst
      choices := choices
      draws := draws
      output := output
      after := after
      made := (simpleLists_spec made).1
      order := .insertion
      post := post
      sorted := (simpleLists_spec made).2
      ran := ran
      ranAll := all
      emitted := by
        rw [made] at listed
        exact emits_of_map (of_decide_eq_true listed)
      label := 0
      retseg := .fs
      retp := 0x128d008
      tested := tested
      operand := lowOperand 0x500000 0 }

/-- Words 16 bytes apart. -/
def spreadChoices : Choices := ⟨fun draw => 0x1300000 + 16 * draw, fun _ => 0⟩

/-- The same word for every operand. -/
def stuckChoices : Choices := ⟨fun _ => 0x1300000, fun _ => 0⟩

def ediMemory : MemoryOperand := ⟨some .ds, 0, 0, some ⟨.edi, .full⟩, none, 0, true, true⟩

/-- `add %ebx,(%edi)` -/
def addEbx : Inst where
  operands :=
    [⟨.mem 0, 4, .readWrite⟩, ⟨.reg (some Gpr.ebx.name), 4, .read⟩,
      ⟨.reg (some .eflags), 4, .write⟩]
  memory _ := ediMemory
  xlat := false
  ltr := false
  popCategory := false

/-- `movq %mm0,(%edi)` -/
def storeMm0 : Inst where
  operands := [⟨.mem 0, 8, .write⟩, ⟨.reg (some (.mm 0)), 8, .read⟩]
  memory _ := ediMemory
  xlat := false
  ltr := false
  popCategory := false

/-- The copies of `add %ebx,(%edi)`; EFLAGS comes first. -/
def addCopies (eflags memory : Nat) : List Copy :=
  [⟨⟨.reg (some .eflags), 4, .write⟩, eflags⟩, ⟨⟨.mem 0, 4, .readWrite⟩, memory⟩]

/-- A test that leaves the given value at the operand. -/
def addTest (choices : Choices) (draws eflags memory : Nat) (value : Word) (s : St)
    (listed
      : (simpleLists addEbx choices draws).any
          (fun lists =>
            (addCopies eflags memory).map (Copy.gadget addEbx) = lists.2.2.map some)
        = true)
    (all : (addCopies eflags memory).Perm (addEbx.copies choices draws))
    : SimpleTest :=
  flatTest addEbx choices draws (addCopies eflags memory)
    { s with mem := write s.mem (lowOperand 0x500000 0) value 4, eflags := 0x46 } listed all

def firstAdd : SimpleTest :=
  addTest spreadChoices 0 0x1300010 0x1300020 5 (flatState (storeRegs .edi 0x500000) [])
    (by decide +kernel) (by decide +kernel)

theorem exists_ran_firstAdd
    : ∃ ran : List Copy,
        ran.Perm (firstAdd.inst.copies firstAdd.choices firstAdd.draws)
        ∧ Emits firstAdd.inst ran firstAdd.post :=
  exists_ran firstAdd.made firstAdd.sorted

def secondAdd : SimpleTest :=
  addTest spreadChoices 3 0x1300040 0x1300050 6 (firstAdd.final flatCpu)
    (by decide +kernel) (by decide +kernel)

/-- Two tests of the same instruction. -/
def addRun : SimpleRun := ⟨flatCpu, flat, [firstAdd, secondAdd], secondAdd.final flatCpu⟩

theorem firstAdd_intact : firstAdd.Intact flatCpu flat where
  steady := ⟨rfl, fun _ _ => rfl⟩
  copyable := by decide +kernel
  unspoiled := by decide +kernel
  located := by decide +kernel

theorem secondAdd_intact : secondAdd.Intact flatCpu flat where
  steady := ⟨rfl, fun _ _ => rfl⟩
  copyable := by decide +kernel
  unspoiled := by decide +kernel
  located := by decide +kernel

theorem addRun_intact : addRun.Intact where
  tests t mem := by
    rcases mem_cons.mp mem with rfl | later
    · exact firstAdd_intact
    · rw [mem_singleton.mp later]
      exact secondAdd_intact
  apart := by decide +kernel
  kept front t back split c mem output i inside := by
    cases front with
    | nil =>
      cases split
      have clear : ∀ c ∈ firstAdd.ran, ∀ i < c.op.len,
          (secondAdd.entered flatCpu).mem (flat.data c.dest i)
            = (firstAdd.final flatCpu).mem (flat.data c.dest i) := by
        decide +kernel
      exact ⟨clear c mem i inside, rfl⟩
    | cons first rest =>
      cases rest with
      | nil =>
        cases split
        exact rfl
      | cons other rest =>
        have lengths := congrArg List.length split
        simp [addRun] at lengths

/-- Both sums and both values of EFLAGS are found at the end. -/
theorem outputs_survive_addRun : addRun.Holds := outputs_survive addRun addRun_intact

def storeCopies : List Copy := [⟨⟨.mem 0, 8, .write⟩, 0x1300014⟩, ⟨⟨.mem 0, 8, .write⟩, 0x1300010⟩]

/-- The instruction has stored two different blocks. -/
def storeTest : SimpleTest :=
  flatTest storeMm0 spreadChoices 0 storeCopies
    (flatState (storeRegs .edi 0x500000) [(0x500000, 0x11111111), (0x500004, 0x22222222)])
    (by decide +kernel) (by decide +kernel)

def storeRun : SimpleRun := ⟨flatCpu, flat, [storeTest], storeTest.final flatCpu⟩

/-- One word has been picked for both outputs. -/
def stuckTest : SimpleTest :=
  addTest stuckChoices 0 0x1300000 0x1300000 5 (flatState (storeRegs .edi 0x500000) [])
    (by decide +kernel) (by decide +kernel)

def stuckRun : SimpleRun := ⟨flatCpu, flat, [stuckTest], stuckTest.final flatCpu⟩

/-- The second block of a long operand is lost, since the first one is copied twice; and a
copy is lost when the same word is picked again.
-/
theorem outputs_lost : ¬ storeRun.Holds ∧ ¬ stuckRun.Holds := by
  refine ⟨fun holds => ?_, fun holds => ?_⟩
  · have copy := (holds storeTest (by simp [storeRun]) ⟨.mem 0, 8, .write⟩ (by decide +kernel)
      (by decide +kernel) (by decide)).2 0x1300010 (by decide +kernel) 4 (by decide)
    exact absurd copy (by decide +kernel)
  · have copy := (holds stuckTest (by simp [stuckRun]) ⟨.reg (some .eflags), 4, .write⟩
      (by decide +kernel) (by decide +kernel) (by decide)).2 0x1300000 (by decide +kernel) 0
      (by decide)
    exact absurd copy (by decide +kernel)

end FastPokeEmu.Floppy
