import FastPokeEmu.Floppy.FlatMachine

/-! Copies of a word to an operand (`gen_store_mem`, `gen_store_change_mem`), for all operands
that `get_mem_op` prints. The address of the operand is computed after the word has been
loaded, so the register that carries the word must not be part of the address.
-/

namespace FastPokeEmu.Floppy

open ByteMemory List Function Cpu
open BitVec (ofInt ofNat)

/-- Operands that `get_mem_op` prints and the assembler reads as they are meant: an index needs
a base, address registers have 32 bits or are those of 16-bit addressing.
-/
structure MemOp.Printed (m : MemOp) : Prop where
  legible : m.Legible
  scale : m.scale ∈ [0, 1, 2, 4, 8]
  index : m.index.isSome = true → m.base.isSome = true
  width : ∀ r, m.base = some r ∨ m.index = some r
    → r.part = .full ∨ r.part = .word ∧ r.reg ∈ [Gpr.ebx, .ebp, .esi, .edi]

/-- The two words and the top of the stack do not overlap. -/
structure Separate (cpu : Cpu) (s : St) (src dest : MemOp) : Prop where
  words : ∀ i < 4, ∀ j < 4, cpu.place s src i ≠ cpu.place s dest j
  stack : ∀ i < 4, ∀ j < 4,
    (cpu.stackPlace s i ≠ cpu.place s src j ∧ cpu.stackPlace s i ≠ cpu.place s dest j)
    ∧ cpu.slotPlace s i ≠ cpu.place s src j ∧ cpu.slotPlace s i ≠ cpu.place s dest j

/-- The destination holds the word of the source, at the address it had before, and no other
memory has changed.
-/
structure WordCopied (cpu : Cpu) (s : St) (src dest : MemOp) (s' : St) : Prop where
  word : read 32 s'.mem (cpu.place s dest) 4 = cpu.word s src
  others : ∀ a, (∀ i < 4, a ≠ cpu.place s dest i) → s'.mem a = s.mem a

/-- Code that copies a word on every machine. -/
def CopiesWord (src dest : MemOp) (code : List Asm) : Prop :=
  ∀ (cpu : Cpu) (s : St), Separate cpu s src dest → WordCopied cpu s src dest (cpu.run s code)

section

variable {cpu : Cpu} {s : St} {src dest : MemOp}

theorem Separate.distinct (separate : Separate cpu s src dest) (k k' : Bool) (i i' : Nat)
    (small : i < 4) (small' : i' < 4)
    (same
      : (if k then cpu.place s dest else cpu.place s src) i
        = (if k' then cpu.place s dest else cpu.place s src) i')
    : k = k' ∧ i = i' := by
  have near (m : MemOp) (equal : cpu.place s m i = cpu.place s m i') : i = i' :=
    cpu.near s.base s.cr s.mem m.segment _ i i' (by omega) (by omega) equal
  cases k <;> cases k'
  · exact ⟨rfl, near src same⟩
  · exact (separate.words i small i' small' same).elim
  · exact (separate.words i' small' i small same.symm).elim
  · exact ⟨rfl, near dest same⟩

/-- The two words under their addresses. -/
def Separate.pair (separate : Separate cpu s src dest) : Words Bool Word where
  place k := if k then cpu.place s dest else cpu.place s src
  distinct := separate.distinct

variable (separate : Separate cpu s src dest)

theorem Separate.reads : Points separate.pair (cpu.tr s) s.gpr src false := fun _ _ => rfl

theorem Separate.writes : Points separate.pair (cpu.tr s) s.gpr dest true := fun _ _ => rfl

include separate

theorem Separate.copied {s' : St}
    (mem : s'.mem = write s.mem (cpu.place s dest) (cpu.word s src) 4)
    : WordCopied cpu s src dest s' := by
  refine ⟨?_, fun a away => ?_⟩
  · rw [mem]
    exact read_write_all s.mem _ rfl fun i small j small' same =>
      (separate.pair.distinct true true i j small small' same).2
  · rw [mem]
    exact write_other s.mem _ away

omit separate in
theorem copied_of_equal {s' : St} (mem : s'.mem = s.mem)
    (equal : cpu.word s dest = cpu.word s src)
    : WordCopied cpu s src dest s' := by
  refine ⟨?_, fun a _ => by rw [mem]⟩
  rw [mem]
  exact equal

theorem copied_storeMem (tb : Tables) (away : carrier src dest ∉ dest.regs)
    : WordCopied cpu s src dest (cpu.run s (genStoreMem tb src dest).asm) := by
  apply separate.copied
  have code : (genStoreMem tb src dest).asm = (copyWord src dest).map .ins := rfl
  rw [code, cpu.run_ins, run_copyWord rfl separate.reads separate.writes away]
  rfl

/-- The state after the comparison. -/
def compared (cpu : Cpu) (s : St) (src dest : MemOp) : St :=
  { s with
    gpr := update s.gpr (carrier src dest) (cpu.word s dest)
    eflags := cpu.flags .cmp (cpu.word s src) (cpu.word s dest) s.eflags }

/-- The copy is skipped only when the destination already holds the word. -/
theorem Separate.run_storeChange (tb : Tables) (mnemonic : String)
    (awaySrc : carrier src dest ∉ src.regs)
    : cpu.run s (genStoreChangeMem tb src dest mnemonic).asm
      = if cpu.word s src = cpu.word s dest then compared cpu s src dest
        else (copyWord src dest).foldl cpu.exec (compared cpu s src dest) := by
  have first := exec_load_cmp (rfl : cpu.tr s = cpu.tr s) separate.reads separate.writes awaySrc
  have held : separate.pair.value s.mem false = cpu.word s src := rfl
  have holding : separate.pair.value s.mem true = cpu.word s dest := rfl
  rw [held, holding, ← compared] at first
  rw [genStoreChangeMem_asm, run_cons, run_cons, run_cons, run_nil]
  simp only [Cpu.execAsm, first]
  have flag : zf (compared cpu s src dest).eflags = (cpu.word s src == cpu.word s dest) :=
    cpu.flags_cmp _ _ _
  rw [flag]
  simp only [beq_iff_eq]

theorem copied_storeChange (tb : Tables) (mnemonic : String)
    (awaySrc : carrier src dest ∉ src.regs) (awayDest : carrier src dest ∉ dest.regs)
    : WordCopied cpu s src dest (cpu.run s (genStoreChangeMem tb src dest mnemonic).asm) := by
  rw [separate.run_storeChange tb mnemonic awaySrc]
  split
  next equal =>
    exact copied_of_equal rfl equal.symm
  · have reads : Points separate.pair (cpu.tr s) (compared cpu s src dest).gpr src false :=
      separate.reads.update _ awaySrc
    have writes : Points separate.pair (cpu.tr s) (compared cpu s src dest).gpr dest true :=
      separate.writes.update _ awayDest
    apply separate.copied
    rw [run_copyWord (s := compared cpu s src dest) rfl reads writes awayDest]
    rfl

end

theorem MemOp.Printed.mentionsEax_iff {m : MemOp} (printed : m.Printed)
    : m.mentionsEax = true ↔ .eax ∈ m.regs := by
  obtain ⟨_, _, needsBase, _⟩ := printed
  obtain ⟨seg, disp, base, index, scale⟩ := m
  cases base with
  | none =>
    cases index with
    | none => simp [MemOp.mentionsEax, MemOp.regs]
    | some index => cases needsBase rfl
  | some base =>
    cases index with
    | none | some => simp [MemOp.mentionsEax, MemOp.regs, @eq_comm _ Gpr.eax]

theorem MemOp.Printed.carrier_mem_iff {m : MemOp} (printed : m.Printed) (addr : Nat)
    : carrier (.abs addr) m ∈ m.regs ↔ .eax ∈ m.regs ∧ .ecx ∈ m.regs := by
  have absolute : (MemOp.abs addr).mentionsEax = false := rfl
  rw [carrier, absolute, Bool.false_or]
  by_cases mentioned : m.mentionsEax = true
  · rw [if_pos mentioned]
    exact (and_iff_right (printed.mentionsEax_iff.mp mentioned)).symm
  · rw [if_neg mentioned]
    have absent : .eax ∉ m.regs := fun mem => mentioned (printed.mentionsEax_iff.mpr mem)
    exact iff_of_false absent (fun both => absent both.1)

/-- A word at an address, whose low byte occurs nowhere else. -/
def lonely (value home : Word) (a : Word) : Byte :=
  if (a - home).toNat < 4 then byteAt value (a - home).toNat else byteAt value 0 + 1

/-- The source holds the value of ECX minus four. -/
def crossed (src eax ecx : Word) : St where
  gpr r :=
    match r with
    | .eax => eax
    | .ecx => ecx
    | .esp => src + 0x3000
    | _ => 0
  eflags := 0
  seg _ := 0
  base _ := 0
  cr _ := 0
  dr _ := 0
  ext _ := 0
  mem := lonely (ecx - 4) src

section

variable {addr : Nat} {dest : MemOp} {eax ecx src : Word} {step : Nat}

theorem lonely_read (value home : Word)
    : read 32 (lonely value home) (fun i => home + ofNat 32 i) 4 = value := by
  refine byteAt_ext (n := 4) rfl fun i small => ?_
  rw [ByteMemory.read, byteAt_assemble (by decide) _ small]
  have offset : (home + ofNat 32 i - home).toNat = i := by bv_omega
  rw [lonely, offset, if_pos small]

theorem lonely_other (value : Word) {home a : Word} (away : 4 ≤ (a - home).toNat)
    : lonely value home a ≠ byteAt value 0 := by
  rw [lonely, if_neg (by omega)]
  bv_omega

theorem read_ne {mem : Word → Byte} {a value : Word} (low : mem a ≠ byteAt value 0)
    : read 32 mem (fun i => a + ofNat 32 i) 4 ≠ value := by
  intro same
  apply low
  rw [← same, ByteMemory.read, byteAt_assemble (by decide) _ (by decide)]
  congr 1
  exact (BitVec.add_zero a).symm

theorem separate_crossed (aim : dest.offset (crossed (.ofInt 32 addr) eax ecx).gpr
      = .ofInt 32 addr + 0x1000)
    : Separate flatCpu (crossed (.ofInt 32 addr) eax ecx) (.abs addr) dest := by
  have source (i : Nat) : flatCpu.place (crossed (.ofInt 32 addr) eax ecx) (.abs addr) i
      = .ofInt 32 addr + ofNat 32 i := rfl
  have target (i : Nat) : flatCpu.place (crossed (.ofInt 32 addr) eax ecx) dest i
      = .ofInt 32 addr + 0x1000 + ofNat 32 i := by
    rw [← aim]
    rfl
  have top (i : Nat) : flatCpu.stackPlace (crossed (.ofInt 32 addr) eax ecx) i
      = .ofInt 32 addr + 0x3000 + ofNat 32 i := rfl
  have slot (i : Nat) : flatCpu.slotPlace (crossed (.ofInt 32 addr) eax ecx) i
      = .ofInt 32 addr + 0x3000 - 4 + ofNat 32 i := rfl
  refine ⟨fun i small j small' => ?_, fun i small j small' => ⟨⟨?_, ?_⟩, ?_, ?_⟩⟩
  · rw [source, target]
    bv_omega
  · rw [top, source]
    bv_omega
  · rw [top, target]
    bv_omega
  · rw [slot, source]
    bv_omega
  · rw [slot, target]
    bv_omega

theorem exec_copyWord_ecx {s : St} {value : Word} (viaEcx : carrier (.abs addr) dest = .ecx)
    (holds : flatCpu.word s (.abs addr) = value)
    : ((copyWord (.abs addr) dest).foldl flatCpu.exec s).mem
      = write s.mem
          (fun i => dest.offset (update s.gpr .ecx value) + ofNat 32 i)
          value 4 := by
  subst holds
  rw [copyWord, viaEcx]
  rfl

/-- The address of the operand moves with ECX, out of the destination word. -/
structure Strays (dest : MemOp) (src eax ecx : Word) (step : Nat) : Prop where
  aim : dest.offset (crossed src eax ecx).gpr = src + 0x1000
  stray : dest.offset (update (crossed src eax ecx).gpr .ecx (ecx - 4))
    = src + 0x1000 - ofNat 32 (4 * step)
  step : step ∈ [1, 2, 4, 8]

theorem crossed_source (addr : Nat) (eax ecx : Word)
    : flatCpu.word (crossed (.ofInt 32 addr) eax ecx) (.abs addr) = ecx - 4 :=
  lonely_read (ecx - 4) _

theorem Strays.place (strays : Strays dest src eax ecx step)
    : flatCpu.place (crossed src eax ecx) dest = fun i => src + 0x1000 + ofNat 32 i := by
  rw [← strays.aim]
  rfl

theorem Strays.word (strays : Strays dest src eax ecx step)
    : flatCpu.word (crossed src eax ecx) dest
      = read 32 (lonely (ecx - 4) src) (fun i => src + 0x1000 + ofNat 32 i) 4 := by
  rw [← strays.place]
  rfl

section

variable (strays : Strays dest (.ofInt 32 addr) eax ecx step)

include strays

/-- The stray write leaves the low byte of the destination alone. -/
theorem Strays.not_copied {s' : St} {gpr : Gpr → Word}
    (same : update gpr .ecx (ecx - 4)
      = update (crossed (.ofInt 32 addr) eax ecx).gpr .ecx (ecx - 4))
    (mem : s'.mem = write (lonely (ecx - 4) (.ofInt 32 addr))
      (fun i => dest.offset (update gpr .ecx (ecx - 4)) + ofNat 32 i)
      (ecx - 4) 4)
    : ¬ WordCopied flatCpu (crossed (.ofInt 32 addr) eax ecx) (.abs addr) dest s' := by
  rintro ⟨word, _⟩
  rw [crossed_source, strays.place] at word
  refine read_ne ?_ word
  rw [mem, same, strays.stray]
  have bounds := strays.step
  simp only [mem_cons, not_mem_nil, or_false] at bounds
  rw [write_other]
  · exact lonely_other _ (by bv_omega)
  · intro i small
    rcases bounds with rfl | rfl | rfl | rfl <;> bv_omega

theorem Strays.storeMem (viaEcx : carrier (.abs addr) dest = .ecx) (tb : Tables)
    : ¬ WordCopied flatCpu (crossed (.ofInt 32 addr) eax ecx) (.abs addr) dest
        (flatCpu.run (crossed (.ofInt 32 addr) eax ecx) (genStoreMem tb (.abs addr) dest).asm) := by
  refine strays.not_copied rfl ?_
  have code : (genStoreMem tb (.abs addr) dest).asm = (copyWord (.abs addr) dest).map .ins := rfl
  rw [code, flatCpu.run_ins]
  exact exec_copyWord_ecx viaEcx (lonely_read (ecx - 4) _)

theorem Strays.storeChange (viaEcx : carrier (.abs addr) dest = .ecx) (tb : Tables)
    (mnemonic : String)
    : ¬ WordCopied flatCpu (crossed (.ofInt 32 addr) eax ecx) (.abs addr) dest
        (flatCpu.run (crossed (.ofInt 32 addr) eax ecx)
          (genStoreChangeMem tb (.abs addr) dest mnemonic).asm) := by
  have separate := separate_crossed strays.aim
  have differ : flatCpu.word (crossed (.ofInt 32 addr) eax ecx) (.abs addr)
      ≠ flatCpu.word (crossed (.ofInt 32 addr) eax ecx) dest := by
    rw [crossed_source, strays.word]
    exact Ne.symm (read_ne (lonely_other _ (by bv_omega)))
  rw [separate.run_storeChange tb mnemonic not_mem_nil, if_neg differ]
  -- The word is copied, with ECX overwritten by then.
  refine strays.not_copied ?_ (exec_copyWord_ecx viaEcx ?_)
  · rw [compared, viaEcx]
    exact update_idem _ _ _
  · exact lonely_read (ecx - 4) _

end

theorem MemOp.offset_two (seg : Option Seg) (disp : Option Int) (base index : Gpr)
    (scale : Nat) (gpr : Gpr → Word)
    : MemOp.offset ⟨seg, disp, some ⟨base, .full⟩, some ⟨index, .full⟩, scale⟩ gpr
      = ofInt 32 (disp.getD 0) + gpr base
        + gpr index * ofNat 32 (max scale 1) := rfl

/-- `disp(%eax,%ecx,scale)` -/
theorem strays_index (seg : Option Seg) (disp : Option Int) {scale : Nat}
    (scales : scale ∈ [0, 1, 2, 4, 8]) (src : Word)
    : Strays ⟨seg, disp, some ⟨.eax, .full⟩, some ⟨.ecx, .full⟩, scale⟩ src
        (src + 0x1000 - .ofInt 32 (disp.getD 0)) 0 (max scale 1) where
  aim := by
    rw [MemOp.offset_two]
    simp only [crossed]
    bv_omega
  stray := by
    have down : (0 - 4 : Word) * ofNat 32 (max scale 1) = 0 - ofNat 32 (4 * max scale 1) := by
      simp only [mem_cons, not_mem_nil, or_false] at scales
      rcases scales with rfl | rfl | rfl | rfl | rfl <;> decide
    rw [MemOp.offset_two, update_self, update_of_ne (by decide), down]
    simp only [crossed]
    bv_omega
  step := by
    simp only [mem_cons, not_mem_nil, or_false] at scales
    rcases scales with rfl | rfl | rfl | rfl | rfl <;> decide

theorem strays_base (seg : Option Seg) (disp : Option Int) (scale : Nat) (src : Word)
    : Strays ⟨seg, disp, some ⟨.ecx, .full⟩, some ⟨.eax, .full⟩, scale⟩ src
        0 (src + 0x1000 - .ofInt 32 (disp.getD 0)) 1 where
  aim := by
    rw [MemOp.offset_two]
    simp only [crossed]
    bv_omega
  stray := by
    rw [MemOp.offset_two, update_self, update_of_ne (by decide)]
    simp only [crossed]
    bv_omega
  step := by decide

/-- With both registers in the address there are values for which it moves. -/
theorem MemOp.Printed.strays (printed : dest.Printed) (src : Word)
    (both : .eax ∈ dest.regs ∧ .ecx ∈ dest.regs)
    : ∃ eax ecx step, Strays dest src eax ecx step := by
  obtain ⟨_, scales, _, width⟩ := printed
  obtain ⟨seg, disp, base, index, scale⟩ := dest
  -- EAX and ECX occur in 32-bit addresses only.
  have wide (r : GReg) (occurs : base = some r ∨ index = some r)
      (named : r.reg = .eax ∨ r.reg = .ecx)
      : r = ⟨r.reg, .full⟩ := by
    obtain ⟨reg, part⟩ := r
    rcases width _ occurs with full | ⟨_, small⟩
    · exact congrArg (GReg.mk reg) full
    · rcases named with rfl | rfl <;> simp at small
  cases base with
  | none => exact nomatch both.1
  | some base =>
    cases index with
    | none =>
      have first := mem_singleton.mp both.1
      have second := mem_singleton.mp both.2
      exact absurd (first.trans second.symm) (by decide)
    | some index =>
      have first : .eax = base.reg ∨ .eax = index.reg := by simpa [MemOp.regs] using both.1
      have second : .ecx = base.reg ∨ .ecx = index.reg := by simpa [MemOp.regs] using both.2
      rcases first with first | first <;> rcases second with second | second
      · exact absurd (first.trans second.symm) (by decide)
      · rw [wide base (.inl rfl) (.inl first.symm), wide index (.inr rfl) (.inr second.symm),
          ← first, ← second]
        exact ⟨_, _, _, strays_index seg disp scales src⟩
      · rw [wide base (.inl rfl) (.inr second.symm), wide index (.inr rfl) (.inl first.symm),
          ← first, ← second]
        exact ⟨_, _, _, strays_base seg disp scale src⟩
      · exact absurd (first.trans second.symm) (by decide)

end

/-- The copies are right for a legible operand if and only if its address does not use both EAX
and ECX. Witness: the carrier is ECX if EAX occurs in the address and EAX otherwise.
-/
theorem copiesWord_iff {dest : MemOp} (printed : dest.Printed) (tb : Tables) (addr : Nat)
    (mnemonic : String)
    : (CopiesWord (.abs addr) dest (genStoreChangeMem tb (.abs addr) dest mnemonic).asm
        ↔ ¬ (.eax ∈ dest.regs ∧ .ecx ∈ dest.regs))
      ∧ (CopiesWord (.abs addr) dest (genStoreMem tb (.abs addr) dest).asm
        ↔ ¬ (.eax ∈ dest.regs ∧ .ecx ∈ dest.regs)) := by
  have carries := printed.carrier_mem_iff addr
  have viaEcx (both : .eax ∈ dest.regs ∧ .ecx ∈ dest.regs)
      : carrier (.abs addr) dest = .ecx := by
    rw [carrier, printed.mentionsEax_iff.mpr both.1, Bool.or_true, if_pos rfl]
  refine ⟨⟨fun copies both => ?_, fun free cpu s separate => ?_⟩,
    ⟨fun copies both => ?_, fun free cpu s separate => ?_⟩⟩
  · obtain ⟨eax, ecx, step, strays⟩ := printed.strays (.ofInt 32 addr) both
    exact strays.storeChange (viaEcx both) tb mnemonic
      (copies flatCpu _ (separate_crossed strays.aim))
  · apply copied_storeChange separate tb mnemonic
    · exact not_mem_nil
    · exact fun member => free (carries.mp member)
  · obtain ⟨eax, ecx, step, strays⟩ := printed.strays (.ofInt 32 addr) both
    exact strays.storeMem (viaEcx both) tb (copies flatCpu _ (separate_crossed strays.aim))
  · apply copied_storeMem separate tb
    exact fun member => free (carries.mp member)

/-- The operand `0x8(%ebx,%ecx,4)`. -/
def indexedOperand : MemOp := ⟨none, some 8, some ⟨.ebx, .full⟩, some ⟨.ecx, .full⟩, 4⟩

theorem printed_indexedOperand : indexedOperand.Printed where
  legible := by decide
  scale := by decide
  index := fun _ => rfl
  width := by
    rintro r (equal | equal) <;> cases equal <;> exact .inl rfl

theorem copiesWord_iff_indexedOperand
    : CopiesWord (.abs 0x2000) indexedOperand
        (genStoreChangeMem ⟨⟨[], []⟩, ⟨[], []⟩, [], []⟩ (.abs 0x2000) indexedOperand "copy").asm
      ∧ CopiesWord (.abs 0x2000) indexedOperand
        (genStoreMem ⟨⟨[], []⟩, ⟨[], []⟩, [], []⟩ (.abs 0x2000) indexedOperand).asm := by
  have both := copiesWord_iff printed_indexedOperand ⟨⟨[], []⟩, ⟨[], []⟩, [], []⟩ 0x2000 "copy"
  exact ⟨both.1.mpr (by decide), both.2.mpr (by decide)⟩

/-- The operand `0x0(%eax,%ecx,1)`. -/
def crossedOperand : MemOp := ⟨none, some 0, some ⟨.eax, .full⟩, some ⟨.ecx, .full⟩, 1⟩

theorem copy_strays
    : ∃ s : St, Separate flatCpu s (.abs 0x2000) crossedOperand
        ∧ ¬ WordCopied flatCpu s (.abs 0x2000) crossedOperand
          (flatCpu.run s (genStoreChangeMem ⟨⟨[], []⟩, ⟨[], []⟩, [], []⟩ (.abs 0x2000)
            crossedOperand "copy").asm) := by
  have strays := strays_index none (some 0) (by decide : 1 ∈ [0, 1, 2, 4, 8])
    (.ofInt 32 (0x2000 : Nat))
  exact ⟨_, separate_crossed strays.aim, strays.storeChange rfl _ _⟩

end FastPokeEmu.Floppy
