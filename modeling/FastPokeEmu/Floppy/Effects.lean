import FastPokeEmu.Floppy.Frames
import FastPokeEmu.Floppy.CopyGadgets

/-! What the code of the copy gadgets does, seen through a family of disjoint words: the
blocks, the backup words and the blocks of the memory operand.
-/

namespace FastPokeEmu.Floppy

open ByteMemory Function

variable {κ : Type} {gpr gpr' : Gpr → Word}

/-- The operand's word is the one under the key, for the given register values. -/
def Points (words : Words κ Word) (τ : Translation) (gpr : Gpr → Word) (m : MemOp) (k : κ)
    : Prop :=
  ∀ i < 4, τ m.segment (m.offset gpr + BitVec.ofNat 32 i) = words.place k i

/-- Registers whose values an operand's address depends on. -/
def MemOp.regs (m : MemOp) : List Gpr :=
  match m.base with
  | none => []
  | some base => base.reg :: (m.index.map GReg.reg).toList

theorem GReg.value_congr (r : GReg) (same : gpr' r.reg = gpr r.reg)
    : r.value gpr' = r.value gpr := by
  simp only [GReg.value, same]

theorem MemOp.offset_congr (m : MemOp) (same : ∀ r ∈ m.regs, gpr' r = gpr r)
    : m.offset gpr' = m.offset gpr := by
  obtain ⟨seg, disp, base, index, scale⟩ := m
  cases base with
  | none => rfl
  | some base =>
    have baseSame := base.value_congr (same base.reg (by simp [MemOp.regs]))
    cases index with
    | none => simp only [MemOp.offset, baseSame]
    | some index =>
      have indexSame := index.value_congr (same index.reg (by simp [MemOp.regs]))
      simp only [MemOp.offset, baseSame, indexSame]

@[simp] theorem MemOp.regs_abs (addr : Nat) : (MemOp.abs addr).regs = [] := rfl

theorem Points.congr {words : Words κ Word} {τ : Translation} {m : MemOp} {k : κ}
    (points : Points words τ gpr m k) (same : ∀ r ∈ m.regs, gpr' r = gpr r)
    : Points words τ gpr' m k := by
  intro i small
  rw [m.offset_congr same]
  exact points i small

theorem Points.update {words : Words κ Word} {τ : Translation} {gpr : Gpr → Word}
    {m : MemOp} {k : κ} (points : Points words τ gpr m k) {r : Gpr} (value : Word)
    (away : r ∉ m.regs)
    : Points words τ (update gpr r value) m k :=
  points.congr (fun other mem =>
    update_of_ne (fun same : other = r => away (same ▸ mem)) _ _)

namespace Cpu

variable (cpu : Cpu) (words : Words κ Word) (τ : Translation) {ks kd : κ} {src dest : MemOp}
  {t : Gpr}

/-- Translation is the expected one, and the next push does not hit any of the words. -/
structure Safe (s : St) : Prop where
  tr : cpu.tr s = τ
  slot : ∀ i < 4, words.Free (cpu.slotPlace s i)

/-- The run is safe at every executed instruction. -/
def SafeRun (s : St) (code : List Asm) : Prop := ∀ step ∈ cpu.steps s code, cpu.Safe words τ step.1

variable {cpu words τ} {s : St} {m : MemOp} {k : κ}

theorem SafeRun.append_left {left right : List Asm}
    (safe : cpu.SafeRun words τ s (left ++ right))
    : cpu.SafeRun words τ s left := by
  intro step mem
  exact safe step (by rw [steps_append]; exact List.mem_append_left _ mem)

theorem SafeRun.append_right {left right : List Asm}
    (safe : cpu.SafeRun words τ s (left ++ right))
    : cpu.SafeRun words τ (cpu.run s left) right := by
  intro step mem
  exact safe step (by rw [steps_append]; exact List.mem_append_right _ mem)

theorem SafeRun.head {i : Ins} {rest : List Asm}
    (safe : cpu.SafeRun words τ s (.ins i :: rest))
    : cpu.Safe words τ s :=
  safe (s, i) (by simp [steps, asmSteps])

theorem SafeRun.tail {a : Asm} {rest : List Asm}
    (safe : cpu.SafeRun words τ s (a :: rest))
    : cpu.SafeRun words τ (cpu.execAsm s a) rest := by
  intro step mem
  exact safe step (List.mem_append_right _ mem)

theorem place_eq (tr : cpu.tr s = τ) (points : Points words τ s.gpr m k) {i : Nat}
    (small : i < 4)
    : cpu.place s m i = words.place k i := by
  rw [place, tr]
  exact points i small

theorem fetch_eq (tr : cpu.tr s = τ) (points : Points words τ s.gpr m k)
    : cpu.fetch s m 32 4 = words.value s.mem k :=
  read_congr (fun _ small => by rw [place_eq tr points small])

theorem put_eq (tr : cpu.tr s = τ) (points : Points words τ s.gpr m k) (value : Word)
    : cpu.put s m value 4 = { s with mem := write s.mem (words.place k) value 4 } := by
  rw [put, write_congr s.mem value (fun i small => place_eq tr points small)]

theorem Safe.value_pushWord (safe : cpu.Safe words τ s) (value : Word)
    : words.value (cpu.pushWord s value).mem = words.value s.mem :=
  words.value_write_of_free s.mem value safe.slot

theorem top_eq (tr : cpu.tr s = τ) {value : Word}
    (bytes : ∀ i < 4, s.mem (τ .ss (s.gpr .esp + BitVec.ofNat 32 i)) = byteAt value i)
    : cpu.top s = value := by
  rw [top, ByteMemory.read, ← assemble_byteAt (n := 4) rfl value]
  exact assemble_congr (fun i small => by rw [stackPlace, tr, bytes i small])

theorem pushWord_byte (tr : cpu.tr s = τ) (value : Word) {i : Nat} (small : i < 4)
    : (cpu.pushWord s value).mem (τ .ss (s.gpr .esp - 4 + BitVec.ofNat 32 i)) = byteAt value i := by
  have place : cpu.slotPlace s i = τ .ss (s.gpr .esp - 4 + BitVec.ofNat 32 i) := by
    rw [slotPlace, tr]
  rw [← place]
  exact write_place s.mem value small (fun j smallJ same =>
    cpu.near s.base s.cr s.mem .ss _ i j (by omega) (by omega) same)

/-- Copying a word through the carrier register. -/
theorem run_copyWord (tr : cpu.tr s = τ) (reads : Points words τ s.gpr src ks)
    (writes : Points words τ s.gpr dest kd) (away : carrier src dest ∉ dest.regs)
    : (copyWord src dest).foldl cpu.exec s
      = { s with
          gpr := update s.gpr (carrier src dest) (words.value s.mem ks)
          mem := write s.mem (words.place kd) (words.value s.mem ks) 4 } := by
  let t := carrier src dest
  let loaded := s.setGpr t (words.value s.mem ks)
  have first : cpu.exec s (.load src ⟨t, .full⟩) = loaded := by
    simp only [exec, Part.bytes, fetch_eq tr reads]
    rfl
  have second : cpu.exec loaded (.store ⟨t, .full⟩ dest)
      = { loaded with mem := write loaded.mem (words.place kd) (loaded.gpr t) 4 } :=
    put_eq (s := loaded) tr (writes.update _ away) (loaded.gpr t)
  have carried : loaded.gpr t = words.value s.mem ks := update_self ..
  simp only [copyWord, List.foldl_cons, List.foldl_nil]
  rw [first, second, carried]
  rfl

/-- Loading the destination and comparing it with the source. -/
theorem exec_load_cmp (tr : cpu.tr s = τ) (reads : Points words τ s.gpr src ks)
    (writes : Points words τ s.gpr dest kd) (away : t ∉ src.regs)
    : cpu.exec (cpu.exec s (.load dest ⟨t, .full⟩)) (.cmpMem ⟨t, .full⟩ src)
      = { s with
          gpr := update s.gpr t (words.value s.mem kd)
          eflags := cpu.flags .cmp (words.value s.mem ks) (words.value s.mem kd)
            s.eflags } := by
  have first : cpu.exec s (.load dest ⟨t, .full⟩) = s.setGpr t (words.value s.mem kd) := by
    simp only [exec, Part.bytes, fetch_eq tr writes]
    rfl
  have fetched : cpu.fetch (s.setGpr t (words.value s.mem kd)) src 32 4 = words.value s.mem ks :=
    fetch_eq (s := s.setGpr t (words.value s.mem kd)) tr (reads.update _ away)
  have carried : (s.setGpr t (words.value s.mem kd)).reg ⟨t, .full⟩
      = words.value s.mem kd := update_self ..
  rw [first]
  simp only [exec, Part.bytes, fetched, carried]
  rfl

/-- The code of `gen_store_change_mem` leaves the source's value in the destination and
changes no other word, and no register but the carrier.
Witness: the copy is skipped only when the destination already holds that value.
-/
theorem run_storeChange [DecidableEq κ] (tb : Tables) (mnemonic : String) (tr : cpu.tr s = τ)
    (reads : Points words τ s.gpr src ks) (writes : Points words τ s.gpr dest kd)
    (awaySrc : carrier src dest ∉ src.regs) (awayDest : carrier src dest ∉ dest.regs)
    : words.value (cpu.run s (genStoreChangeMem tb src dest mnemonic).asm).mem
        = update (words.value s.mem) kd (words.value s.mem ks)
      ∧ ∀ r,
          r ≠ carrier src dest
          → (cpu.run s (genStoreChangeMem tb src dest mnemonic).asm).gpr r = s.gpr r := by
  rw [genStoreChangeMem_asm, run_cons, run_cons, run_cons, run_nil]
  simp only [execAsm, exec_load_cmp tr reads writes awaySrc]
  generalize state : ({ s with
      gpr := update s.gpr (carrier src dest) (words.value s.mem kd)
      eflags := cpu.flags .cmp (words.value s.mem ks) (words.value s.mem kd)
        s.eflags } : St) = compared
  have mem : compared.mem = s.mem := state ▸ rfl
  have gpr : compared.gpr = update s.gpr (carrier src dest) (words.value s.mem kd) := state ▸ rfl
  have others (r : Gpr) (ne : r ≠ carrier src dest) : compared.gpr r = s.gpr r := by
    rw [gpr, update_of_ne ne]
  have sameTr : cpu.tr compared = τ := by
    rw [← tr, ← state]
    rfl
  by_cases same : words.value s.mem ks = words.value s.mem kd
  · rw [if_pos (by simp [cpu.flags_cmp, same]), mem, same, update_eq_self]
    exact ⟨rfl, others⟩
  · have readsNow : Points words τ compared.gpr src ks := gpr ▸ reads.update _ awaySrc
    have writesNow : Points words τ compared.gpr dest kd := gpr ▸ writes.update _ awayDest
    rw [if_neg (by simp [cpu.flags_cmp, same]),
      run_copyWord sameTr readsNow writesNow awayDest, mem]
    refine ⟨words.value_write s.mem kd _, ?_⟩
    intro r ne
    exact (update_of_ne ne _ _).trans (others r ne)

/-- Code between a push and a pop of one register that keeps the stack pointer and the
saved word. Witness: the popped word is the pushed one, byte by byte.
-/
theorem run_push_pop {r : Gpr} {body : List Asm} {inner final : St}
    (safe : cpu.SafeRun words τ s (.ins (.push r) :: (body ++ [.ins (.pop r)])))
    (pushed : cpu.pushWord s (s.gpr r) = inner) (ran : cpu.run inner body = final)
    (esp : final.gpr .esp = s.gpr .esp - 4)
    (kept
      : ∀ i < 4,
          final.mem (τ .ss (s.gpr .esp - 4 + BitVec.ofNat 32 i))
            = inner.mem (τ .ss (s.gpr .esp - 4 + BitVec.ofNat 32 i)))
    : cpu.run s (.ins (.push r) :: (body ++ [.ins (.pop r)]))
      = { final with
          gpr := update (update final.gpr .esp (s.gpr .esp)) r
            (s.gpr r) } := by
  have start : cpu.tr s = τ := safe.head.tr
  have first : cpu.execAsm s (.ins (.push r)) = inner := pushed
  have atPop : cpu.tr final = τ := by
    have later := safe.tail.append_right.head.tr
    rwa [first, ran] at later
  have popped : cpu.top final = s.gpr r := by
    refine top_eq atPop (fun i small => ?_)
    rw [esp, kept i small, ← pushed]
    exact pushWord_byte start _ small
  have restored : final.gpr .esp + 4 = s.gpr .esp := by
    rw [esp, BitVec.sub_add_cancel]
  rw [run_cons, run_append, first, ran]
  simp only [run_cons, run_nil, execAsm, exec, drop, St.setGpr, popped, restored]

/-- Xor a value into the temporary and store it in an R block. The first instruction is
given by its effect on the temporary.
-/
theorem run_xorStore {r : Nat} {kr : κ} {x : Ins} {v value flags : Word} (tr : cpu.tr s = τ)
    (right : Points words τ s.gpr (.abs r) kr)
    (xors : cpu.exec (s.setGpr t v) x = { s.setGpr t (v ^^^ value) with eflags := flags })
    : cpu.run (s.setGpr t v) [.ins x, .ins (.store ⟨t, .full⟩ (.abs r))]
      = { s with
          gpr := update s.gpr t (v ^^^ value)
          eflags := flags
          mem := write s.mem (words.place kr) (v ^^^ value) 4 } := by
  simp only [run_cons, run_nil, execAsm, xors]
  generalize state : ({ s.setGpr t (v ^^^ value) with eflags := flags } : St) = mixed
  have gpr : mixed.gpr = update s.gpr t (v ^^^ value) := state ▸ rfl
  have sameTr : cpu.tr mixed = τ := by
    rw [← tr, ← state]
    rfl
  have stores : Points words τ mixed.gpr (.abs r) kr := right.congr (by simp)
  have carried : mixed.reg ⟨t, .full⟩ = v ^^^ value := by
    simp [St.reg, GReg.value, gpr]
  simp only [exec, Part.bytes, carried, put_eq sameTr stores]
  rw [← state]
  rfl

theorem exec_load {l : Nat} {kl : κ} (tr : cpu.tr s = τ)
    (left : Points words τ s.gpr (.abs l) kl) (t : Gpr)
    : cpu.execAsm s (.ins (.load (.abs l) ⟨t, .full⟩)) = s.setGpr t (words.value s.mem kl) := by
  simp only [execAsm, exec, Part.bytes, fetch_eq tr left]
  rfl

theorem run_xorBlock {l r : Nat} {kl kr : κ} {x : Ins} {value flags : Word} (tr : cpu.tr s = τ)
    (left : Points words τ s.gpr (.abs l) kl) (right : Points words τ s.gpr (.abs r) kr)
    (xors
      : cpu.exec (s.setGpr t (words.value s.mem kl)) x
        = { s.setGpr t (words.value s.mem kl ^^^ value) with eflags := flags })
    : cpu.run s [.ins (.load (.abs l) ⟨t, .full⟩), .ins x, .ins (.store ⟨t, .full⟩ (.abs r))]
      = { s with
          gpr := update s.gpr t (words.value s.mem kl ^^^ value)
          eflags := flags
          mem := write s.mem (words.place kr) (words.value s.mem kl ^^^ value) 4 } := by
  rw [run_cons, exec_load tr left t]
  exact run_xorStore tr right xors

theorem exec_xorReg {src t : Gpr} (ne : src ≠ t) (v : Word)
    : cpu.exec (s.setGpr t v) (.aluReg .xor ⟨src, .full⟩ ⟨t, .full⟩)
      = { s.setGpr t (v ^^^ s.gpr src) with
          eflags := cpu.flags .xor v (s.gpr src) s.eflags } := by
  simp [exec, aluTo, St.setReg, St.reg, GReg.value, St.setGpr, alu, update_of_ne ne]

theorem exec_xorMem (tr : cpu.tr s = τ) (points : Points words τ s.gpr m k) (away : t ∉ m.regs)
    (v : Word)
    : cpu.exec (s.setGpr t v) (.aluMem .xor m ⟨t, .full⟩)
      = { s.setGpr t (v ^^^ words.value s.mem k) with
          eflags := cpu.flags .xor v (words.value s.mem k) s.eflags } := by
  have fetched : cpu.fetch (s.setGpr t v) m 32 4 = words.value s.mem k :=
    fetch_eq (s := s.setGpr t v) tr (points.update _ away)
  simp only [exec, Part.bytes, fetched]
  simp [aluTo, St.setReg, St.reg, GReg.value, St.setGpr, alu]

end Cpu

end FastPokeEmu.Floppy
