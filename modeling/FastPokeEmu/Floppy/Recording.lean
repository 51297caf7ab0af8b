import FastPokeEmu.Floppy.Effects
import FastPokeEmu.Floppy.GadgetForms

/-! What the gadgets after the tested instruction do: recording an output, copying a surplus
block, restoring a register or a word of memory.
-/

namespace FastPokeEmu.Floppy

open ByteMemory Function
open BitVec (ofNat)

namespace Cpu

variable {κ : Type} {cpu : Cpu} {words : Words κ Word} {τ : Translation} {s : St}

theorem slot_above (w : Word) (i : Nat)
    : w - 4 + ofNat 32 (4 + i) = w + ofNat 32 i := by
  rw [BitVec.ofNat_add, ← BitVec.add_assoc]
  show w - 4 + 4 + _ = _
  rw [BitVec.sub_add_cancel]

theorem pushWord_above (tr : cpu.tr s = τ) (value : Word) {i : Nat} (high : i < 4000)
    : (cpu.pushWord s value).mem (τ .ss (s.gpr .esp + ofNat 32 i))
      = s.mem (τ .ss (s.gpr .esp + ofNat 32 i)) := by
  rw [← slot_above]
  refine write_other s.mem value (fun j small same => ?_)
  rw [slotPlace, tr] at same
  have equal := cpu.near s.base s.cr s.mem .ss (s.gpr .esp - 4) (4 + i) j (by omega) (by omega)
    (by rw [tr.symm] at same; exact same)
  omega

/-- Code between saving and restoring EAX and ECX that keeps the stack pointer and the two
saved words.
-/
theorem run_saved {body : List Asm} {once inner final : St}
    (safe
      : cpu.SafeRun words τ s
          (.ins (.push .eax)
            :: ((.ins (.push .ecx) :: (body ++ [.ins (.pop .ecx)])) ++ [.ins (.pop .eax)])))
    (pushedEax : cpu.pushWord s (s.gpr .eax) = once)
    (pushedEcx : cpu.pushWord once (s.gpr .ecx) = inner)
    (ran : cpu.run inner body = final) (esp : final.gpr .esp = inner.gpr .esp)
    (kept
      : ∀ i < 8,
          final.mem (τ .ss (inner.gpr .esp + ofNat 32 i))
            = inner.mem (τ .ss (inner.gpr .esp + ofNat 32 i)))
    : cpu.run s
        (.ins (.push .eax)
          :: ((.ins (.push .ecx) :: (body ++ [.ins (.pop .ecx)])) ++ [.ins (.pop .eax)]))
      = { final with
          gpr := fun r =>
            if r = .eax ∨ r = .ecx ∨ r = .esp then s.gpr r else final.gpr r } := by
  have first : cpu.execAsm s (.ins (.push .eax)) = once := pushedEax
  have ecx : once.gpr .ecx = s.gpr .ecx := by rw [← pushedEax]; rfl
  have espOnce : once.gpr .esp = s.gpr .esp - 4 := by rw [← pushedEax]; rfl
  have espInner : inner.gpr .esp = once.gpr .esp - 4 := by rw [← pushedEcx]; rfl
  have innerSafe := safe.tail.append_left
  rw [first] at innerSafe
  have innerRun := run_push_pop innerSafe (by rw [ecx]; exact pushedEcx) ran
    (by rw [esp, espInner]) (by
      intro i small
      rw [← espInner]
      exact kept i (by omega))
  rw [run_push_pop safe pushedEax innerRun (by simp [espOnce]) ?_]
  · congr 1
    funext r
    cases r <;> simp [ecx]
  · intro i small
    have above := pushWord_above innerSafe.head.tr (s.gpr .ecx) (i := i) (by omega)
    have below := kept (4 + i) (by omega)
    rw [espInner, slot_above] at below
    rw [← espOnce]
    exact below.trans (pushedEcx ▸ above)

theorem Safe.write_slot (safe : cpu.Safe words τ s) {mem : Word → Byte} (k : κ) (value : Word)
    {i : Nat} (small : i < 4)
    : write mem (words.place k) value 4 (τ .ss (s.gpr .esp - 4 + ofNat 32 i))
      = mem (τ .ss (s.gpr .esp - 4 + ofNat 32 i)) := by
  refine write_other mem value (fun j smallJ same => ?_)
  refine safe.slot i small k j smallJ ?_
  rw [slotPlace, safe.tr]
  exact same

theorem write_saved {s1 s2 : St} {a b : Word} (safe : cpu.Safe words τ s)
    (once : cpu.pushWord s a = s1) (safe1 : cpu.Safe words τ s1)
    (twice : cpu.pushWord s1 b = s2) {mem : Word → Byte} (k : κ) (value : Word) {i : Nat}
    (small : i < 8)
    : write mem (words.place k) value 4 (τ .ss (s2.gpr .esp + ofNat 32 i))
      = mem (τ .ss (s2.gpr .esp + ofNat 32 i)) := by
  have esp1 : s1.gpr .esp = s.gpr .esp - 4 := by rw [← once]; rfl
  have esp2 : s2.gpr .esp = s1.gpr .esp - 4 := by rw [← twice]; rfl
  by_cases low : i < 4
  · rw [esp2]
    exact safe1.write_slot k value low
  · obtain ⟨j, rfl⟩ : ∃ j, i = 4 + j := ⟨i - 4, by omega⟩
    rw [esp2, slot_above, esp1]
    exact safe.write_slot k value (by omega)

variable [DecidableEq κ] {tb : Tables} {left right scratch : Nat} {kl kr : κ}

theorem run_mix {t : Gpr} {x : Ins} {value flags : Word} (tr : cpu.tr s = τ)
    (atLeft : Points words τ s.gpr (.abs left) kl)
    (atRight : Points words τ s.gpr (.abs right) kr)
    (mixes
      : cpu.exec (s.setGpr t (words.value s.mem kl)) x
        = { s.setGpr t (words.value s.mem kl ^^^ value) with eflags := flags })
    : words.value (cpu.run s (mixAsm left right t x)).mem
        = update (words.value s.mem) kr (words.value s.mem kl ^^^ value)
      ∧ ∀ r ≠ t, (cpu.run s (mixAsm left right t x)).gpr r = s.gpr r := by
  rw [mixAsm, run_xorBlock tr atLeft atRight mixes]
  exact ⟨words.value_write s.mem kr _, fun r ne => update_of_ne ne _ _⟩

theorem gpr_pushWord (s : St) (value : Word) {r : Gpr} (ne : r ≠ .esp)
    : (cpu.pushWord s value).gpr r = s.gpr r :=
  update_of_ne ne _ _

/-- EAX is recorded, and all registers are kept. -/
theorem run_record_eax (safe : cpu.SafeRun words τ s (mixEaxAsm left right))
    (atLeft : Points words τ s.gpr (.abs left) kl)
    (atRight : Points words τ s.gpr (.abs right) kr)
    : words.value (cpu.run s (mixEaxAsm left right)).mem
        = update (words.value s.mem) kr (words.value s.mem kl ^^^ s.gpr .eax)
      ∧ (cpu.run s (mixEaxAsm left right)).gpr = s.gpr := by
  have safeEax : cpu.Safe words τ s := safe.head
  have safeEcx : cpu.Safe words τ (cpu.pushWord s (s.gpr .eax)) := safe.tail.head
  have safeBody : cpu.Safe words τ
      (cpu.pushWord (cpu.pushWord s (s.gpr .eax)) (s.gpr .ecx)) := safe.tail.tail.head
  generalize once : cpu.pushWord s (s.gpr .eax) = s1 at safeEcx safeBody
  generalize twice : cpu.pushWord s1 (s.gpr .ecx) = s2 at safeBody
  have values : words.value s2.mem = words.value s.mem := by
    rw [← twice, safeEcx.value_pushWord, ← once, safeEax.value_pushWord]
  have others {r : Gpr} (ne : r ≠ .esp) : s2.gpr r = s.gpr r := by
    rw [← twice, ← once, gpr_pushWord _ _ ne, gpr_pushWord _ _ ne]
  have body := run_xorBlock safeBody.tr (atLeft.congr (by simp)) (atRight.congr (by simp))
    (exec_xorReg (by decide : Gpr.eax ≠ .ecx) (words.value s2.mem kl))
  have restored := run_saved safe once twice body (by simp) (fun i small =>
    write_saved safeEax once safeEcx twice kr _ small)
  rw [show cpu.run s (mixEaxAsm left right) = _ from restored]
  constructor
  · show words.value (write s2.mem (words.place kr) _ 4) = _
    rw [words.value_write, values, others (by decide)]
  · funext r
    cases r <;> simp [others]

omit [DecidableEq κ] in
/-- The flags are pushed and popped to a scratch word. -/
theorem exec_pushf_popMem {ks : κ} (safe : cpu.Safe words τ s)
    (tr : cpu.tr (cpu.pushWord s (cpu.pushed s.eflags)) = τ)
    (atScratch : Points words τ s.gpr (.abs scratch) ks)
    : cpu.exec (cpu.exec s .pushf) (.popMem (.abs scratch))
      = { s with
          mem := write (cpu.pushWord s (cpu.pushed s.eflags)).mem (words.place ks)
            (cpu.pushed s.eflags) 4 } := by
  generalize state : cpu.pushWord s (cpu.pushed s.eflags) = pushed at tr
  have first : cpu.exec s .pushf = pushed := state
  have top : cpu.top pushed = cpu.pushed s.eflags := by
    refine top_eq tr (fun i small => ?_)
    rw [← state]
    exact pushWord_byte safe.tr _ small
  have esp : pushed.gpr .esp + 4 = s.gpr .esp := by
    rw [← state]
    exact BitVec.sub_add_cancel ..
  have gpr : (drop pushed).gpr = s.gpr := by
    funext r
    by_cases isEsp : r = .esp
    · rw [isEsp, ← esp]
      simp [drop, St.setGpr]
    · rw [← state]
      simp [drop, St.setGpr, pushWord, update_of_ne isEsp]
  have shape : drop pushed = { s with mem := pushed.mem } := by
    have eta : drop pushed = { pushed with gpr := (drop pushed).gpr } := rfl
    rw [eta, gpr, ← state]
    rfl
  have trDrop : cpu.tr (drop pushed) = τ := tr
  rw [first]
  show cpu.put (drop pushed) (.abs scratch) (cpu.top pushed) 4 = _
  rw [put_eq trDrop (gpr ▸ atScratch), top, shape]

/-- EFLAGS are recorded through a scratch word, and all general registers are kept. -/
theorem run_record_eflags {ks : κ}
    (safe : cpu.SafeRun words τ s (mixFlagsAsm scratch left right))
    (atLeft : Points words τ s.gpr (.abs left) kl)
    (atRight : Points words τ s.gpr (.abs right) kr)
    (atScratch : Points words τ s.gpr (.abs scratch) ks)
    : words.value (cpu.run s (mixFlagsAsm scratch left right)).mem
        = update
            (update (words.value s.mem) ks (cpu.pushed s.eflags)) kr
            (words.value s.mem kl ^^^ cpu.pushed s.eflags)
      ∧ (cpu.run s (mixFlagsAsm scratch left right)).gpr = s.gpr := by
  have safeEax : cpu.Safe words τ s := safe.head
  have safeEcx : cpu.Safe words τ (cpu.pushWord s (s.gpr .eax)) := safe.tail.head
  have bodySafe : cpu.SafeRun words τ
      (cpu.pushWord (cpu.pushWord s (s.gpr .eax)) (s.gpr .ecx))
      [.ins (.load (.abs left) ⟨.eax, .full⟩), .ins .pushf, .ins (.popMem (.abs scratch)),
        .ins (.aluMem .xor (.abs scratch) ⟨.eax, .full⟩),
        .ins (.store ⟨.eax, .full⟩ (.abs right)), .ins (.pop .ecx), .ins (.pop .eax)] :=
    safe.tail.tail
  generalize once : cpu.pushWord s (s.gpr .eax) = s1 at safeEcx bodySafe
  generalize twice : cpu.pushWord s1 (s.gpr .ecx) = s2 at bodySafe
  have values : words.value s2.mem = words.value s.mem := by
    rw [← twice, safeEcx.value_pushWord, ← once, safeEax.value_pushWord]
  have flags : s2.eflags = s.eflags := by rw [← twice, ← once]; rfl
  have loaded := exec_load bodySafe.head.tr (atLeft.congr (by simp)) .eax
  have afterLoad := bodySafe.tail
  rw [loaded] at afterLoad
  have moved := exec_pushf_popMem afterLoad.head afterLoad.tail.head.tr (atScratch.congr (by simp))
  generalize loadedValue : words.value s2.mem kl = v at loaded afterLoad moved
  have image : cpu.pushed (s2.setGpr .eax v).eflags = cpu.pushed s.eflags :=
    congrArg cpu.pushed flags
  generalize cpu.pushed s.eflags = pf at image
  generalize stored : write (cpu.pushWord (s2.setGpr .eax v)
    (cpu.pushed (s2.setGpr .eax v).eflags)).mem (words.place ks)
    (cpu.pushed (s2.setGpr .eax v).eflags) 4 = mem at moved
  rw [image] at stored
  have moved' : cpu.exec (cpu.exec (s2.setGpr .eax v) .pushf) (.popMem (.abs scratch))
      = ({ s2 with mem := mem } : St).setGpr .eax v := moved
  have storedValues : words.value mem = update (words.value s.mem) ks pf := by
    rw [← stored, words.value_write, afterLoad.head.value_pushWord]
    exact congrArg (fun f => update f ks pf) values
  -- neither the pushed image nor its copy touches the saved registers
  have storedSaved (i : Nat) (small : i < 8)
      : mem (τ .ss (s2.gpr .esp + ofNat 32 i)) = s2.mem (τ .ss (s2.gpr .esp + ofNat 32 i)) := by
    rw [← stored, write_saved safeEax once safeEcx twice ks _ small]
    exact pushWord_above afterLoad.head.tr pf (by omega)
  have trStored : cpu.tr { s2 with mem := mem } = τ := by
    have later := afterLoad.tail.tail.head.tr
    simp only [execAsm] at later
    rw [moved'] at later
    exact later
  have mixed := run_xorStore (t := .eax) (s := { s2 with mem := mem }) trStored
    (atRight.congr (by simp))
    (exec_xorMem trStored (atScratch.congr (by simp)) (by simp) v)
  have body : cpu.run s2 [.ins (.load (.abs left) ⟨.eax, .full⟩), .ins .pushf,
        .ins (.popMem (.abs scratch)), .ins (.aluMem .xor (.abs scratch) ⟨.eax, .full⟩),
        .ins (.store ⟨.eax, .full⟩ (.abs right))]
      = cpu.run (({ s2 with mem := mem } : St).setGpr .eax v)
          [.ins (.aluMem .xor (.abs scratch) ⟨.eax, .full⟩),
            .ins (.store ⟨.eax, .full⟩ (.abs right))] := by
    rw [run_cons, loaded, run_cons, run_cons]
    simp only [execAsm]
    rw [moved']
  have restored := run_saved safe once twice (body.trans mixed) (by simp) (fun i small =>
    (write_saved safeEax once safeEcx twice kr _ small).trans (storedSaved i small))
  rw [show cpu.run s (mixFlagsAsm scratch left right) = _ from restored]
  constructor
  · show words.value (write mem (words.place kr) (v ^^^ words.value mem ks) 4) = _
    rw [words.value_write, storedValues, ← loadedValue, values, update_self]
  · funext r
    have others {r : Gpr} (ne : r ≠ .esp) : s2.gpr r = s.gpr r := by
      rw [← twice, ← once, gpr_pushWord _ _ ne, gpr_pushWord _ _ ne]
    cases r <;> simp [others]

/-- Code of `gen_mem2reg` for EFLAGS: the word is masked in place, and loaded. -/
theorem run_mem2reg_eflags {bak : Nat} {kb : κ}
    (safe : cpu.SafeRun words τ s (flagsAsm bak))
    (atBak : Points words τ s.gpr (.abs bak) kb) (final : St)
    (ran : cpu.run s (flagsAsm bak) = final)
    : words.value final.mem
        = update (words.value s.mem) kb (words.value s.mem kb &&& flagMask)
      ∧ final.gpr = s.gpr
      ∧ final.eflags &&& flagMask = words.value s.mem kb &&& flagMask
      ∧ ∀ i < 4,
          final.mem (τ .ss (s.gpr .esp + ofNat 32 i))
            = write s.mem (words.place kb) (words.value s.mem kb &&& flagMask) 4
                (τ .ss (s.gpr .esp + ofNat 32 i)) := by
  have word : cpu.word s (.abs bak) = words.value s.mem kb := fetch_eq safe.head.tr atBak
  generalize masking : words.value s.mem kb &&& flagMask = masked
  have first : cpu.execAsm s (.ins (.andlMem flagMask (.abs bak)))
      = { s with
          mem := write s.mem (words.place kb) masked 4
          eflags := cpu.flags .and (words.value s.mem kb) flagMask s.eflags } := by
    simp only [execAsm, exec, word, masking, put_eq safe.head.tr atBak]
  have pushing := safe.tail
  rw [first] at pushing
  rw [flagsAsm, run_cons, first, run_cons, run_cons, run_nil] at ran
  generalize state : ({ s with
      mem := write s.mem (words.place kb) masked 4
      eflags := cpu.flags .and (words.value s.mem kb) flagMask s.eflags } : St) = s2
    at pushing ran
  have values : words.value s2.mem = update (words.value s.mem) kb masked := by
    rw [← state]
    exact words.value_write s.mem kb masked
  have gpr2 : s2.gpr = s.gpr := by rw [← state]
  have pushedWord : cpu.word s2 (.abs bak) = masked := by
    rw [show cpu.word s2 (.abs bak) = words.value s2.mem kb from
      fetch_eq pushing.head.tr (atBak.congr (by simp)), values, update_self]
  have second : cpu.execAsm s2 (.ins (.pushMem (.abs bak))) = cpu.pushWord s2 masked := by
    simp only [execAsm, exec, pushedWord]
  have popping := pushing.tail
  rw [second] at popping ran
  have top : cpu.top (cpu.pushWord s2 masked) = masked :=
    top_eq popping.head.tr (fun i small => pushWord_byte pushing.head.tr _ small)
  have esp : (cpu.pushWord s2 masked).gpr .esp + 4 = s2.gpr .esp := BitVec.sub_add_cancel ..
  have final_mem : final.mem = (cpu.pushWord s2 masked).mem := by rw [← ran]; rfl
  refine ⟨?_, ?_, ?_, ?_⟩
  · rw [final_mem, pushing.head.value_pushWord, values]
  · funext r
    rw [← ran, ← gpr2]
    show update (cpu.pushWord s2 masked).gpr .esp _ r = s2.gpr r
    rw [esp]
    by_cases isEsp : r = .esp
    · rw [isEsp, update_self]
    · simp [pushWord, update_of_ne isEsp]
  · rw [← ran]
    show cpu.popped _ (cpu.top (cpu.pushWord s2 masked)) &&& flagMask = _
    rw [top, cpu.popped_mask, ← masking]
    simp [BitVec.and_assoc]
  · intro i small
    have above := pushWord_above pushing.head.tr masked (i := i) (by omega)
    rw [gpr2] at above
    rw [final_mem, above, ← state]

/-- EFLAGS are restored from their word, which is masked in place; all general registers are
kept.
-/
theorem run_restore_eflags {bak : Nat} {kb : κ}
    (safe : cpu.SafeRun words τ s (restoreFlagsAsm bak))
    (atBak : Points words τ s.gpr (.abs bak) kb)
    : words.value (cpu.run s (restoreFlagsAsm bak)).mem
        = update (words.value s.mem) kb (words.value s.mem kb &&& flagMask)
      ∧ (cpu.run s (restoreFlagsAsm bak)).gpr = s.gpr := by
  have safeEax : cpu.Safe words τ s := safe.head
  have bodySafe : cpu.SafeRun words τ (cpu.pushWord s (s.gpr .eax)) (flagsAsm bak) :=
    safe.tail.append_left
  generalize once : cpu.pushWord s (s.gpr .eax) = s1 at bodySafe
  have values : words.value s1.mem = words.value s.mem := by
    rw [← once, safeEax.value_pushWord]
  have esp1 : s1.gpr .esp = s.gpr .esp - 4 := by rw [← once]; rfl
  obtain ⟨s2, body⟩ : ∃ s2, cpu.run s1 (flagsAsm bak) = s2 := ⟨_, rfl⟩
  obtain ⟨bodyValues, bodyGpr, _, bodyMem⟩ :=
    run_mem2reg_eflags bodySafe (atBak.congr (by simp)) s2 body
  have restored := run_push_pop safe once body (by rw [bodyGpr, esp1]) (by
    intro i small
    rw [← esp1, bodyMem i small, esp1]
    exact safeEax.write_slot kb _ small)
  rw [restoreFlagsAsm, restored]
  constructor
  · rw [← values]
    exact bodyValues
  · funext r
    have others {r : Gpr} (ne : r ≠ .esp) : s1.gpr r = s.gpr r := by
      rw [← once, gpr_pushWord _ _ ne]
    cases r <;> simp [bodyGpr, others]

omit [DecidableEq κ] in
theorem run_restore_gpr {bak : Nat} {kb : κ} {r : Gpr} (tr : cpu.tr s = τ)
    (atBak : Points words τ s.gpr (.abs bak) kb)
    : cpu.run s [.ins (.load (.abs bak) ⟨r, .full⟩)] = s.setGpr r (words.value s.mem kb) := by
  rw [run_cons, run_nil, exec_load tr atBak]

/-- Instructions that write no memory and change only some general purpose registers. -/
def QuietIns (cpu : Cpu) (regs : List Gpr) (i : Ins) : Prop :=
  (∀ s, cpu.footprint s i = []) ∧ i.gprs ⊆ regs

theorem mem2RegAsm_quiet (cpu : Cpu) {m : MemOp} {name : RegName} {size : Nat}
    {asm : List Asm} (made : mem2RegAsm m name size = some asm) (notFlags : name ≠ .eflags)
    : ∀ i ∈ instructions asm, QuietIns cpu name.touched i := by
  refine List.forall_iff_forall_mem.mp ?_
  have silent {i : Ins} (nothing : ∀ s, cpu.footprint s i = []) (writes : i.gprs = [])
      : QuietIns cpu name.touched i :=
    ⟨nothing, writes ▸ List.nil_subset _⟩
  have viaEax {i : Ins} (nothing : ∀ s, cpu.footprint s i = []) (writes : i.gprs = [.eax])
      : QuietIns cpu [.eax] i :=
    ⟨nothing, writes ▸ List.Subset.refl _⟩
  cases name with
  | eflags => exact absurd rfl notFlags
  | gpr r =>
    obtain ⟨part, rfl⟩ := mem2RegAsm_gpr made
    exact ⟨fun _ => rfl, List.Subset.refl _⟩
  | seg sg =>
    simp only [mem2RegAsm] at made
    split at made
    · cases made
      trivial
    · split at made <;> cases made
      exact silent (fun _ => rfl) rfl
  | cr n =>
    simp only [mem2RegAsm] at made
    split at made <;> cases made
    · exact ⟨viaEax (fun _ => rfl) rfl, viaEax (fun _ => rfl) rfl, viaEax (fun _ => rfl) rfl,
        silent (fun _ => rfl) rfl⟩
    · exact ⟨viaEax (fun _ => rfl) rfl, silent (fun _ => rfl) rfl⟩
  | dr n =>
    cases made
    exact ⟨viaEax (fun _ => rfl) rfl, silent (fun _ => rfl) rfl⟩
  | st n =>
    simp only [mem2RegAsm] at made
    split at made <;> cases made
    · exact silent (fun _ => rfl) rfl
    · exact ⟨silent (fun _ => rfl) rfl, silent (fun _ => rfl) rfl, silent (fun _ => rfl) rfl⟩
  | xcr0 =>
    cases made
    have edx : [Gpr.edx] ⊆ RegName.xcr0.touched := by simp [RegName.touched]
    have eax : [Gpr.eax] ⊆ RegName.xcr0.touched := by simp [RegName.touched]
    exact ⟨⟨fun _ => rfl, edx⟩, ⟨fun _ => rfl, eax⟩, silent (fun _ => rfl) rfl⟩
  | mm | xmm | mxcsr =>
    cases made
    exact silent (fun _ => rfl) rfl
  | eip | ip | tr =>
    cases made
    trivial

theorem run_mem2reg {m : MemOp} {name : RegName} {size : Nat} {asm : List Asm}
    (made : mem2RegAsm m name size = some asm) (notFlags : name ≠ .eflags)
    : (cpu.run s asm).mem = s.mem ∧ ∀ r ∉ name.touched, (cpu.run s asm).gpr r = s.gpr r := by
  have quiet := mem2RegAsm_quiet cpu made notFlags
  constructor
  · funext a
    refine cpu.run_mem (fun step mem => ?_)
    rw [(quiet step.2 (cpu.mem_instructions_of_steps mem)).1]
    exact List.not_mem_nil
  · intro r away
    exact cpu.run_gpr (fun i mem inside => away ((quiet i mem).2 inside))

end Cpu

end FastPokeEmu.Floppy
