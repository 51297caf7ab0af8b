import FastPokeEmu.Floppy.Layout
import FastPokeEmu.Library.Schedule

/-! Copies of whole lists of blocks: R blocks to their backups, and the backups to the L
blocks.
-/

namespace FastPokeEmu.Floppy

open ByteMemory List Function

/-- EAX is saved around the copies of the R blocks, and no longer declared as killed. -/
def wrapCopyR (copyR : List Gadget) : List Gadget :=
  if copyR = [] then []
  else
    ([Gadget.make [.ins (.push .eax)] "" [] [] [] []] ++ copyR
      ++ [Gadget.make [.ins (.pop .eax)] "" [] [] [] []]).map fun g =>
        { g with kill := g.kill.diff [.reg Gpr.eax.name] }

/-- The gadget of the pre list that copies the R blocks. -/
def mergeCopyR (copyR : List Gadget) : Option Gadget :=
  Gadget.merge "copy R blocks to R'" (wrapCopyR copyR)

theorem foldl_add_asm (g : Gadget) (rest : List Gadget)
    : (rest.foldl Gadget.add g).asm = g.asm ++ rest.flatMap Gadget.asm := by
  induction rest generalizing g with
  | nil => simp
  | cons other rest ih => simp [ih, Gadget.add]

theorem merge_asm {mnemonic : String} {gs : List Gadget} {g : Gadget}
    (merged : Gadget.merge mnemonic gs = some g)
    : g.asm = gs.flatMap Gadget.asm := by
  cases gs with
  | nil => cases merged
  | cons first rest =>
    simp only [Gadget.merge, Option.some.injEq] at merged
    rw [← merged]
    split <;> simp [foldl_add_asm]

theorem mergeCopyR_asm {copyR : List Gadget} {g : Gadget} (merged : mergeCopyR copyR = some g)
    : g.asm = .ins (.push .eax) :: (copyR.flatMap Gadget.asm ++ [.ins (.pop .eax)]) := by
  rw [merge_asm merged, wrapCopyR]
  split
  next empty =>
    simp [mergeCopyR, wrapCopyR, empty, Gadget.merge] at merged
  · simp [flatMap_map, Gadget.make]

section

variable {τ : Translation} {n : Nat} {operand : Fin n → Nat → Word} {scratch : Nat}
  {layout : Layout τ operand scratch} {cpu : Cpu} {s : St}

/-- Code that copies words one after the other, each from the first address to the second. -/
def copyCode (ps : List (Nat × Nat)) : List Asm :=
  ps.flatMap (fun p => (copyWord (.abs p.1) (.abs p.2)).map .ins)

theorem copyBlocks_asm (tb : Tables) (src dest : List Nat)
    : (copyBlocks tb src dest).flatMap Gadget.asm = copyCode (src.zip dest) := by
  induction src generalizing dest with
  | nil => rfl
  | cons a rest ih =>
    cases dest with
    | nil => rfl
    | cons b dest => exact congrArg _ (ih dest)

variable (layout) in
/-- Effect of one copy. -/
def Copied (p : Nat × Nat) (s s' : St) : Prop :=
  s' = { s with
    gpr := Function.update s.gpr .eax (layout.value s (.word p.1))
    mem := write s.mem (layout.words.place (.word p.2)) (layout.value s (.word p.1)) 4 }

def runCopy (cpu : Cpu) (s : St) (p : Nat × Nat) : St :=
  cpu.run s ((copyWord (.abs p.1) (.abs p.2)).map .ins)

theorem foldl_runCopy (cpu : Cpu) (s : St) (ps : List (Nat × Nat))
    : ps.foldl (runCopy cpu) s = cpu.run s (copyCode ps) := by
  induction ps generalizing s with
  | nil => rfl
  | cons p rest ih =>
    simp only [foldl_cons, ih, copyCode, flatMap_cons, Cpu.run_append]
    rfl

/-- The words of the data area after some copies: destinations hold what their sources held,
and nothing else has changed.
-/
structure AllCopied (layout : Layout τ operand scratch) (ps : List (Nat × Nat)) (s s' : St)
    : Prop where
  copied : ∀ p ∈ ps, layout.value s' (.word p.2) = layout.value s (.word p.1)
  words : ∀ k, (∀ p ∈ ps, k ≠ .word p.2) → layout.value s' k = layout.value s k
  gprs : ∀ r, r ≠ .eax → s'.gpr r = s.gpr r
  free : ∀ a, layout.words.Free a → s'.mem a = s.mem a

theorem follows_copies {ps : List (Nat × Nat)}
    (isData : ∀ p ∈ ps, IsData p.1 ∧ IsData p.2)
    (safe : cpu.SafeRun layout.words τ s (copyCode ps))
    : Schedule.Follows (runCopy cpu) (Copied layout) s ps := by
  intro done p rest split
  obtain ⟨source, target⟩ := isData p (by simp [split])
  rw [split, copyCode, flatMap_append] at safe
  have here := safe.append_right.append_left
  rw [foldl_runCopy, Copied, runCopy, Cpu.run_ins]
  exact Cpu.run_copyWord here.head.tr (layout.points_data _ source)
    (layout.points_data _ target) (by simp)

theorem Copied.value {p : Nat × Nat} {s s' : St} (copied : Copied layout p s s')
    : layout.words.value s'.mem
      = Function.update (layout.words.value s.mem) (.word p.2)
          (layout.value s (.word p.1)) := by
  rw [copied]
  exact layout.words.value_write s.mem _ _

/-- Copies between disjoint lists of words. -/
theorem run_copyCode {ps : List (Nat × Nat)} (isData : ∀ p ∈ ps, IsData p.1 ∧ IsData p.2)
    (distinct : (ps.map Prod.snd).Nodup) (apart : ∀ p ∈ ps, ∀ q ∈ ps, p.1 ≠ q.2)
    (safe : cpu.SafeRun layout.words τ s (copyCode ps))
    : AllCopied layout ps s (cpu.run s (copyCode ps)) := by
  have follows := follows_copies isData safe
  have other {k : Slot n} {xs : List (Nat × Nat)} {s : St}
      (follows : Schedule.Follows (runCopy cpu) (Copied layout) s xs)
      (away : ∀ p ∈ xs, k ≠ .word p.2)
      : layout.value (xs.foldl (runCopy cpu) s) k = layout.value s k :=
    follows.keeps (P := fun s' => layout.value s' k = layout.value s k)
      (fun p mem _ _ copied current =>
        (congrFun copied.value k).trans
          ((update_of_ne (away p mem) _ _).trans current)) rfl
  rw [← foldl_runCopy]
  exact {
    copied := by
      intro p mem
      obtain ⟨done, rest, split⟩ := append_of_mem mem
      have differs (q : Nat × Nat) (inside : q ∈ rest)
          : (Slot.word p.2 : Slot n) ≠ .word q.2 := by
        intro same
        have equal := Slot.word_injective (isData p mem).2
          (isData q (by simp [split, inside])).2 same
        rw [split, map_append, map_cons] at distinct
        exact (nodup_cons.mp (nodup_append.mp distinct).2.1).1 (equal ▸ mem_map_of_mem inside)
      have source (q : Nat × Nat) (inside : q ∈ done)
          : (Slot.word p.1 : Slot n) ≠ .word q.2 := fun same =>
        apart p mem q (by simp [split, inside])
          (Slot.word_injective (isData p mem).1 (isData q (by simp [split, inside])).2 same)
      subst split
      refine follows.last
        (P := fun s' => layout.value s' (.word p.2) = layout.value s (.word p.1)) ?_ ?_
      · intro copied
        refine (congrFun copied.value _).trans ?_
        rw [update_self]
        exact other follows.append_left source
      · intro q inside _ _ copied current
        exact (congrFun copied.value _).trans ((update_of_ne (differs q inside) _ _).trans current)
    words := fun k away => other follows away
    gprs := by
      intro r ne
      refine follows.keeps (P := fun s' => s'.gpr r = s.gpr r) ?_ rfl
      intro p _ _ _ copied current
      rw [copied, ← current]
      exact update_of_ne ne _ _
    free := by
      intro a free
      refine follows.keeps (P := fun s' => s'.mem a = s.mem a) ?_ rfl
      intro p _ _ _ copied current
      rw [copied, ← current]
      exact write_other _ _ (fun i small => free _ i small) }

/-- The gadget that copies the R blocks keeps all registers. -/
theorem run_mergeCopyR {tb : Tables} {src dest : List Nat} {g : Gadget}
    (merged : mergeCopyR (copyBlocks tb src dest) = some g)
    (isData : ∀ p ∈ src.zip dest, IsData p.1 ∧ IsData p.2)
    (distinct : ((src.zip dest).map Prod.snd).Nodup)
    (apart : ∀ p ∈ src.zip dest, ∀ q ∈ src.zip dest, p.1 ≠ q.2)
    (safe : cpu.SafeRun layout.words τ s g.asm)
    : (∀ p ∈ src.zip dest, layout.value (cpu.run s g.asm) (.word p.2) = layout.value s (.word p.1))
      ∧ (∀ k,
          (∀ p ∈ src.zip dest, k ≠ .word p.2)
          → layout.value (cpu.run s g.asm) k = layout.value s k)
      ∧ (cpu.run s g.asm).gpr = s.gpr := by
  rw [mergeCopyR_asm merged, copyBlocks_asm] at safe ⊢
  have pushing : cpu.Safe layout.words τ s := safe.head
  have copying : cpu.SafeRun layout.words τ (cpu.pushWord s (s.gpr .eax))
      (copyCode (src.zip dest)) := safe.tail.append_left
  generalize pushed : cpu.pushWord s (s.gpr .eax) = inner at copying
  have values : layout.words.value inner.mem = layout.words.value s.mem := by
    rw [← pushed, pushing.value_pushWord]
  have all := run_copyCode isData distinct apart copying
  have esp : inner.gpr .esp = s.gpr .esp - 4 := by rw [← pushed]; rfl
  have others (r : Gpr) (ne : r ≠ .esp) : inner.gpr r = s.gpr r := by
    rw [← pushed]
    simp [Cpu.pushWord, update_of_ne ne]
  generalize copied : cpu.run inner (copyCode (src.zip dest)) = final at all
  rw [Cpu.run_push_pop safe pushed copied ?_ ?_]
  · refine ⟨?_, ?_, ?_⟩
    · intro p mem
      exact (all.copied p mem).trans (congrFun values _)
    · intro k away
      exact (all.words k away).trans (congrFun values _)
    · funext r
      have rest (ne : r ≠ .eax) := all.gprs r ne
      cases r <;> simp_all
  · rw [all.gprs .esp (by simp), esp]
  · intro i small
    refine all.free _ (fun k j smallJ same => ?_)
    exact pushing.slot i small k j smallJ (by rw [Cpu.slotPlace, pushing.tr]; exact same)

end

end FastPokeEmu.Floppy
