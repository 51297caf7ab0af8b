import FastPokeEmu.Kernel.Exceptions
import FastPokeEmu.Library.Folds
import Mathlib.Data.Nat.Bitwise

/-! The page tables of the test kernel (`loader.c`).
All entries of a directory point to one table, whose entries cover the first four megabytes, so
that every linear address is an alias of an address in that range. Generated programs and
exception handlers use the alias that differs from the physical address in one bit.
-/

namespace FastPokeEmu.Kernel

open List
open BitVec (eq_of_toNat_eq ofNat toNat toNat_and toNat_ofNat)

/-- Words of physical memory. -/
abbrev Physical := Word → Word

/-- `&p[i]` for an array of words. -/
def entry (p : Word) (i : Nat) : Word := p + ofNat 32 (4 * i)

/-- A page directory and a page table: two page frames. -/
structure PageTables where
  pDir : Word
  pTab : Word
  dirAligned : pDir.toNat % 0x1000 = 0
  tabAligned : pTab.toNat % 0x1000 = 0
  different : pDir ≠ pTab

/-- The loops of `set_page`. The bits `0x7` stand for present, writable and user access. -/
def setPage (t : PageTables) (mem : Physical) : Physical :=
  let mem := (List.range 1024).foldl
    (fun mem i => Function.update mem (entry t.pDir i) ((t.pTab &&& 0xfffff000#32) ||| 0x7#32)) mem
  ((List.range 0x400).map (fun k => ofNat 32 (0x1000 * k))).foldl
    (fun mem (addr : Word) =>
      Function.update mem (entry t.pTab ((addr >>> 12) &&& 0x3ff#32).toNat) (addr ||| 0x7#32)) mem

/-- The value that is loaded into CR3. -/
def directoryBase (cr3 pDir : Word) : Word := (cr3 &&& 0xfff#32) ||| (pDir &&& 0xfffff000#32)

/-- Tables for the exception handlers and for everything else. -/
structure KernelPages where
  excp : PageTables
  main : PageTables
  apart
    : excp.pDir ≠ main.pDir ∧ excp.pDir ≠ main.pTab ∧ excp.pTab ≠ main.pDir ∧ excp.pTab ≠ main.pTab

/-- Memory after `enable_paging`. -/
def enablePaging (pages : KernelPages) (mem : Physical) : Physical :=
  setPage pages.main (setPage pages.excp mem)

/-- What a linear address is translated to. -/
structure Translation where
  physical : Word
  writable : Bool
  user : Bool
  deriving DecidableEq, Repr

/-- The processor's walk for pages of 4 KB. `none` is a page that is not present, or a directory
entry for a large page.
-/
def walk (mem : Physical) (cr3 linear : Word) : Option Translation :=
  let pde := mem (entry (cr3 &&& 0xfffff000#32) (linear >>> 22).toNat)
  if pde.getLsbD 0 && !pde.getLsbD 7 then
    let pte := mem (entry (pde &&& 0xfffff000#32) ((linear >>> 12) &&& 0x3ff#32).toNat)
    if pte.getLsbD 0 then
      some ⟨(pte &&& 0xfffff000#32) ||| (linear &&& 0xfff#32), pde.getLsbD 1 && pte.getLsbD 1,
        pde.getLsbD 2 && pte.getLsbD 2⟩
    else none
  else none

/-- Without paging, linear addresses are physical ones. -/
def translate (pg : Bool) (mem : Physical) (cr3 linear : Word) : Option Translation :=
  if pg then walk mem cr3 linear else some ⟨linear, true, true⟩

theorem toNat_pageFrame (x : Word) : (x &&& 0xfffff000#32).toNat = x.toNat / 0x1000 * 0x1000 := by
  have mask : 0xfffff000#32 = (BitVec.allOnes 32 >>> 12) <<< 12 := by decide
  have shifted : x &&& 0xfffff000#32 = (x >>> 12) <<< 12 := by
    rw [mask]
    apply BitVec.eq_of_getLsbD_eq
    intro i bound
    simp only [BitVec.getLsbD_and, BitVec.getLsbD_shiftLeft, BitVec.getLsbD_ushiftRight,
      BitVec.getLsbD_allOnes]
    by_cases low : i < 12
    · simp [low]
    · have back : 12 + (i - 12) = i := by omega
      simp [low, back, bound]
  rw [shifted, BitVec.toNat_shiftLeft, BitVec.toNat_ushiftRight, Nat.shiftRight_eq_div_pow,
    Nat.shiftLeft_eq]
  have := x.isLt
  omega

theorem pageFrame_of_aligned {x : Word} (aligned : x.toNat % 0x1000 = 0)
    : x &&& 0xfffff000#32 = x := by
  apply eq_of_toNat_eq
  rw [toNat_pageFrame]
  omega

theorem toNat_or_of_aligned {x : Word} (aligned : x.toNat % 0x1000 = 0) {flags : Word}
    (small : flags.toNat < 0x1000)
    : (x ||| flags).toNat = x.toNat + flags.toNat := by
  rw [BitVec.toNat_or]
  have parts : x.toNat = 2 ^ 12 * (x.toNat / 0x1000) := by omega
  rw [parts, ← Nat.two_pow_add_eq_or_of_lt small]

theorem pageFrame_or {x : Word} (aligned : x.toNat % 0x1000 = 0) {flags : Word}
    (small : flags.toNat < 0x1000)
    : (x ||| flags) &&& 0xfffff000#32 = x := by
  apply eq_of_toNat_eq
  rw [toNat_pageFrame, toNat_or_of_aligned aligned small]
  omega

theorem flags_of_aligned {x : Word} (aligned : x.toNat % 0x1000 = 0)
    : (x ||| 0x7#32).getLsbD 0 = true
      ∧ (x ||| 0x7#32).getLsbD 1 = true
      ∧ (x ||| 0x7#32).getLsbD 2 = true
      ∧ (x ||| 0x7#32).getLsbD 7 = false := by
  have seventh : x.getLsbD 7 = false := by
    rw [BitVec.getLsbD, Nat.testBit_eq_decide_div_mod_eq]
    simp
    omega
  refine ⟨by simp, by simp, by simp, ?_⟩
  rw [BitVec.getLsbD_or, seventh]
  rfl

theorem toNat_directoryIndex (a : Word) : (a >>> 22).toNat = a.toNat / 0x400000 := by
  simp [Nat.shiftRight_eq_div_pow]

theorem toNat_tableIndex (a : Word)
    : ((a >>> 12) &&& 0x3ff#32).toNat = a.toNat / 0x1000 % 1024 := by
  have mask : (0x3ff#32).toNat = 2 ^ 10 - 1 := rfl
  rw [toNat_and, mask, Nat.and_two_pow_sub_one_eq_mod, BitVec.toNat_ushiftRight,
    Nat.shiftRight_eq_div_pow]

theorem toNat_pageOffset (a : Word) : (a &&& 0xfff#32).toNat = a.toNat % 0x1000 := by
  have mask : (0xfff#32).toNat = 2 ^ 12 - 1 := rfl
  rw [toNat_and, mask, Nat.and_two_pow_sub_one_eq_mod]

theorem entry_inj {p q : Word} (aligned : p.toNat % 0x1000 = 0) (aligned' : q.toNat % 0x1000 = 0)
    {i j : Nat} (small : i < 1024) (small' : j < 1024) (same : entry p i = entry q j)
    : p = q ∧ i = j := by
  have values := congrArg toNat same
  simp only [entry, BitVec.toNat_add, toNat_ofNat] at values
  have := p.isLt
  have := q.isLt
  refine ⟨eq_of_toNat_eq ?_, ?_⟩ <;> omega

/-- All directory entries point to the table, and table entry `k` to frame `k`. -/
structure Mapped (t : PageTables) (mem : Physical) : Prop where
  dir : ∀ i < 1024, mem (entry t.pDir i) = t.pTab ||| 0x7#32
  tab : ∀ k < 1024, mem (entry t.pTab k) = ofNat 32 (0x1000 * k) ||| 0x7#32

theorem tableIndex_frame {k : Nat} (small : k < 1024)
    : ((ofNat 32 (0x1000 * k) >>> 12) &&& 0x3ff#32).toNat = k := by
  rw [toNat_tableIndex, toNat_ofNat]
  omega

theorem setPage_eq (t : PageTables) (mem : Physical)
    : setPage t mem
      = (List.range 1024).foldl
          (fun mem k =>
            Function.update mem (entry t.pTab k) (ofNat 32 (0x1000 * k) ||| 0x7#32))
          ((List.range 1024).foldl
            (fun mem i => Function.update mem (entry t.pDir i) (t.pTab ||| 0x7#32)) mem) := by
  rw [setPage, pageFrame_of_aligned t.tabAligned, foldl_map]
  apply foldl_ext
  intro mem k member
  rw [tableIndex_frame (mem_range.mp member)]

theorem setPage_mapped (t : PageTables) (mem : Physical) : Mapped t (setPage t mem) := by
  rw [setPage_eq]
  constructor
  · intro i small
    -- the second loop stays inside the table
    rw [Folds.foldl_update_of_ne]
    · exact Folds.foldl_update_of_mem _ (fun _ _ _ _ _ => rfl) (mem_range.mpr small)
    · intro k member same
      exact t.different (entry_inj t.tabAligned t.dirAligned (mem_range.mp member) small
        same).1.symm
  · intro k small
    refine Folds.foldl_update_of_mem _ (fun i hi j hj same => ?_) (mem_range.mpr small)
    rw [(entry_inj t.tabAligned t.tabAligned (mem_range.mp hi) (mem_range.mp hj) same).2]

theorem setPage_other (t : PageTables) (mem : Physical) {p : Word}
    (aligned : p.toNat % 0x1000 = 0) (notDir : p ≠ t.pDir) (notTab : p ≠ t.pTab) {i : Nat}
    (small : i < 1024)
    : setPage t mem (entry p i) = mem (entry p i) := by
  rw [setPage_eq, Folds.foldl_update_of_ne, Folds.foldl_update_of_ne]
  · intro k member same
    exact notDir (entry_inj t.dirAligned aligned (mem_range.mp member) small same).1.symm
  · intro k member same
    exact notTab (entry_inj t.tabAligned aligned (mem_range.mp member) small same).1.symm

theorem enablePaging_mapped (pages : KernelPages) (mem : Physical)
    : Mapped pages.excp (enablePaging pages mem) ∧ Mapped pages.main (enablePaging pages mem) := by
  obtain ⟨dirDir, dirTab, tabDir, tabTab⟩ := pages.apart
  have before := setPage_mapped pages.excp mem
  refine ⟨⟨fun i small => ?_, fun k small => ?_⟩, setPage_mapped pages.main _⟩
  · rw [enablePaging, setPage_other _ _ pages.excp.dirAligned dirDir dirTab small]
    exact before.dir i small
  · rw [enablePaging, setPage_other _ _ pages.excp.tabAligned tabDir tabTab small]
    exact before.tab k small

theorem frame_directoryBase {pDir : Word} (aligned : pDir.toNat % 0x1000 = 0) (cr3 : Word)
    : directoryBase cr3 pDir &&& 0xfffff000#32 = pDir := by
  have small : (cr3 &&& 0xfff#32).toNat < 0x1000 := by
    rw [toNat_pageOffset]
    omega
  rw [directoryBase, pageFrame_of_aligned aligned, BitVec.or_comm]
  exact pageFrame_or aligned small

theorem toNat_physical (a : Word)
    : ((ofNat 32 (0x1000 * (a.toNat / 0x1000 % 1024)) ||| 0x7#32) &&& 0xfffff000#32
        ||| (a &&& 0xfff#32)).toNat
      = a.toNat % 0x400000 := by
  have value : (ofNat 32 (0x1000 * (a.toNat / 0x1000 % 1024))).toNat
      = 0x1000 * (a.toNat / 0x1000 % 1024) := by
    rw [toNat_ofNat]
    omega
  have aligned : (ofNat 32 (0x1000 * (a.toNat / 0x1000 % 1024))).toNat % 0x1000 = 0 := by
    omega
  have offset : (a &&& 0xfff#32).toNat < 0x1000 := by
    rw [toNat_pageOffset]
    omega
  rw [pageFrame_or aligned (by decide), toNat_or_of_aligned aligned offset, value, toNat_pageOffset]
  omega

/-- Tables that are set up translate every address to the first four megabytes. -/
theorem walk_mapped {t : PageTables} {mem : Physical} (mapped : Mapped t mem) (cr3 a : Word)
    : walk mem (directoryBase cr3 t.pDir) a = some ⟨ofNat 32 (a.toNat % 0x400000), true, true⟩ := by
  have bound := a.isLt
  have directory := mapped.dir (a.toNat / 0x400000) (by omega)
  have table := mapped.tab (a.toNat / 0x1000 % 1024) (by omega)
  have aligned : (ofNat 32 (0x1000 * (a.toNat / 0x1000 % 1024))).toNat % 0x1000 = 0 := by
    rw [toNat_ofNat]
    omega
  obtain ⟨present, writable, user, small⟩ := flags_of_aligned t.tabAligned
  obtain ⟨present', writable', user', _⟩ := flags_of_aligned aligned
  have physical := eq_of_toNat_eq ((toNat_physical a).trans
    (show a.toNat % 0x400000 = (ofNat 32 (a.toNat % 0x400000)).toNat by
      rw [toNat_ofNat]
      omega))
  simp only [walk, frame_directoryBase t.dirAligned, toNat_directoryIndex, directory, present,
    small, writable, user, pageFrame_or t.tabAligned (show (0x7#32).toNat < 0x1000 by decide),
    toNat_tableIndex, table, present', writable', user', physical, Bool.not_false, Bool.and_self,
    if_true]

theorem translate_physical {t : PageTables} {mem : Physical} (mapped : Mapped t mem) (pg : Bool)
    (cr3 a : Word)
    : (translate pg mem (directoryBase cr3 t.pDir) a).map (fun x => x.physical.toNat)
      = some (physical pg a.toNat) := by
  cases pg with
  | false => rfl
  | true =>
    rw [translate, if_pos rfl, walk_mapped mapped, Option.map_some, toNat_ofNat]
    exact congrArg some (Nat.mod_eq_of_lt (by omega))

theorem toNat_flip {a : Word} (lower : 0x01000000 ≤ a.toNat) (upper : a.toNat < 0x01400000)
    : (a ^^^ 0x01000000#32).toNat = a.toNat % 0x400000 := by
  have high : (a.toNat ^^^ 0x01000000) / 2 ^ 24 = 0 := by
    rw [Nat.xor_div_two_pow]
    have one : a.toNat / 2 ^ 24 = 1 := by omega
    rw [one]
    rfl
  have low : (a.toNat ^^^ 0x01000000) % 2 ^ 24 = a.toNat % 2 ^ 24 := by
    rw [Nat.xor_mod_two_pow]
    exact Nat.xor_zero _
  have value : (a ^^^ 0x01000000#32).toNat = a.toNat ^^^ 0x01000000 := BitVec.toNat_xor _ _
  rw [value]
  omega

/-- For all page-aligned directories and tables, all contents of the memory and all flags in CR3:
the walk maps every linear address to physical memory modulo four megabytes, present, writable
and accessible to users. Hence an address of the range used with paging on reaches the byte that
the flipped address reaches with paging off.
-/
theorem setPage_aliases (t : PageTables) (mem : Physical) (cr3 : Word)
    : (∀ a,
        walk (setPage t mem) (directoryBase cr3 t.pDir) a
          = some ⟨ofNat 32 (a.toNat % 0x400000), true, true⟩)
      ∧ ∀ a : Word,
          0x01000000 ≤ a.toNat
          → a.toNat < 0x01400000
          → translate true (setPage t mem) (directoryBase cr3 t.pDir) a
            = translate false (setPage t mem) (directoryBase cr3 t.pDir)
                (a ^^^ 0x01000000#32) := by
  have mapped := setPage_mapped t mem
  refine ⟨walk_mapped mapped cr3, fun a lower upper => ?_⟩
  have flipped : ofNat 32 (a.toNat % 0x400000) = a ^^^ 0x01000000#32 := by
    apply eq_of_toNat_eq
    rw [toNat_flip lower upper, toNat_ofNat]
    omega
  rw [translate, if_pos rfl, walk_mapped mapped, translate, if_neg Bool.false_ne_true, flipped]

/-- The return point of the exception handlers. -/
theorem setPage_aliases_retp
    : let t : PageTables := ⟨0x1000, 0x2000, by decide, by decide, by decide⟩
      translate true (setPage t fun _ => 0) (directoryBase 0 t.pDir) 0x128d008
      = translate false (setPage t fun _ => 0) (directoryBase 0 t.pDir) 0x28d008 :=
  (setPage_aliases ⟨0x1000, 0x2000, by decide, by decide, by decide⟩ (fun _ => 0) 0).2 0x128d008
    (by decide) (by decide)

end FastPokeEmu.Kernel
