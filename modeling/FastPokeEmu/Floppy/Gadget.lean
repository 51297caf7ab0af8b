import Mathlib.Data.List.FinRange
import Mathlib.Data.List.Sort
import FastPokeEmu.Floppy.Machine
import FastPokeEmu.Library.DepthFirst

/-! Gadgets, their declared effects, and the order that the generator gives to them
(`Gadget`, `build_dependency_graph` and `topological_sort` of `gen_floppy_image.py`).
-/

namespace FastPokeEmu.Floppy

open List

/-- The registers whose low word has two named bytes. -/
def Gpr.hasHalves : Gpr → Bool
  | .eax | .ebx | .ecx | .edx => true
  | _ => false

/-- Register names the generator can handle, as `reg_map` gives them. -/
inductive RegName
  | gpr (r : GReg)
  | seg (sg : Seg)
  | cr (n : Nat)
  | dr (n : Nat)
  | st (n : Nat)
  | mm (n : Nat)
  | xmm (n : Nat)
  | eflags | eip | ip | mxcsr | xcr0 | tr
  deriving DecidableEq, Repr

/-- The 32-bit name of a register. -/
def Gpr.name (r : Gpr) : RegName := .gpr ⟨r, .full⟩

namespace RegName

/-- `Register.__eq__`: only the four registers with byte halves are known under several
names, and the two halves are different.
-/
def same : RegName → RegName → Bool
  | .gpr a, .gpr b =>
    a == b
    || (a.reg == b.reg
      && a.reg.hasHalves
      && !(a.part == .low && b.part == .high)
      && !(a.part == .high && b.part == .low))
  | a, b => a == b

end RegName

/-- What a gadget defines, kills or uses: a register, an operand by its text, a byte of the
test case, or one of the generator's markers.
-/
inductive Loc
  | reg (r : RegName)
  | mem (m : MemOp)
  | byte (addr : Nat)
  | memStar | stackStar | pde | pte | gdt | patchLjmpTarget | star
  deriving DecidableEq, Repr

def Loc.same : Loc → Loc → Bool
  | .reg a, .reg b => a.same b
  | a, b => a == b

/-- A Python set whose elements compare by `Loc.same`, in insertion order. -/
abbrev LocSet := List Loc

namespace LocSet

def has (s : LocSet) (x : Loc) : Bool := s.any x.same

def add (s : LocSet) (x : Loc) : LocSet := if has s x then s else s ++ [x]

def ofList (xs : List Loc) : LocSet := xs.foldl add []

def union (s t : LocSet) : LocSet := t.foldl add s

/-- `discard` removes one element that compares equal. -/
def diff (s t : LocSet) : LocSet := t.foldl (fun s x => s.eraseP x.same) s

/-- `&` keeps elements of the smaller set, and of the second one for equal sizes. -/
def inter (s t : LocSet) : LocSet :=
  if s.length < t.length then s.filter (has t) else t.filter (has s)

def meets (s t : LocSet) : Bool := s.any (has t)

end LocSet

structure Gadget where
  asm : List Asm
  mnemonic : String
  define : LocSet
  kill : LocSet
  use : LocSet
  use__ : LocSet
  deriving DecidableEq, Repr

namespace Gadget

/-- The constructor: declared effects are given as lists and become sets. -/
def make (asm : List Asm) (mnemonic : String) (define kill use use__ : List Loc)
    : Gadget :=
  ⟨asm, mnemonic, .ofList define, .ofList kill, .ofList use, .ofList use__⟩

/-- `__add__`: run one gadget after the other and drop what happens in between. -/
def add (self other : Gadget) : Gadget where
  asm := self.asm ++ other.asm
  mnemonic := self.mnemonic ++ "-" ++ other.mnemonic
  define := (self.define.union other.define).diff other.kill
  use :=
    (((self.use.union other.use).diff other.kill).diff self.kill).diff
      (self.define.inter other.use)
  kill := (self.kill.union other.kill).diff (self.kill.inter other.define)
  use__ := self.use__.union other.use__

/-- `merge_glist`; an empty list has no gadget, and an empty mnemonic keeps the old one. -/
def merge (mnemonic : String) : List Gadget → Option Gadget
  | [] => none
  | g :: rest =>
    let m := rest.foldl add g
    some (if mnemonic = "" then m else { m with mnemonic := mnemonic })

/-- `g1.depend(g0)`: the first gadget has to run after the second. -/
def depend (g1 g0 : Gadget) : Bool :=
  g1.define.meets g0.kill
  || (g0.use.meets g1.define || g1.define.has .star)
  || g0.use.meets g1.kill
  || g0.define.meets g1.use__
  || (g0.use.has (.reg .eflags) && !g1.use.has (.reg .eflags))
  || ((g0.define.has .pde || g0.define.has .pte) && g1.define.has (.reg .eflags))

end Gadget

/-- Dictionaries list their keys in an order of their own; every gadget's successors and
the nodes of the graph are in dictionaries.
-/
structure HashOrder where
  iter : Nat → {n : Nat} → List (Fin n) → List (Fin n)
  perm : ∀ dict n (keys : List (Fin n)), (iter dict keys).Perm keys

/-- Keys in the order in which they were inserted. -/
def HashOrder.insertion : HashOrder := ⟨fun _ _ keys => keys, fun _ _ _ => .rfl⟩

section

variable (order : HashOrder) (gs : List Gadget)

/-- `nodes.sort(nodecmp)`, a stable sort by mnemonic. -/
def sortByMnemonic (nodes : List (Fin gs.length)) : List (Fin gs.length) :=
  nodes.insertionSort (fun v w => (gs.get v).mnemonic ≤ (gs.get w).mnemonic)

def successors (w : Fin gs.length) : List (Fin gs.length) :=
  sortByMnemonic gs <| order.iter (w + 1) <|
    (finRange gs.length).filter (fun v => v ≠ w && (gs.get v).depend (gs.get w))

def sortNodes : List (Fin gs.length) := sortByMnemonic gs (order.iter 0 (finRange gs.length))

/-- `sort_gadget`; `none` when the dependencies are cyclic. -/
def sortGadget : Option (List Gadget) :=
  (DepthFirst.topologicalSort (successors order gs) ((gs.length + 2) * (gs.length + 2))
    (sortNodes order gs)).map (fun nodes => nodes.map gs.get)

end

theorem RegName.same_refl (r : RegName) : r.same r = true := by
  cases r <;> simp [RegName.same]

theorem Loc.same_refl (x : Loc) : x.same x = true := by
  cases x <;> simp [Loc.same, RegName.same_refl]

theorem LocSet.has_iff {s : LocSet} {x : Loc} : s.has x = true ↔ ∃ y ∈ s, x.same y = true := by
  simp [LocSet.has]

theorem LocSet.has_of_mem {s : LocSet} {x : Loc} (mem : x ∈ s) : s.has x = true :=
  LocSet.has_iff.mpr ⟨x, mem, x.same_refl⟩

theorem LocSet.meets_of_mem {s t : LocSet} {x y : Loc} (left : x ∈ s) (right : y ∈ t)
    (same : x.same y = true)
    : s.meets t = true :=
  any_eq_true.mpr ⟨x, left, LocSet.has_iff.mpr ⟨y, right, same⟩⟩

namespace Gadget

variable {g0 g1 : Gadget} {x : Loc}

theorem depend_of_use_define (used : x ∈ g0.use) (defined : x ∈ g1.define)
    : g1.depend g0 = true := by
  simp [depend, LocSet.meets_of_mem used defined x.same_refl]

theorem depend_of_use_kill (used : x ∈ g0.use) (killed : x ∈ g1.kill) : g1.depend g0 = true := by
  simp [depend, LocSet.meets_of_mem used killed x.same_refl]

theorem depend_of_kill_define (killed : x ∈ g0.kill) (defined : x ∈ g1.define)
    : g1.depend g0 = true := by
  simp [depend, LocSet.meets_of_mem defined killed x.same_refl]

theorem depend_of_define_needed (defined : x ∈ g0.define) (used : g1.use__.has x = true)
    : g1.depend g0 = true := by
  have meets : g0.define.meets g1.use__ = true := any_eq_true.mpr ⟨x, defined, used⟩
  simp [depend, meets]

theorem depend_of_eflags (used : g0.use.has (.reg .eflags) = true)
    (unused : g1.use.has (.reg .eflags) = false)
    : g1.depend g0 = true := by
  simp [depend, used, unused]

end Gadget

section

variable {order : HashOrder} {gs sorted : List Gadget}

theorem sortByMnemonic_perm (nodes : List (Fin gs.length)) : (sortByMnemonic gs nodes).Perm nodes :=
  perm_insertionSort _ _

theorem mem_successors {v w : Fin gs.length}
    : v ∈ successors order gs w ↔ v ≠ w ∧ (gs.get v).depend (gs.get w) = true := by
  rw [successors, (sortByMnemonic_perm _).mem_iff, (order.perm _ _ _).mem_iff]
  simp

theorem sortNodes_perm : (sortNodes order gs).Perm (finRange gs.length) :=
  (sortByMnemonic_perm _).trans (order.perm _ _ _)

theorem topologicalSort_perm {nodes : List (Fin gs.length)} {fuel : Nat}
    (found
      : DepthFirst.topologicalSort (successors order gs) fuel (sortNodes order gs) = some nodes)
    : nodes.Perm (finRange gs.length) := by
  have unique : (sortNodes order gs).Nodup := sortNodes_perm.nodup_iff.mpr (nodup_finRange _)
  refine (DepthFirst.topologicalSort_perm found unique (fun _ _ n _ => ?_)).trans sortNodes_perm
  exact sortNodes_perm.mem_iff.mpr (mem_finRange n)

theorem sortGadget_spec (success : sortGadget order gs = some sorted)
    : sorted.Perm gs ∧ sorted.Pairwise (fun a b => a.depend b = false) := by
  obtain ⟨nodes, found, rfl⟩ := Option.map_eq_some_iff.mp success
  have perm := topologicalSort_perm found
  refine ⟨?_, ?_⟩
  · refine (perm.map gs.get).trans ?_
    rw [← ofFn_eq_map, ofFn_get]
  · have edges := DepthFirst.topologicalSort_pairwise found
    have distinct := perm.nodup_iff.mpr (nodup_finRange _)
    refine pairwise_map.mpr ((edges.and distinct).imp ?_)
    rintro v w ⟨noEdge, ne⟩
    by_contra dependent
    exact noEdge (mem_successors.mpr ⟨ne, by simpa using dependent⟩)

end

end FastPokeEmu.Floppy
