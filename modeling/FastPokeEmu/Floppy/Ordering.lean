import Mathlib.Data.List.TakeWhile
import FastPokeEmu.Floppy.Gadget

/-! What the order of the gadgets guarantees: on an acyclic dependency graph the sort ends
with every gadget after those it depends on, mnemonics decide whether the order depends on
the hash tables, and dependencies see registers by their names only.
-/

namespace FastPokeEmu.Floppy

open List

/-- The dependency graph has an edge from `v` to `w`. -/
def Edge (gs : List Gadget) (v w : Fin gs.length) : Prop :=
  w ≠ v ∧ (gs.get w).depend (gs.get v) = true

instance (gs : List Gadget) (v w : Fin gs.length) : Decidable (Edge gs v w) :=
  inferInstanceAs (Decidable (_ ∧ _))

/-- What the assertion of `topological_sort` checks. -/
def AcyclicGraph (gs : List Gadget) : Prop := ∀ v, ¬ Relation.TransGen (Edge gs) v v

/-- Nodes of the graph, each once, in an order that all edges respect. -/
structure Sorted (gs : List Gadget) (nodes : List (Fin gs.length)) : Prop where
  perm : nodes.Perm (finRange gs.length)
  edges : ∀ v w, Edge gs v w → nodes.idxOf v < nodes.idxOf w

section

variable {order : HashOrder} {gs : List Gadget}

theorem acyclic_of_increasing (rank : Fin gs.length → Nat)
    (increasing : ∀ v w, Edge gs v w → rank v < rank w)
    : AcyclicGraph gs := by
  intro v cycle
  have later {w : Fin gs.length} (path : Relation.TransGen (Edge gs) v w) : rank v < rank w := by
    induction path with
    | single edge => exact increasing _ _ edge
    | tail _ edge ih => exact Nat.lt_trans ih (increasing _ _ edge)
  exact Nat.lt_irrefl _ (later cycle)

theorem nodup_successors (w : Fin gs.length) : (successors order gs w).Nodup := by
  refine (sortByMnemonic_perm _).nodup_iff.mpr ((order.perm _ _ _).nodup_iff.mpr ?_)
  exact List.Nodup.filter _ (nodup_finRange _)

theorem length_sortNodes : (sortNodes order gs).length = gs.length := by
  rw [sortNodes_perm.length_eq, length_finRange]

theorem acyclic_successors (acyclic : AcyclicGraph gs)
    : DepthFirst.Acyclic (successors order gs) := by
  intro v cycle
  exact acyclic v (Relation.TransGen.mono (fun a b edge => mem_successors.mp edge) v v cycle)

/-- Nodes before others have no edge from them. -/
theorem sorted_of_topologicalSort {nodes : List (Fin gs.length)} {fuel : Nat}
    (found
      : DepthFirst.topologicalSort (successors order gs) fuel (sortNodes order gs) = some nodes)
    : Sorted gs nodes := by
  have perm := topologicalSort_perm found
  have here (v : Fin gs.length) : v ∈ nodes := perm.mem_iff.mpr (mem_finRange v)
  refine ⟨perm, fun v w edge => ?_⟩
  have pairs := pairwise_iff_getElem.mp (DepthFirst.topologicalSort_pairwise found)
  rcases Nat.lt_trichotomy (nodes.idxOf v) (nodes.idxOf w) with before | equal | after
  · exact before
  · exact (edge.1 ((idxOf_inj (here v)).mp equal).symm).elim
  · have noEdge := pairs _ _ (idxOf_lt_length_iff.mpr (here w))
      (idxOf_lt_length_iff.mpr (here v)) after
    rw [getElem_idxOf, getElem_idxOf] at noEdge
    exact (noEdge (mem_successors.mpr edge)).elim

/-- The sort of an acyclic graph. -/
theorem sortGadget_sorts_all (order : HashOrder) (acyclic : AcyclicGraph gs)
    : ∃ nodes, sortGadget order gs = some (nodes.map gs.get) ∧ Sorted gs nodes := by
  have all (v : Fin gs.length) : v ∈ sortNodes order gs :=
    sortNodes_perm.mem_iff.mpr (mem_finRange v)
  have few (w : Fin gs.length) : (successors order gs w).length ≤ (sortNodes order gs).length :=
    (subperm_of_subset (nodup_successors w) (fun v _ => all v)).length_le
  have enough : ((sortNodes order gs).length + 1) * (sortNodes order gs).length + 1
      ≤ (gs.length + 2) * (gs.length + 2) := by
    rw [length_sortNodes]
    have : (gs.length + 1) * gs.length ≤ (gs.length + 2) * gs.length :=
      Nat.mul_le_mul_right _ (by omega)
    rw [Nat.mul_add (gs.length + 2)]
    omega
  obtain ⟨nodes, found⟩ := DepthFirst.topologicalSort_exists (acyclic_successors acyclic)
    (fun _ _ n _ => all n) (fun w _ => few w) enough
  refine ⟨nodes, ?_, sorted_of_topologicalSort found⟩
  rw [sortGadget, found]
  rfl

/-- On an acyclic graph the sort ends, finds no cycle, and returns every gadget once, after
all those it depends on. Witness: an open node of the search is an ancestor of the node on
top of the stack.
-/
theorem sortGadget_sorts (order : HashOrder) (acyclic : AcyclicGraph gs)
    : ∃ nodes : List (Fin gs.length), sortGadget order gs = some (nodes.map gs.get)
        ∧ nodes.Perm (finRange gs.length)
        ∧ ∀ v w, Edge gs v w → nodes.idxOf v < nodes.idxOf w := by
  obtain ⟨nodes, result, sorted⟩ := sortGadget_sorts_all order acyclic
  exact ⟨nodes, result, sorted.perm, sorted.edges⟩

end

/-- A reader of a register, its definer and a reader of the new value, in another order. -/
def readThenDefine : List Gadget :=
  [.make [] "b" [] [] [] [.reg Gpr.eax.name],
    .make [] "a" [.reg Gpr.eax.name] [] [] [],
    .make [] "c" [] [] [.reg Gpr.eax.name] []]

theorem acyclic_readThenDefine : AcyclicGraph readThenDefine :=
  acyclic_of_increasing (fun v => 3 - v.val) (by decide)

theorem sortGadget_sorts_readThenDefine
    : ∃ nodes : List (Fin readThenDefine.length),
        sortGadget .insertion readThenDefine = some (nodes.map readThenDefine.get)
        ∧ nodes.Perm (finRange readThenDefine.length)
        ∧ ∀ v w, Edge readThenDefine v w → nodes.idxOf v < nodes.idxOf w :=
  sortGadget_sorts .insertion acyclic_readThenDefine

section

variable {gs : List Gadget}

theorem sortByMnemonic_eq {nodes nodes' : List (Fin gs.length)}
    (distinct : ∀ v w : Fin gs.length, (gs.get v).mnemonic = (gs.get w).mnemonic → v = w)
    (perm : nodes.Perm nodes')
    : sortByMnemonic gs nodes = sortByMnemonic gs nodes' := by
  have same := (sortByMnemonic_perm nodes).trans (perm.trans (sortByMnemonic_perm nodes').symm)
  refine List.Perm.eq_of_pairwise (fun v w _ _ le ge => ?_) (pairwise_insertionSort _ _)
    (pairwise_insertionSort _ _) same
  exact distinct v w (String.le_antisymm le ge)

theorem sortGadget_order_irrelevant
    (distinct : ∀ v w : Fin gs.length, (gs.get v).mnemonic = (gs.get w).mnemonic → v = w)
    (order order' : HashOrder)
    : sortGadget order gs = sortGadget order' gs := by
  have nodes : sortNodes order gs = sortNodes order' gs :=
    sortByMnemonic_eq distinct ((order.perm _ _ _).trans (order'.perm _ _ _).symm)
  have edges : successors order gs = successors order' gs := by
    funext w
    exact sortByMnemonic_eq distinct ((order.perm _ _ _).trans (order'.perm _ _ _).symm)
  rw [sortGadget, sortGadget, nodes, edges]

/-- The assembly texts in their order. -/
def sortedTexts (order : HashOrder) (gs : List Gadget) : Option (List (List Asm)) :=
  (sortGadget order gs).map (fun sorted => sorted.map Gadget.asm)

theorem sortGadget_of_no_edges (free : ∀ v w, ¬ Edge gs v w) (order : HashOrder)
    : sortGadget order gs = some ((sortNodes order gs).reverse.map gs.get) := by
  have none (w : Fin gs.length) : successors order gs w = [] :=
    eq_nil_iff_forall_not_mem.mpr fun v edge => free w v (mem_successors.mp edge)
  have unique : (sortNodes order gs).Nodup := sortNodes_perm.nodup_iff.mpr (nodup_finRange _)
  have turns : ∃ fuel, (gs.length + 2) * (gs.length + 2) = fuel + 1 :=
    Nat.exists_eq_succ_of_ne_zero (by simp)
  obtain ⟨fuel, same⟩ := turns
  rw [sortGadget, same, DepthFirst.topologicalSort_of_no_edges none unique, Option.map_some]

/-- A dictionary that lists one key before the others. -/
def HashOrder.promote (a : Nat) (order : HashOrder) : HashOrder where
  iter := fun dict _ keys =>
    (order.iter dict keys).filter (fun k => k.val = a)
      ++ (order.iter dict keys).filter (fun k => !decide (k.val = a))
  perm := fun dict n keys => (filter_append_perm _ _).trans (order.perm dict n keys)

theorem iter_promote {order : HashOrder} {n : Nat} (v : Fin n)
    : (order.promote v.val).iter 0 (finRange n)
      = v :: (order.iter 0 (finRange n)).filter (fun k => k ≠ v) := by
  have first : (order.iter 0 (finRange n)).filter (fun k => k.val = v.val) = [v] := by
    have same : (order.iter 0 (finRange n)).filter (fun k => k.val = v.val)
        = (order.iter 0 (finRange n)).filter (fun k => k == v) :=
      filter_congr fun k _ => by rw [Bool.eq_iff_iff]; simp [Fin.ext_iff]
    rw [same, filter_beq, (order.perm _ _ _).count_eq, count_finRange]
    rfl
  have later : (order.iter 0 (finRange n)).filter (fun k => !decide (k.val = v.val))
      = (order.iter 0 (finRange n)).filter (fun k => k ≠ v) :=
    filter_congr fun k _ => by rw [Bool.eq_iff_iff]; simp [Fin.ext_iff]
  simp only [HashOrder.promote, first, later, singleton_append]

/-- Nodes whose mnemonic is not above another's come before it. -/
def isBelow (gs : List Gadget) (w b : Fin gs.length) : Bool :=
  decide ¬ (gs.get w).mnemonic ≤ (gs.get b).mnemonic

/-- Nodes listed one after the other stay so if they have the same mnemonic. -/
theorem sortByMnemonic_cons_cons {v w : Fin gs.length}
    (same : (gs.get v).mnemonic = (gs.get w).mnemonic) (nodes : List (Fin gs.length))
    : sortByMnemonic gs (v :: w :: nodes)
      = (sortByMnemonic gs nodes).takeWhile (isBelow gs w)
          ++ v :: w :: (sortByMnemonic gs nodes).dropWhile (isBelow gs w) := by
  have stops : isBelow gs w w = false := decide_eq_false (not_not_intro (String.le_refl _))
  have insert (u : Fin gs.length) (equal : (gs.get u).mnemonic = (gs.get w).mnemonic)
      (sorted : List (Fin gs.length))
      : sorted.orderedInsert (fun a b => (gs.get a).mnemonic ≤ (gs.get b).mnemonic) u
        = sorted.takeWhile (isBelow gs w) ++ u :: sorted.dropWhile (isBelow gs w) := by
    rw [orderedInsert_eq_take_drop, equal]
    rfl
  rw [sortByMnemonic, insertionSort_cons, insertionSort_cons, ← sortByMnemonic,
    insert w rfl, insert v same]
  generalize sortByMnemonic gs nodes = sorted
  have front (b : Fin gs.length) (mem : b ∈ sorted.takeWhile (isBelow gs w))
      : isBelow gs w b = true :=
    mem_takeWhile_imp (p := isBelow gs w) mem
  rw [takeWhile_append_of_pos front, dropWhile_append_of_pos front,
    takeWhile_cons_of_neg (by simp [stops]), dropWhile_cons_of_neg (by simp [stops]), append_nil]

theorem sortNodes_promote {v w : Fin gs.length} (ne : v ≠ w)
    (same : (gs.get v).mnemonic = (gs.get w).mnemonic)
    : ∃ front back,
        sortNodes ((HashOrder.insertion.promote w.val).promote v.val) gs = front ++ v :: w :: back
        ∧ sortNodes ((HashOrder.insertion.promote v.val).promote w.val) gs
          = front ++ w :: v :: back := by
  have enumerated (a b : Fin gs.length) (apart : a ≠ b)
      : ((HashOrder.insertion.promote b.val).promote a.val).iter 0 (finRange gs.length)
        = a :: b :: ((finRange gs.length).filter (fun k => k ≠ b)).filter
            (fun k => k ≠ a) := by
    rw [iter_promote, iter_promote]
    simp only [HashOrder.insertion, filter_cons]
    rw [if_pos (by simpa using apart.symm)]
  have others : ((finRange gs.length).filter (fun k => k ≠ w)).filter (fun k => k ≠ v)
      = ((finRange gs.length).filter (fun k => k ≠ v)).filter (fun k => k ≠ w) := by
    rw [filter_filter, filter_filter]
    exact filter_congr fun k _ => Bool.and_comm _ _
  let sorted := sortByMnemonic gs
    (((finRange gs.length).filter (fun k => k ≠ w)).filter (fun k => k ≠ v))
  have below : isBelow gs v = isBelow gs w := by
    funext b
    rw [isBelow, isBelow, same]
  refine ⟨sorted.takeWhile (isBelow gs w), sorted.dropWhile (isBelow gs w), ?_, ?_⟩
  · rw [sortNodes, enumerated v w ne, sortByMnemonic_cons_cons same]
  · rw [sortNodes, enumerated w v ne.symm, ← others, sortByMnemonic_cons_cons same.symm,
      below]

/-- Without dependencies the texts do not depend on the hash tables if and only if the
mnemonic decides the text. Witness: two dictionaries that list two such gadgets in different
orders.
-/
theorem sortedTexts_of_no_edges (free : ∀ v w, ¬ Edge gs v w)
    : (∀ order order', sortedTexts order gs = sortedTexts order' gs)
      ↔ ∀ v w : Fin gs.length, (gs.get v).mnemonic = (gs.get w).mnemonic
          → (gs.get v).asm = (gs.get w).asm := by
  have texts (order : HashOrder)
      : sortedTexts order gs
        = some ((sortNodes order gs).map (fun v => (gs.get v).asm)).reverse := by
    rw [sortedTexts, sortGadget_of_no_edges free, Option.map_some, map_map, map_reverse]
    rfl
  simp only [texts, Option.some.injEq, reverse_inj]
  constructor
  · intro independent v w same
    by_cases equal : v = w
    · rw [equal]
    · obtain ⟨front, back, first, second⟩ := sortNodes_promote equal same
      have lists := independent ((HashOrder.insertion.promote w.val).promote v.val)
        ((HashOrder.insertion.promote v.val).promote w.val)
      rw [first, second, map_append, map_append, append_right_inj, map_cons, map_cons] at lists
      exact (List.cons.inj lists).1
  · intro decided order order'
    -- Pairs of mnemonic and text are sorted by the first component, which decides the second.
    let pair (v : Fin gs.length) := ((gs.get v).mnemonic, (gs.get v).asm)
    have pairs : (sortNodes order gs).map pair = (sortNodes order' gs).map pair := by
      have ordered (order : HashOrder)
          : ((sortNodes order gs).map pair).Pairwise (fun p q => p.1 ≤ q.1) :=
        pairwise_map.mpr (pairwise_insertionSort _ _)
      refine List.Perm.eq_of_pairwise (fun p q inside inside' le ge => ?_) (ordered order)
        (ordered order') ((sortNodes_perm.trans sortNodes_perm.symm).map pair)
      obtain ⟨v, _, rfl⟩ := mem_map.mp inside
      obtain ⟨w, _, rfl⟩ := mem_map.mp inside'
      have same := String.le_antisymm le ge
      exact Prod.ext same (decided v w same)
    have second := congrArg (List.map Prod.snd) pairs
    rw [map_map, map_map] at second
    exact second

end

/-- The order of the texts does not depend on the hash tables if no two gadgets have the same
mnemonic. Among gadgets without dependencies, it does as soon as two of them have the same
mnemonic and different texts.
-/
theorem sortedTexts_order_irrelevant (gs : List Gadget)
    : ((gs.map Gadget.mnemonic).Nodup
        → ∀ order order', sortedTexts order gs = sortedTexts order' gs)
      ∧ ((∀ v w, ¬ Edge gs v w)
        → ((∀ order order', sortedTexts order gs = sortedTexts order' gs)
          ↔ ∀ v w : Fin gs.length, (gs.get v).mnemonic = (gs.get w).mnemonic
              → (gs.get v).asm = (gs.get w).asm)) := by
  refine ⟨fun distinct order order' => ?_, fun free => sortedTexts_of_no_edges free⟩
  have injective (v w : Fin gs.length) (same : (gs.get v).mnemonic = (gs.get w).mnemonic)
      : v = w := by
    have found : (gs.map Gadget.mnemonic)[v.val]? = (gs.map Gadget.mnemonic)[w.val]? := by
      simpa using same
    exact Fin.ext ((List.getElem?_inj (by simp) distinct).mp found)
  rw [sortedTexts, sortedTexts, sortGadget_order_irrelevant injective order order']

theorem sortedTexts_order_irrelevant_readThenDefine
    : (readThenDefine.map Gadget.mnemonic).Nodup
      ∧ ∀ order order', sortedTexts order readThenDefine = sortedTexts order' readThenDefine :=
  ⟨by decide, (sortedTexts_order_irrelevant readThenDefine).1 (by decide)⟩

/-- Two gadgets that neither read nor write what the other does, under one mnemonic. -/
def sameMnemonic : List Gadget :=
  [.make [.ins (.pushf)] "copy" [] [] [] [], .make [] "copy" [] [] [] []]

theorem hash_order_decides
    : AcyclicGraph sameMnemonic
      ∧ ∃ order order', sortedTexts order sameMnemonic ≠ sortedTexts order' sameMnemonic := by
  refine ⟨acyclic_of_increasing (fun v => v.val) (by decide), ?_⟩
  have free : ∀ v w, ¬ Edge sameMnemonic v w := by decide
  by_contra never
  push Not at never
  have decided := (sortedTexts_of_no_edges free).mp never ⟨0, by decide⟩ ⟨1, by decide⟩ rfl
  cases decided

/-- The bits of a general purpose register that a name covers. -/
def Part.covers (p : Part) (bit : Nat) : Prop :=
  match p with
  | .full => bit < 32
  | .word => bit < 16
  | .low => bit < 8
  | .high => 8 ≤ bit ∧ bit < 16

/-- Two names share a bit: parts of one general purpose register, or the same register. -/
def RegName.Shares : RegName → RegName → Prop
  | .gpr a, .gpr b => a.reg = b.reg ∧ ∃ bit, a.part.covers bit ∧ b.part.covers bit
  | a, b => a = b

/-- The first gadget has to run after the second, as registers go: it defines a part of what
the second kills or reads, or kills what it reads, or reads what it defines.
-/
def Conflict (g1 g0 : Gadget) : Prop :=
  ∃ a b : RegName, a.Shares b
    ∧ (.reg a ∈ g1.define ∧ (.reg b ∈ g0.kill ∨ .reg b ∈ g0.use)
      ∨ .reg a ∈ g1.kill ∧ .reg b ∈ g0.use
      ∨ .reg b ∈ g0.define ∧ .reg a ∈ g1.use__)

/-- All registers in the sets of a gadget have names of a given kind. -/
def Gadget.Over (names : RegName → Prop) (g : Gadget) : Prop :=
  ∀ r, .reg r ∈ g.define ∨ .reg r ∈ g.kill ∨ .reg r ∈ g.use ∨ .reg r ∈ g.use__ → names r

/-- Names that exist: only four registers have named bytes. -/
def RegName.Exists : RegName → Prop
  | .gpr r => r.reg.hasHalves = true ∨ r.part = .full ∨ r.part = .word
  | _ => True

theorem Part.shares_iff (p q : Part)
    : (∃ bit, p.covers bit ∧ q.covers bit)
      ↔ ¬ (p = .low ∧ q = .high) ∧ ¬ (p = .high ∧ q = .low) := by
  constructor
  · rintro ⟨bit, first, second⟩
    constructor
    · rintro ⟨rfl, rfl⟩
      exact Nat.lt_irrefl _ (Nat.lt_of_lt_of_le first second.1)
    · rintro ⟨rfl, rfl⟩
      exact Nat.lt_irrefl _ (Nat.lt_of_lt_of_le second first.1)
  · intro apart
    refine ⟨if p = .high ∨ q = .high then 8 else 0, ?_⟩
    cases p <;> cases q <;> simp_all [Part.covers]

/-- Equality of names sees every overlap, except of different names of a register without
named bytes.
-/
theorem RegName.same_of_shares {a b : RegName} (shares : a.Shares b)
    (halves : ∀ r p q, a = .gpr ⟨r, p⟩ → b = .gpr ⟨r, q⟩ → p = q ∨ r.hasHalves = true)
    : a.same b = true := by
  cases a with
  | gpr a =>
    cases b with
    | gpr b =>
      obtain ⟨reg, bits⟩ := shares
      obtain ⟨r, p⟩ := a
      obtain ⟨r', q⟩ := b
      obtain rfl : r = r' := reg
      rw [Part.shares_iff] at bits
      rcases halves r p q rfl rfl with rfl | known
      · exact RegName.same_refl _
      · cases p <;> cases q <;> simp_all [RegName.same]
    | _ => cases shares
  | _ => exact (show _ = b from shares) ▸ RegName.same_refl _

theorem RegName.same_comm (a b : RegName) : a.same b = b.same a := by
  cases a with
  | gpr a =>
    cases b with
    | gpr b =>
      obtain ⟨r, p⟩ := a
      obtain ⟨r', q⟩ := b
      cases p <;> cases q <;> cases r <;> cases r' <;> rfl
    | _ => rfl
  | _ => cases b <;> simp [RegName.same, eq_comm]

/-- No pointer or index register occurs both as a whole and as its low word. -/
def NamesApart (names : RegName → Prop) : Prop :=
  ∀ r : Gpr, r.hasHalves = false → ¬ (names (.gpr ⟨r, .full⟩) ∧ names (.gpr ⟨r, .word⟩))

section

variable {names : RegName → Prop}

theorem same_of_apart (exist : ∀ r, names r → r.Exists) (apart : NamesApart names)
    {a b : RegName} (first : names a) (second : names b) (shares : a.Shares b)
    : a.same b = true := by
  refine RegName.same_of_shares shares fun r p q equal equal' => ?_
  subst equal equal'
  by_cases halves : r.hasHalves = true
  · exact Or.inr halves
  · left
    have whole := (exist _ first).resolve_left halves
    have whole' := (exist _ second).resolve_left halves
    have none : r.hasHalves = false := by simpa using halves
    -- One of the two names would be the register and the other its low word.
    rcases whole with rfl | rfl <;> rcases whole' with rfl | rfl
    · rfl
    · exact (apart r none ⟨first, second⟩).elim
    · exact (apart r none ⟨second, first⟩).elim
    · rfl

/-- Registers that share a bit make the gadgets depend on each other. -/
theorem depend_of_conflict (exist : ∀ r, names r → r.Exists) (apart : NamesApart names)
    {g1 g0 : Gadget} (over1 : g1.Over names) (over0 : g0.Over names) (conflict : Conflict g1 g0)
    : g1.depend g0 = true := by
  have meets {s t : LocSet} {a b : RegName} (first : .reg a ∈ s) (second : .reg b ∈ t)
      (same : a.same b = true)
      : s.meets t = true :=
    LocSet.meets_of_mem (x := .reg a) (y := .reg b) first second same
  obtain ⟨a, b, shares, ⟨defines, kills | reads⟩ | ⟨kills, reads⟩ | ⟨defines, reads⟩⟩ := conflict
  · have same := same_of_apart exist apart (over1 a (.inl defines)) (over0 b (.inr (.inl kills)))
      shares
    simp [Gadget.depend, meets defines kills same]
  · have same := same_of_apart exist apart (over1 a (.inl defines))
      (over0 b (.inr (.inr (.inl reads)))) shares
    rw [RegName.same_comm] at same
    simp [Gadget.depend, meets reads defines same]
  · have same := same_of_apart exist apart (over1 a (.inr (.inl kills)))
      (over0 b (.inr (.inr (.inl reads)))) shares
    rw [RegName.same_comm] at same
    simp [Gadget.depend, meets reads kills same]
  · have same := same_of_apart exist apart (over1 a (.inr (.inr (.inr reads))))
      (over0 b (.inl defines)) shares
    rw [RegName.same_comm] at same
    simp [Gadget.depend, meets defines reads same]

/-- A gadget that defines a register and one that reads its low word. -/
def defines (r : Gpr) : Gadget := .make [] "define" [.reg (.gpr ⟨r, .full⟩)] [] [] []

def readsWord (r : Gpr) : Gadget := .make [] "read" [] [] [.reg (.gpr ⟨r, .word⟩)] []

theorem conflict_defines_readsWord (r : Gpr) : Conflict (defines r) (readsWord r) := by
  refine ⟨.gpr ⟨r, .full⟩, .gpr ⟨r, .word⟩, ⟨rfl, 0, ?_, ?_⟩, .inl ⟨?_, .inr ?_⟩⟩
  · exact Nat.zero_lt_succ 31
  · exact Nat.zero_lt_succ 15
  · exact mem_singleton.mpr rfl
  · exact mem_singleton.mpr rfl

theorem not_depend_readsWord {r : Gpr} (noHalves : r.hasHalves = false)
    : (defines r).depend (readsWord r) = false := by
  cases r with
  | eax | ecx | edx | ebx => cases noHalves
  | esp | ebp | esi | edi => decide

/-- Dependencies respect overlaps, and so does the sorted order, if and only if no pointer or
index register occurs both as a whole and as its low word. Witness: equality of names knows
the parts of the four other registers only.
-/
theorem conflicts_ordered_iff (exist : ∀ r, names r → r.Exists)
    : ((∀ g0 g1 : Gadget, g0.Over names → g1.Over names → Conflict g1 g0 → g1.depend g0 = true)
        ∧ ∀ (order : HashOrder) (gs : List Gadget), (∀ g ∈ gs, g.Over names) → AcyclicGraph gs
            → ∃ nodes : List (Fin gs.length), sortGadget order gs = some (nodes.map gs.get)
                ∧ nodes.Perm (finRange gs.length)
                ∧ ∀ v w, v ≠ w → Conflict (gs.get w) (gs.get v)
                    → nodes.idxOf v < nodes.idxOf w)
      ↔ NamesApart names := by
  constructor
  · rintro ⟨respects, _⟩ r noHalves ⟨whole, word⟩
    have dependent := respects (readsWord r) (defines r)
      (fun name member => by
        obtain rfl : name = .gpr ⟨r, .word⟩ := by
          simpa [readsWord, Gadget.make, LocSet.ofList, LocSet.add, LocSet.has] using member
        exact word)
      (fun name member => by
        obtain rfl : name = .gpr ⟨r, .full⟩ := by
          simpa [defines, Gadget.make, LocSet.ofList, LocSet.add, LocSet.has] using member
        exact whole)
      (conflict_defines_readsWord r)
    rw [not_depend_readsWord noHalves] at dependent
    cases dependent
  · intro apart
    have respects (g0 g1 : Gadget) (over0 : g0.Over names) (over1 : g1.Over names)
        (conflict : Conflict g1 g0)
        : g1.depend g0 = true :=
      depend_of_conflict exist apart over1 over0 conflict
    refine ⟨respects, fun order gs known acyclic => ?_⟩
    obtain ⟨nodes, result, sorted⟩ := sortGadget_sorts_all order acyclic
    refine ⟨nodes, result, sorted.perm, fun v w different conflict => ?_⟩
    exact sorted.edges v w ⟨Ne.symm different, respects _ _ (known _ (get_mem gs v))
      (known _ (get_mem gs w)) conflict⟩

end

/-- Parts of EAX and the whole of ESI. -/
def someNames (r : RegName) : Prop :=
  r ∈ [.gpr ⟨.eax, .full⟩, .gpr ⟨.eax, .low⟩, .gpr ⟨.eax, .high⟩, .gpr ⟨.esi, .full⟩]

theorem conflicts_ordered_iff_someNames
    : (∀ g0 g1 : Gadget, g0.Over someNames → g1.Over someNames → Conflict g1 g0
        → g1.depend g0 = true)
      ∧ ∀ (order : HashOrder) (gs : List Gadget), (∀ g ∈ gs, g.Over someNames)
          → AcyclicGraph gs
          → ∃ nodes : List (Fin gs.length), sortGadget order gs = some (nodes.map gs.get)
              ∧ nodes.Perm (finRange gs.length)
              ∧ ∀ v w, v ≠ w → Conflict (gs.get w) (gs.get v)
                  → nodes.idxOf v < nodes.idxOf w := by
  refine (conflicts_ordered_iff fun r member => ?_).mpr fun r noHalves both => ?_
  · simp only [someNames, mem_cons, not_mem_nil, or_false] at member
    rcases member with rfl | rfl | rfl | rfl <;> simp [RegName.Exists, Gpr.hasHalves]
  · have word := both.2
    simp [someNames] at word

theorem overlap_unseen : Conflict (defines .esi) (readsWord .esi)
    ∧ (defines .esi).depend (readsWord .esi) = false :=
  ⟨conflict_defines_readsWord .esi, not_depend_readsWord rfl⟩

end FastPokeEmu.Floppy
