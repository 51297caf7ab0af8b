import Mathlib.Data.List.Chain
import Mathlib.Data.List.TakeWhile
import FastPokeEmu.Floppy.Phases

/-! What is stored as return point at each line of a test case, and where control can go from
there.
-/

namespace FastPokeEmu.Floppy

open List

variable {p : Phase} {as : List Line}

/-- The phase that a label is in. -/
def Label.phase : Label → Phase
  | .ls => .pre
  | .l1 => .revert_
  | .l2 => .post
  | .l3 => .revert
  | .l4 | .l5 => .loop

def Line.IsGadget (a : Line) : Prop := ∃ g, a = .gadget g

/-- How the phases start and end. -/
structure Phases.Shape (ps : Phases) (loop : Word) : Prop where
  startup : ∃ as, ps.startup = .prologue loop .l3 :: as ∧ ∀ a ∈ as, a.IsGadget
  pre : ∃ as, ps.pre = .label .ls :: as ∧ ∀ a ∈ as, a = .setRetp .l2 ∨ a.IsGadget
  code : ∃ as, ps.code = .setRetp .l1 :: (as ++ [.jmp .l2]) ∧ ∀ a ∈ as, a.IsGadget
  revert_ : ∃ as, ps.revert_ = .label .l1 :: .setRetp .l2 :: as ∧ ∀ a ∈ as, a.IsGadget
  post : ∃ as, ps.post = .label .l2 :: .setRetp .l3 :: as ∧ ∀ a ∈ as, a.IsGadget
  revert : ∃ as, ps.revert = .label .l3 :: .setRetp .l4 :: as ∧ ∀ a ∈ as, a.IsGadget
  loop : ps.loop = [.label .l4, .setRetp .l5, .decJnz .ls, .label .l5]

theorem isGadget_map {gs : List Gadget} : ∀ a ∈ gs.map Line.gadget, a.IsGadget := by
  intro a mem
  obtain ⟨g, _, same⟩ := mem_map.mp mem
  exact ⟨g, same.symm⟩

theorem Collected.phases_shape {c : Collected} {orders : Nat → HashOrder} {ps : Phases}
    (emitted : c.phases orders = some ps)
    : ps.Shape c.loop := by
  obtain ⟨startup, first, emitted⟩ := Option.bind_eq_some_iff.mp emitted
  obtain ⟨pre, second, emitted⟩ := Option.bind_eq_some_iff.mp emitted
  obtain ⟨post, _, emitted⟩ := Option.bind_eq_some_iff.mp emitted
  obtain ⟨revert, _, emitted⟩ := Option.bind_eq_some_iff.mp emitted
  obtain ⟨revert_, _, emitted⟩ := Option.bind_eq_some_iff.mp emitted
  obtain rfl := Option.some.inj emitted
  refine ⟨?_, ?_, ⟨_, rfl, isGadget_map⟩, ⟨_, rfl, isGadget_map⟩, ⟨_, rfl, isGadget_map⟩,
    ⟨_, rfl, isGadget_map⟩, rfl⟩
  · rw [Collected.startup] at first
    split at first
    · obtain ⟨setR, _, first⟩ := Option.bind_eq_some_iff.mp first
      obtain ⟨revert0, _, first⟩ := Option.bind_eq_some_iff.mp first
      exact ⟨_, (Option.some.inj first).symm, isGadget_map⟩
    · exact ⟨[], (Option.some.inj first).symm, forall_mem_nil _⟩
  · obtain ⟨setinput, _, second⟩ := Option.bind_eq_some_iff.mp second
    obtain ⟨sorted, _, second⟩ := Option.bind_eq_some_iff.mp second
    refine ⟨_, (Option.some.inj second).symm, ?_⟩
    intro a mem
    obtain ⟨g, _, same⟩ := mem_map.mp mem
    rw [← same, Collected.line]
    split
    · exact .inl rfl
    · exact .inr ⟨g, rfl⟩

/-- Where jumps go, and where the labels are. -/
def Known : Phase × Line → Prop
  | (p, .prologue _ _) => p = .startup
  | (p, .label l) => p = l.phase
  | (p, .jmp l) => p = .code ∧ l = .l2
  | (p, .decJnz l) => p = .loop ∧ l = .ls
  | _ => True

theorem Line.IsGadget.known {a : Line} (isGadget : a.IsGadget) (p : Phase) : Known (p, a) := by
  obtain ⟨g, rfl⟩ := isGadget
  trivial

theorem known_block {l l' : Label} {a : Line} (here : p = l.phase) (all : ∀ a ∈ as, a.IsGadget)
    (mem : a ∈ Line.label l :: Line.setRetp l' :: as)
    : Known (p, a) := by
  rcases mem_cons.mp mem with rfl | mem
  · exact here
  · rcases mem_cons.mp mem with rfl | mem
    · trivial
    · exact (all a mem).known p

section

variable {ps : Phases} {loop : Word} {armed : Prop} {g : Gadget} {l : Label} {s : Control}
  {turn : Nat} {x : Phase × Line} {rest : List (Phase × Line)}

theorem Phases.mem_program : x ∈ ps.program ↔ x.2 ∈ ps.lines x.1 := by
  obtain ⟨p, a⟩ := x
  have every : p ∈ [Phase.startup, .pre, .code, .revert_, .post, .revert, .loop] := by
    cases p <;> simp
  simp only [Phases.program, Phases.tagged, mem_flatMap, mem_map]
  constructor
  · rintro ⟨q, _, b, mem, same⟩
    cases same
    exact mem
  · intro mem
    exact ⟨p, every, a, mem, rfl⟩

theorem Phases.Shape.known (shape : ps.Shape loop) (mem : x ∈ ps.program) : Known x := by
  obtain ⟨p, a⟩ := x
  replace mem := Phases.mem_program.mp mem
  cases p with
  | startup =>
    obtain ⟨as, lines, all⟩ := shape.startup
    simp only [Phases.lines, lines, mem_cons] at mem
    rcases mem with rfl | mem
    · rfl
    · exact (all a mem).known _
  | pre =>
    obtain ⟨as, lines, all⟩ := shape.pre
    simp only [Phases.lines, lines, mem_cons] at mem
    rcases mem with rfl | mem
    · rfl
    · rcases all a mem with rfl | isGadget
      · trivial
      · exact isGadget.known _
  | code =>
    obtain ⟨as, lines, all⟩ := shape.code
    simp only [Phases.lines, lines, mem_cons, mem_append, not_mem_nil, or_false] at mem
    rcases mem with rfl | mem | rfl
    · trivial
    · exact (all a mem).known _
    · exact ⟨rfl, rfl⟩
  | revert_ =>
    obtain ⟨as, lines, all⟩ := shape.revert_
    rw [Phases.lines, lines] at mem
    exact known_block rfl all mem
  | post =>
    obtain ⟨as, lines, all⟩ := shape.post
    rw [Phases.lines, lines] at mem
    exact known_block rfl all mem
  | revert =>
    obtain ⟨as, lines, all⟩ := shape.revert
    rw [Phases.lines, lines] at mem
    exact known_block rfl all mem
  | loop =>
    simp only [Phases.lines, shape.loop, mem_cons, not_mem_nil, or_false] at mem
    rcases mem with rfl | rfl | rfl | rfl
    · rfl
    · trivial
    · exact ⟨rfl, rfl⟩
    · rfl

theorem Phases.Shape.label_mem (shape : ps.Shape loop) (l : Label)
    : (l.phase, .label l) ∈ ps.program := by
  apply Phases.mem_program.mpr
  cases l with
  | ls =>
    obtain ⟨as, lines, _⟩ := shape.pre
    simp [Label.phase, Phases.lines, lines]
  | l1 =>
    obtain ⟨as, lines, _⟩ := shape.revert_
    simp [Label.phase, Phases.lines, lines]
  | l2 =>
    obtain ⟨as, lines, _⟩ := shape.post
    simp [Label.phase, Phases.lines, lines]
  | l3 =>
    obtain ⟨as, lines, _⟩ := shape.revert
    simp [Label.phase, Phases.lines, lines]
  | l4 | l5 => simp [Label.phase, Phases.lines, shape.loop]

theorem Control.goto_suffix (program : List (Phase × Line)) (l : Label)
    : goto program l <:+ program :=
  dropWhile_suffix _

/-- A jump ends up at the label. -/
theorem Phases.Shape.goto_eq (shape : ps.Shape loop) (l : Label)
    : ∃ rest, Control.goto ps.program l = (l.phase, .label l) :: rest := by
  have found : ∃ x ∈ ps.program, ¬ (x.2 ≠ Line.label l) :=
    ⟨_, shape.label_mem l, fun differ => differ rfl⟩
  cases jumped : Control.goto ps.program l with
  | nil =>
    obtain ⟨x, mem, same⟩ := found
    have passed := dropWhile_eq_nil_iff.mp jumped x mem
    exact (same (of_decide_eq_true passed)).elim
  | cons x rest =>
    obtain ⟨p, a⟩ := x
    have here : (Control.goto ps.program l).head? = some (p, a) := by rw [jumped]; rfl
    have stops : a = .label l := by
      have stop := List.head?_dropWhile_not (fun x : Phase × Line => decide (x.2 ≠ .label l))
        ps.program
      rw [← Control.goto, here] at stop
      simpa using stop
    subst stops
    have inside : (p, Line.label l) ∈ ps.program :=
      (Control.goto_suffix ps.program l).subset (by rw [jumped]; exact mem_cons_self)
    have same : p = l.phase := shape.known inside
    exact ⟨rest, by rw [same]⟩

/-- Labels that may be stored when control is at a line. In the phase `pre` the label may
still be that of the prologue or that of the loop phase; `armed` says that the second one is
replaced before any gadget.
-/
def Allowed (armed : Prop) : Phase × Line → Nat → Label → Prop
  | (.pre, .gadget _), turn, l => l = .l2 ∨ l = .l3 ∨ (l = .l5 ∧ turn ≠ 0 ∧ ¬ armed)
  | (.pre, _), turn, l => l = .l2 ∨ l = .l3 ∨ (l = .l5 ∧ turn ≠ 0)
  | (.startup, .gadget _), _, l => l = .l3
  | (.code, .gadget _), _, l => l = .l1
  | (.revert_, .gadget _), _, l => l = .l2
  | (.post, .gadget _), _, l => l = .l3
  | (.revert, .gadget _), _, l => l = .l4
  | (.loop, .gadget _), _, _ => False
  | (_, .decJnz _), _, l => l = .l5
  | _, _, _ => True

def Demands (loop : Word) (armed : Prop) (x : Phase × Line) (s : Control) : Prop :=
  match x.2 with
  | .prologue count _ => s.turn = 0 ∧ count = loop
  | .label .l5 => s.turn < loop.toNat
  | _ => s.turn + s.count.toNat = loop.toNat ∧ s.count ≠ 0 ∧ Allowed armed x s.turn s.retp

/-- What executing a line does besides moving on. -/
def Control.pass (s : Control) : Line → Control
  | .prologue count mid => { s with retp := mid, count := count }
  | .setRetp l => { s with retp := l }
  | .decJnz _ => { s with count := s.count - 1 }
  | _ => s

/-- A line that may follow another: it is reached with what it demands. -/
structure Link (loop : Word) (armed : Prop) (x y : Phase × Line) : Prop where
  near : y.1.index = x.1.index ∨ y.1.index = x.1.index + 1
  demands : ∀ s, Demands loop armed x s → Demands loop armed y (s.pass x.2)

theorem chain_block {R : Phase × Line → Phase × Line → Prop} {x y : Phase × Line}
    (Q : Line → Prop) (first : ∀ a, as.head? = some a → R x (p, a))
    (inner : ∀ a b, Q a → Q b → R (p, a) (p, b)) (last : ∀ a, Q a → R (p, a) y)
    (direct : as = [] → R x y) (all : ∀ a ∈ as, Q a) (tail : (y :: rest).IsChain R)
    : (x :: (as.map (Prod.mk p) ++ y :: rest)).IsChain R := by
  induction as generalizing x with
  | nil => exact isChain_cons_cons.mpr ⟨direct rfl, tail⟩
  | cons a as ih =>
    have here := all a mem_cons_self
    refine isChain_cons_cons.mpr ⟨first a rfl, ?_⟩
    refine ih (fun b next => ?_) (fun _ => last a here)
      (fun b mem => all b (mem_cons_of_mem _ mem))
    exact inner a b here (all b (mem_cons_of_mem _ (mem_of_mem_head? next)))

theorem Link.gadgets (p : Phase) (a b : Line) (left : a.IsGadget)
    (right : b.IsGadget)
    : Link loop armed (p, a) (p, b) := by
  obtain ⟨g, rfl⟩ := left
  obtain ⟨g', rfl⟩ := right
  exact ⟨.inl rfl, by cases p <;> exact fun s demands => demands⟩

/-- Lines that need no particular return point. -/
def Free (y : Phase × Line) : Prop :=
  ∀ loop armed s, s.turn + s.count.toNat = loop.toNat → s.count ≠ 0 → Demands loop armed y s

/-- Lines that neither count nor are the last one. -/
def Line.Counted : Line → Prop
  | .prologue _ _ | .decJnz _ | .label .l5 => False
  | _ => True

theorem Link.of_free {x y : Phase × Line} (counted : x.2.Counted)
    (near : y.1.index = x.1.index ∨ y.1.index = x.1.index + 1) (free : Free y)
    : Link loop armed x y := by
  obtain ⟨p, a⟩ := x
  refine ⟨near, fun s demands => ?_⟩
  cases a with
  | prologue | decJnz => cases counted
  | label l =>
    cases l with
    | l5 => cases counted
    | ls | l1 | l2 | l3 | l4 => exact free _ _ _ demands.1 demands.2.1
  | setRetp | jmp | gadget => exact free _ _ _ demands.1 demands.2.1

/-- A phase with its label, its update of the return point and its gadgets. -/
theorem chain_phase {p q : Phase} {l m n : Label} (counted : (Line.label l).Counted)
    (stored : ∀ g turn, Allowed armed (p, .gadget g) turn m) (other : p ≠ .pre)
    (next : q.index = p.index + 1) (free : Free (q, .label n)) (all : ∀ a ∈ as, a.IsGadget)
    (tail : ((q, .label n) :: rest).IsChain (Link loop armed))
    : ((p, .label l) :: (p, .setRetp m) :: (as.map (Prod.mk p) ++ (q, .label n) :: rest)).IsChain
        (Link loop armed) := by
  refine isChain_cons_cons.mpr ⟨.of_free counted (.inl rfl) ?_, ?_⟩
  · intro loop armed s count pos
    refine ⟨count, pos, ?_⟩
    cases p <;> trivial
  · apply chain_block Line.IsGadget _ (Link.gadgets p) _ _ all tail
    · intro a first
      obtain ⟨g, rfl⟩ := all a (mem_of_mem_head? first)
      exact ⟨.inl rfl, fun s demands => ⟨demands.1, demands.2.1, stored g s.turn⟩⟩
    · intro a isGadget
      obtain ⟨g, rfl⟩ := isGadget
      exact .of_free trivial (.inr next) free
    · intro _
      exact .of_free trivial (.inr next) free

theorem Free.label (counted : (Line.label l).Counted) (other : p ≠ .pre) : Free (p, .label l) := by
  intro loop armed s count pos
  cases l with
  | l5 => cases counted
  | ls | l1 | l2 | l3 | l4 =>
    refine ⟨count, pos, ?_⟩
    cases p with
    | pre => exact (other rfl).elim
    | startup | code | revert_ | post | revert | loop => trivial

/-- The prologue stores the return point of the first gadgets. -/
theorem chain_startup (pos : loop ≠ 0) (all : ∀ a ∈ as, a.IsGadget)
    (tail : ((.pre, .label .ls) :: rest).IsChain (Link loop armed))
    : ((.startup, .prologue loop .l3) :: (as.map (Prod.mk .startup)
        ++ (.pre, .label .ls) :: rest)).IsChain (Link loop armed) := by
  have started (s : Control) (demands : s.turn = 0 ∧ loop = loop)
      : s.turn + loop.toNat = loop.toNat := by
    rw [demands.1, Nat.zero_add]
  refine chain_block Line.IsGadget ?_ (Link.gadgets _) ?_ ?_ all tail
  · intro a first
    obtain ⟨g, rfl⟩ := all a (mem_of_mem_head? first)
    exact ⟨.inl rfl, fun s demands => ⟨started s demands, pos, rfl⟩⟩
  · intro a isGadget
    obtain ⟨g, rfl⟩ := isGadget
    exact ⟨.inr rfl, fun s demands => ⟨demands.1, demands.2.1, .inr (.inl demands.2.2)⟩⟩
  · intro _
    exact ⟨.inr rfl, fun s demands => ⟨started s demands, pos, .inr (.inl rfl)⟩⟩

theorem Allowed.gadget (stored : l = .l2 ∨ l = .l3 ∨ (l = .l5 ∧ turn ≠ 0)) (open_ : ¬ armed)
    : Allowed armed (.pre, .gadget g) turn l := by
  rcases stored with post | revert | ⟨loop, turned⟩
  · exact .inl post
  · exact .inr (.inl revert)
  · exact .inr (.inr ⟨loop, turned, open_⟩)

theorem Allowed.weaken (allowed : Allowed armed (.pre, .gadget g) turn l)
    : l = .l2 ∨ l = .l3 ∨ (l = .l5 ∧ turn ≠ 0) := by
  rcases allowed with post | revert | ⟨loop, turned, _⟩
  · exact .inl post
  · exact .inr (.inl revert)
  · exact .inr (.inr ⟨loop, turned⟩)

theorem Link.pre (a b : Line) (left : a = .setRetp .l2 ∨ a.IsGadget)
    (right : b = .setRetp .l2 ∨ b.IsGadget)
    : Link loop armed (.pre, a) (.pre, b) := by
  refine ⟨.inl rfl, fun s demands => ?_⟩
  rcases left with rfl | ⟨g, rfl⟩
  · rcases right with rfl | ⟨g, rfl⟩
    · exact ⟨demands.1, demands.2.1, .inl rfl⟩
    · exact ⟨demands.1, demands.2.1, .inl rfl⟩
  · rcases right with rfl | ⟨g, rfl⟩
    · exact ⟨demands.1, demands.2.1, demands.2.2.weaken⟩
    · exact demands

/-- Control enters the phase `pre` with the return point of the prologue or of the loop. -/
theorem chain_pre (open_ : ∀ g, as.head? = some (.gadget g) → ¬ armed)
    (all : ∀ a ∈ as, a = .setRetp .l2 ∨ a.IsGadget)
    (tail : ((.code, .setRetp .l1) :: rest).IsChain (Link loop armed))
    : ((.pre, .label .ls) :: (as.map (Prod.mk .pre)
        ++ (.code, .setRetp .l1) :: rest)).IsChain (Link loop armed) := by
  have toCode {a : Line} (counted : a.Counted)
      : Link loop armed (.pre, a) (.code, .setRetp .l1) :=
    .of_free counted (.inr rfl) (fun _ _ _ count pos => ⟨count, pos, trivial⟩)
  refine chain_block (fun a => a = .setRetp .l2 ∨ a.IsGadget) ?_ Link.pre ?_ ?_ all tail
  · intro a first
    refine ⟨.inl rfl, fun s demands => ?_⟩
    rcases all a (mem_of_mem_head? first) with rfl | ⟨g, rfl⟩
    · exact demands
    · exact ⟨demands.1, demands.2.1, .gadget demands.2.2 (open_ g first)⟩
  · intro a kind
    rcases kind with rfl | ⟨g, rfl⟩
    · exact toCode trivial
    · exact toCode trivial
  · intro _
    exact toCode trivial

theorem chain_code (all : ∀ a ∈ as, a.IsGadget)
    (tail : ((.code, .jmp .l2) :: rest).IsChain (Link loop armed))
    : ((.code, .setRetp .l1) :: (as.map (Prod.mk .code)
        ++ (.code, .jmp .l2) :: rest)).IsChain (Link loop armed) := by
  have toJump {a : Line} (counted : a.Counted)
      : Link loop armed (.code, a) (.code, .jmp .l2) :=
    .of_free counted (.inl rfl) (fun _ _ _ count pos => ⟨count, pos, trivial⟩)
  refine chain_block Line.IsGadget ?_ (Link.gadgets _) ?_ ?_ all tail
  · intro a first
    obtain ⟨g, rfl⟩ := all a (mem_of_mem_head? first)
    exact ⟨.inl rfl, fun s demands => ⟨demands.1, demands.2.1, rfl⟩⟩
  · intro a isGadget
    obtain ⟨g, rfl⟩ := isGadget
    exact toJump trivial
  · intro _
    exact toJump trivial

theorem chain_loop
    : [(Phase.loop, Line.label .l4), (.loop, .setRetp .l5), (.loop, .decJnz .ls),
        (.loop, .label .l5)].IsChain (Link loop armed) := by
  refine isChain_cons_cons.mpr ⟨.of_free trivial (.inl rfl)
    (fun _ _ _ count pos => ⟨count, pos, trivial⟩), ?_⟩
  refine isChain_cons_cons.mpr ⟨⟨.inl rfl, fun s demands =>
    ⟨demands.1, demands.2.1, rfl⟩⟩, ?_⟩
  refine isChain_cons_cons.mpr ⟨⟨.inl rfl, fun s demands => ?_⟩, .singleton _⟩
  have count := demands.1
  have counts : s.count.toNat ≠ 0 := fun zero => demands.2.1 (BitVec.eq_of_toNat_eq zero)
  show s.turn < loop.toNat
  omega

/-- No gadget runs before the return point left by an earlier iteration is replaced. -/
def Phases.Armed (ps : Phases) : Prop := ∀ a, ps.pre[1]? = some a → ¬ a.IsGadget

/-- Lines of all phases follow each other. -/
theorem Phases.Shape.chain (shape : ps.Shape loop) (pos : loop ≠ 0)
    : ps.program.IsChain (Link loop ps.Armed) := by
  obtain ⟨startup, startupEq, startupAll⟩ := shape.startup
  obtain ⟨pre, preEq, preAll⟩ := shape.pre
  obtain ⟨code, codeEq, codeAll⟩ := shape.code
  obtain ⟨revert_, revert_Eq, revert_All⟩ := shape.revert_
  obtain ⟨post, postEq, postAll⟩ := shape.post
  obtain ⟨revert, revertEq, revertAll⟩ := shape.revert
  have shown : ps.program
      = (Phase.startup, Line.prologue loop .l3) :: (startup.map (Prod.mk Phase.startup)
        ++ (Phase.pre, Line.label .ls) :: (pre.map (Prod.mk Phase.pre)
        ++ (Phase.code, Line.setRetp .l1) :: (code.map (Prod.mk Phase.code)
        ++ (Phase.code, Line.jmp .l2) :: (Phase.revert_, Line.label .l1)
          :: (Phase.revert_, Line.setRetp .l2) :: (revert_.map (Prod.mk Phase.revert_)
        ++ (Phase.post, Line.label .l2) :: (Phase.post, Line.setRetp .l3)
          :: (post.map (Prod.mk Phase.post)
        ++ (Phase.revert, Line.label .l3) :: (Phase.revert, Line.setRetp .l4)
          :: (revert.map (Prod.mk Phase.revert)
        ++ [(Phase.loop, Line.label .l4), (Phase.loop, Line.setRetp .l5),
          (Phase.loop, Line.decJnz .ls), (Phase.loop, Line.label .l5)])))))) := by
    simp [Phases.program, Phases.tagged, Phases.lines, startupEq, preEq, codeEq, revert_Eq,
      postEq, revertEq, shape.loop]
  rw [shown]
  apply chain_startup pos startupAll
  refine chain_pre ?_ preAll ?_
  · intro g first armed
    refine armed (.gadget g) ?_ ⟨g, rfl⟩
    rw [preEq, List.getElem?_cons_succ, ← List.head?_eq_getElem?, first]
  apply chain_code codeAll
  refine isChain_cons_cons.mpr ⟨.of_free trivial (.inr rfl) (.label trivial (by simp)), ?_⟩
  refine chain_phase trivial (fun _ _ => rfl) (by simp) rfl (.label trivial (by simp)) revert_All ?_
  refine chain_phase trivial (fun _ _ => rfl) (by simp) rfl (.label trivial (by simp)) postAll ?_
  refine chain_phase trivial (fun _ _ => rfl) (by simp) rfl (.label trivial (by simp)) revertAll ?_
  exact chain_loop

structure Inv (ps : Phases) (loop : Word) (s : Control) : Prop where
  suffix : s.rest <:+ ps.program
  turn : s.turn < loop.toNat
  demands : ∀ x, s.rest.head? = some x → Demands loop ps.Armed x s

/-- What a step does at a line. -/
inductive Moves (ps : Phases) (fault : Bool) (s : Control) (x : Phase × Line)
    (rest : List (Phase × Line))
    : Control → Prop
  | pass (still : fault = false ∨ ¬ x.2.IsGadget)
      (ended : ∀ l, x.2 = .decJnz l → s.count - 1 = 0)
    : Moves ps fault s x rest { s.pass x.2 with rest := rest }
  | jump (here : x = (.code, .jmp .l2))
    : Moves ps fault s x rest { s with rest := Control.goto ps.program .l2 }
  | back (here : x = (.loop, .decJnz .ls)) (left : s.count - 1 ≠ 0)
    : Moves ps fault s x rest
        { s with rest := Control.goto ps.program .ls, count := s.count - 1, turn := s.turn + 1 }
  | fault (faults : fault = true) (here : x.2.IsGadget)
    : Moves ps fault s x rest { s with rest := Control.goto ps.program s.retp }

theorem Phases.Shape.moves (shape : ps.Shape loop) (fault : Bool) (here : s.rest = x :: rest)
    (inside : x ∈ ps.program)
    : Moves ps fault s x rest (s.step ps.program fault) := by
  obtain ⟨p, a⟩ := x
  have known := shape.known inside
  have other {a : Line} (differ : ∀ g, a ≠ .gadget g) : fault = false ∨ ¬ a.IsGadget :=
    .inr (fun isGadget => isGadget.elim differ)
  cases a with
  | prologue | label | setRetp =>
    simp only [Control.step, here]
    exact .pass (other (by simp)) (by simp)
  | jmp l =>
    obtain ⟨rfl, rfl⟩ := known
    simp only [Control.step, here]
    exact .jump rfl
  | decJnz l =>
    obtain ⟨rfl, rfl⟩ := known
    by_cases zero : s.count - 1 = 0
    · simp only [Control.step, here, if_pos zero]
      exact .pass (other (by simp)) (fun _ _ => zero)
    · simp only [Control.step, here, if_neg zero]
      exact .back rfl zero
  | gadget g =>
    cases fault with
    | true =>
      simp only [Control.step, here, if_true]
      exact .fault rfl ⟨g, rfl⟩
    | false =>
      simp only [Control.step, here, Bool.false_eq_true, if_false]
      exact .pass (.inl rfl) (by simp)

theorem Allowed.phase (allowed : Allowed armed (p, .gadget g) turn l)
    : p.index < l.phase.index
      ∧ (p.index < Phase.revert.index → l.phase.index ≤ Phase.revert.index ∨ (turn ≠ 0 ∧ ¬ armed))
      ∧ l ≠ .ls := by
  cases p with
  | startup | code | revert_ | post | revert => cases allowed; simp [Phase.index, Label.phase]
  | pre =>
    rcases allowed with rfl | rfl | ⟨rfl, turned, open_⟩
    · simp [Phase.index, Label.phase]
    · simp [Phase.index, Label.phase]
    · exact ⟨by simp [Phase.index, Label.phase], fun _ => .inr ⟨turned, open_⟩, by simp⟩
  | loop => cases allowed

theorem toNat_pred {count : Word} (pos : count ≠ 0) : (count - 1).toNat + 1 = count.toNat := by
  bv_omega

theorem Demands.label (notStart : l ≠ .ls) (turn : s.turn < loop.toNat)
    (count : s.turn + s.count.toNat = loop.toNat) (pos : s.count ≠ 0)
    : Demands loop armed (l.phase, .label l) s := by
  cases l with
  | ls => exact (notStart rfl).elim
  | l5 => exact turn
  | l1 | l2 | l3 | l4 => exact ⟨count, pos, trivial⟩

theorem Phases.Shape.goto_head (shape : ps.Shape loop) (l : Label)
    : (Control.goto ps.program l).head? = some (l.phase, .label l) := by
  obtain ⟨rest, jumped⟩ := shape.goto_eq l
  rw [jumped]
  rfl

theorem Inv.step (shape : ps.Shape loop) (pos : loop ≠ 0) (inv : Inv ps loop s)
    (fault : Bool)
    : Inv ps loop (s.step ps.program fault) := by
  cases here : s.rest with
  | nil =>
    have still : s.step ps.program fault = s := by simp only [Control.step, here]
    rw [still]
    exact inv
  | cons x rest =>
    have inside : x ∈ ps.program := inv.suffix.subset (by rw [here]; exact mem_cons_self)
    have demands := inv.demands x (by rw [here]; rfl)
    have suffix := inv.suffix
    rw [here] at suffix
    have moves := shape.moves fault here inside
    generalize s.step ps.program fault = s' at moves
    cases moves with
    | pass still _ =>
      have turn : (s.pass x.2).turn = s.turn := by cases x.2 <;> rfl
      refine ⟨(suffix_cons x rest).trans suffix, turn ▸ inv.turn, fun y next => ?_⟩
      obtain ⟨rest', rfl⟩ : ∃ rest', rest = y :: rest' := by
        cases rest with
        | nil => cases next
        | cons z rest' => exact ⟨rest', by cases next; rfl⟩
      have chain := (shape.chain pos).suffix suffix
      exact (isChain_cons_cons.mp chain).1.demands s demands
    | jump eq =>
      subst eq
      refine ⟨Control.goto_suffix _ _, inv.turn, fun y next => ?_⟩
      obtain rfl := Option.some.inj ((shape.goto_head .l2).symm.trans next)
      exact ⟨demands.1, demands.2.1, trivial⟩
    | back eq left =>
      subst eq
      obtain ⟨count, some, stored⟩ := demands
      have less := toNat_pred some
      have rest : (s.count - 1).toNat ≠ 0 := fun zero => left (BitVec.eq_of_toNat_eq zero)
      refine ⟨Control.goto_suffix _ _, by show s.turn + 1 < _; omega, fun y next => ?_⟩
      obtain rfl := Option.some.inj ((shape.goto_head .ls).symm.trans next)
      exact ⟨by show s.turn + 1 + (s.count - 1).toNat = _; omega, left,
        .inr (.inr ⟨stored, Nat.succ_ne_zero _⟩)⟩
    | fault faults isGadget =>
      obtain ⟨p, a⟩ := x
      obtain ⟨g, rfl⟩ := isGadget
      refine ⟨Control.goto_suffix _ _, inv.turn, fun y next => ?_⟩
      obtain rfl := Option.some.inj ((shape.goto_head s.retp).symm.trans next)
      exact .label demands.2.2.phase.2.2 inv.turn demands.1 demands.2.1

theorem Phases.Shape.pairwise (shape : ps.Shape loop) (pos : loop ≠ 0)
    : ps.program.Pairwise (fun x y => x.1.index ≤ y.1.index) := by
  have chain : (ps.program.map (fun x => x.1.index)).IsChain (· ≤ ·) := by
    apply (isChain_map _).mpr
    refine (shape.chain pos).imp (fun x y link => ?_)
    rcases link.near with same | next
    · exact Nat.le_of_eq same.symm
    · exact Nat.le_of_lt (Nat.lt_of_lt_of_eq (Nat.lt_succ_self _) next.symm)
  exact pairwise_map.mp (isChain_iff_pairwise.mp chain)

/-- Code of a later phase is further on. -/
theorem Phases.Shape.length_lt (shape : ps.Shape loop) (pos : loop ≠ 0)
    {x y : Phase × Line} {xs ys : List (Phase × Line)} (left : x :: xs <:+ ps.program)
    (right : y :: ys <:+ ps.program) (later : x.1.index < y.1.index)
    : (y :: ys).length < (x :: xs).length := by
  rcases suffix_or_suffix_of_suffix left right with longer | shorter
  · have ordered := (shape.pairwise pos).sublist right.sublist
    obtain ⟨front, split⟩ := longer
    cases front with
    | nil =>
      cases split
      exact (Nat.lt_irrefl _ later).elim
    | cons z front =>
      cases split
      have before := (pairwise_cons.mp ordered).1 x (by simp)
      exact (Nat.not_lt.mpr before later).elim
  · refine Nat.lt_of_le_of_ne shorter.length_le (fun same => ?_)
    have equal := shorter.eq_of_length same
    cases equal
    exact Nat.lt_irrefl _ later

/-- The index of the phase; the end of the test case comes last. -/
def Control.stage (s : Control) : Nat := (s.phase.map Phase.index).getD 7

theorem Control.stage_of_head (here : s.rest.head? = some x) : s.stage = x.1.index := by
  simp only [Control.stage, Control.phase, here, Option.map_some, Option.getD_some]

/-- A step that stays in the iteration. -/
structure Onward (s s' : Control) : Prop where
  turn : s'.turn = s.turn
  shorter : s'.rest.length < s.rest.length
  rises : s.stage ≤ s'.stage

theorem Inv.onward_goto (shape : ps.Shape loop) (pos : loop ≠ 0) (inv : Inv ps loop s)
    (here : s.rest = x :: rest) (later : x.1.index < l.phase.index)
    : Onward s { s with rest := Control.goto ps.program l }
      ∧ ({ s with rest := Control.goto ps.program l } : Control).stage = l.phase.index := by
  have stage := Control.stage_of_head (s := { s with rest := Control.goto ps.program l })
    (shape.goto_head l)
  have stageHere : s.stage = x.1.index := Control.stage_of_head (by rw [here]; rfl)
  obtain ⟨after, shown⟩ := shape.goto_eq l
  refine ⟨⟨rfl, ?_, ?_⟩, stage⟩
  · show (Control.goto ps.program l).length < _
    rw [shown, here]
    exact shape.length_lt pos (here ▸ inv.suffix)
      (shown ▸ Control.goto_suffix ps.program l) later
  · rw [stageHere, stage]
    exact Nat.le_of_lt later

theorem Phases.Shape.last_lines (shape : ps.Shape loop)
    : ∃ front, front ++ [(.loop, .decJnz .ls), (.loop, .label .l5)] = ps.program := by
  refine ⟨[Phase.startup, .pre, .code, .revert_, .post, .revert].flatMap ps.tagged
    ++ [(.loop, .label .l4), (.loop, .setRetp .l5)], ?_⟩
  simp [Phases.program, Phases.tagged, Phases.lines, shape.loop]

theorem Phases.Shape.last_line (shape : ps.Shape loop) (last : [x] <:+ ps.program)
    : x = (.loop, .label .l5) := by
  obtain ⟨front, split⟩ := last
  obtain ⟨front', split'⟩ := shape.last_lines
  rw [← split', append_cons front'] at split
  have same := (append_inj' split rfl).2
  exact (List.cons.inj same).1

theorem Phases.Shape.line_before (shape : ps.Shape loop) {x y : Phase × Line}
    (last : [x, y] <:+ ps.program)
    : x = (.loop, .decJnz .ls) := by
  obtain ⟨front, split⟩ := last
  obtain ⟨front', split'⟩ := shape.last_lines
  have same := (append_inj' (split.trans split'.symm) rfl).2
  exact (List.cons.inj same).1

/-- Control moves on within an iteration, or back to the start of the loop; a phase before
the undoing of the parameters is not left for one after it, with one exception.
-/
theorem Inv.step_cases (shape : ps.Shape loop) (pos : loop ≠ 0) (inv : Inv ps loop s)
    (fault : Bool) (more : s.rest ≠ [])
    : (Onward s (s.step ps.program fault)
        ∧ (s.stage < Phase.revert.index
          → (s.step ps.program fault).stage ≤ Phase.revert.index
            ∨ (s.turn ≠ 0 ∧ ¬ ps.Armed)))
      ∨ ((s.step ps.program fault).turn = s.turn + 1
        ∧ s.phase = some .loop
        ∧ (s.step ps.program fault).rest = Control.goto ps.program .ls
        ∧ (s.step ps.program fault).retp = .l5) := by
  obtain ⟨x, rest, here⟩ := exists_cons_of_ne_nil more
  have inside : x ∈ ps.program := inv.suffix.subset (by rw [here]; exact mem_cons_self)
  have demands := inv.demands x (by rw [here]; rfl)
  have stage : s.stage = x.1.index := Control.stage_of_head (by rw [here]; rfl)
  have moves := shape.moves fault here inside
  generalize s.step ps.program fault = s' at moves
  cases moves with
  | pass still _ =>
    have turn : (s.pass x.2).turn = s.turn := by cases x.2 <;> rfl
    have chain := (shape.chain pos).suffix (here ▸ inv.suffix)
    refine .inl ?_
    cases rest with
    | nil =>
      obtain rfl := shape.last_line (here ▸ inv.suffix)
      refine ⟨⟨rfl, by rw [here]; exact Nat.lt_succ_self _, ?_⟩, fun low => ?_⟩
      · rw [stage]
        exact Nat.le_succ 6
      · rw [stage] at low
        exact (Nat.not_lt.mpr (Nat.le_succ 5) low).elim
    | cons y rest =>
      have near := (isChain_cons_cons.mp chain).1.near
      have next : ({ s.pass x.2 with rest := y :: rest } : Control).stage = y.1.index :=
        Control.stage_of_head rfl
      refine ⟨⟨turn, by rw [here]; exact Nat.lt_succ_self _, ?_⟩, fun low => .inl ?_⟩
      · rw [stage, next]
        omega
      · rw [next]
        omega
  | jump eq =>
    subst eq
    obtain ⟨onward, next⟩ := inv.onward_goto shape pos here (l := .l2)
      (by simp [Phase.index, Label.phase])
    exact .inl ⟨onward, fun _ => .inl (by rw [next]; simp [Phase.index, Label.phase])⟩
  | back eq left =>
    subst eq
    exact .inr ⟨rfl, by rw [Control.phase, here]; rfl, rfl, demands.2.2⟩
  | fault faults isGadget =>
    obtain ⟨p, a⟩ := x
    obtain ⟨g, rfl⟩ := isGadget
    obtain ⟨later, limit, _⟩ := demands.2.2.phase
    obtain ⟨onward, next⟩ := inv.onward_goto shape pos here later
    refine .inl ⟨onward, fun low => ?_⟩
    rw [next]
    exact limit (stage ▸ low)

theorem Control.stage_of_phase (here : s.phase = some p) : s.stage = p.index := by
  simp only [Control.stage, here, Option.map_some, Option.getD_some]

theorem Control.phase_of_stage (here : s.stage = p.index) : s.phase = some p := by
  rw [Control.stage] at here
  cases found : s.phase with
  | none =>
    rw [found] at here
    cases p <;> cases here
  | some q =>
    rw [found] at here
    have same : q.index = p.index := here
    cases p <;> cases q <;> simp [Phase.index] at same ⊢

end

end FastPokeEmu.Floppy
