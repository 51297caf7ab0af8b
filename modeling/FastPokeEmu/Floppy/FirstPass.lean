import FastPokeEmu.Floppy.Handlers

/-! The first pass over the operands: inputs and their gadgets. -/

namespace FastPokeEmu.Floppy

open List

/-- An input with its words and what was emitted for it. -/
structure Load where
  item : Item
  index : Nat
  src : Nat
  bak : Nat
  fresh : Bool
  tb : Tables
  emitted : Emitted

structure Load.Valid (inst : Inst) (fin : GenState) (load : Load) : Prop where
  src : fin.feistelR[load.index]? = some load.src
  bak : fin.feistelIn[load.index]? = some load.bak
  emits
    : loadEmitted inst load.tb load.src load.bak load.fresh load.item = some load.emitted
  fits : load.tb.Fits inst fin
  declared
    : match load.item with
      | .reg name _ => name ∈ load.tb.inToReg.regs
      | .block _ => load.tb.inToReg.mems ≠ []

theorem Load.Valid.mono {inst : Inst} {fin fin' : GenState} {load : Load}
    (valid : load.Valid inst fin) (grows : fin.Extends fin')
    : load.Valid inst fin' :=
  ⟨getElem?_of_shorter grows.r valid.src, getElem?_of_shorter grows.ins valid.bak,
    valid.emits, valid.fits.mono grows, valid.declared⟩

/-- The state of the first pass after some items. -/
structure Loaded (inst : Inst) (st : GenState) (items : List Item) (loads : List Load)
    : Prop where
  indices : loads.map (fun load => (load.index, load.item)) = indexed 0 items
  valid : ∀ load ∈ loads, load.Valid inst st
  keys
    : ∀ k, k ∈ st.lRestore ↔ ∃ load ∈ loads, load.fresh = true ∧ inst.key load.item = k
  covered : ∀ load ∈ loads, inst.key load.item ∈ st.lRestore
  countR : st.countR = totalWidth items
  ins : st.inToReg.Tidy inst
  outs : st.outToReg.Tidy inst

namespace Loaded

variable {inst : Inst} {st st' : GenState} {items : List Item} {loads : List Load}

theorem grown (loaded : Loaded inst st items loads) (grows : st.Grown st')
    : Loaded inst st' items loads where
  indices := loaded.indices
  valid load mem := (loaded.valid load mem).mono grows.toExtends
  keys k := by rw [grows.lRestore]; exact loaded.keys k
  covered load mem := by rw [grows.lRestore]; exact loaded.covered load mem
  countR := grows.countR.trans loaded.countR
  ins := by rw [grows.inToReg]; exact loaded.ins
  outs := by rw [grows.outToReg]; exact loaded.outs

theorem fits (loaded : Loaded inst st items loads) : st.tables.Fits inst st :=
  ⟨loaded.ins, loaded.outs, prefix_rfl, prefix_rfl⟩

/-- One more item. -/
theorem snoc (loaded : Loaded inst st items loads) (load : Load)
    (index : load.index = st.countR) (valid : load.Valid inst st)
    (fresh : load.fresh = true ↔ inst.key load.item ∉ st.lRestore)
    : Loaded inst
        { st with
          countR := st.countR + load.item.width
          lRestore :=
            if load.fresh then st.lRestore ++ [inst.key load.item] else st.lRestore }
        (items ++ [load.item]) (loads ++ [load]) where
  indices := by
    simp [loaded.indices, indexed_append, indexed, index, loaded.countR]
  valid := Folds.forall_mem_snoc
    (fun other old => (loaded.valid other old).mono (.same rfl rfl rfl rfl rfl))
    (valid.mono (.same rfl rfl rfl rfl rfl))
  keys k := by
    cases isFresh : load.fresh with
    | false => simp [loaded.keys k, isFresh]
    | true =>
      simp only [if_true, mem_append, mem_singleton, loaded.keys k]
      constructor
      · rintro (⟨other, old, rest⟩ | rfl)
        · exact ⟨other, Or.inl old, rest⟩
        · exact ⟨load, Or.inr rfl, isFresh, rfl⟩
      · rintro ⟨other, old | rfl, freshOther, key⟩
        · exact Or.inl ⟨other, old, freshOther, key⟩
        · exact Or.inr key.symm
  covered := by
    refine Folds.forall_mem_snoc (fun other old => ?_) ?_
    · have here := loaded.covered other old
      split
      · exact mem_append_left _ here
      · exact here
    · cases isFresh : load.fresh with
      | true => simp
      | false => simpa [isFresh] using fresh
  countR := by simp [loaded.countR, totalWidth]
  ins := loaded.ins
  outs := loaded.outs

end Loaded

section

variable {inst : Inst} {isInit : Bool} {op : Operand} {st st' : GenState}
  {items : List Item} {loads : List Load} {e : Emitted}

section

variable (loaded : Loaded inst st items loads)

include loaded

theorem Loaded.listing (regs : List RegName)
    : Loaded inst { st with inToReg := { st.inToReg with regs := regs } } items loads :=
  { loaded with valid := fun load mem =>
      (loaded.valid load mem).mono (.same rfl rfl rfl rfl rfl) }

theorem Loaded.known
    : Loaded inst { st with
        inToReg := { st.inToReg with mems := getMemOp inst 0 :: st.inToReg.mems } } items loads :=
  { loaded with
    valid := fun load mem => (loaded.valid load mem).mono (.same rfl rfl rfl rfl rfl)
    ins := by
      intro p mem
      rcases mem_cons.mp mem with rfl | old
      · rfl
      · exact loaded.ins p old }

/-- A register operand in the first pass. -/
theorem handleRegRead_loaded {name : Option RegName} (kind : op.kind = .reg name)
    (res : handleRegRead inst isInit op name st = some (e, st'))
    : ∃ new,
        Loaded inst st' (items ++ inst.loadItems op) (loads ++ new)
        ∧ e = collect (new.map Load.emitted)
        ∧ st.Extends st'
        ∧ st'.countL = st.countL
        ∧ st'.inToReg.mems = st.inToReg.mems := by
  cases handleRegRead_cases res with
  | skipped regs none =>
    exact ⟨[], by simpa [none kind] using loaded.listing regs, rfl, .same rfl rfl rfl rfl rfl,
      rfl, rfl⟩
  | @handled reg st1 src bak _ item pos added atSrc atBak emits =>
    have grown : GenState.Grown _ st1 := whenInit_grown addInput_grown added
    have loaded1 := (loaded.listing _).grown grown
    have step := loaded1.snoc ⟨.reg reg op.len, st1.countR, src, bak,
      decide (.reg reg ∉ st1.lRestore), st1.tables, e⟩ rfl
      ⟨atSrc, atBak, emits, loaded1.fits, by simp [GenState.tables, grown.inToReg]⟩
      (by simp [Inst.key])
    exact ⟨_, by simpa [item kind, Item.width, Inst.key] using step, by simp,
      ⟨grown.r, grown.rBak, grown.l, grown.ins, grown.outs⟩, grown.countL,
      by simp [grown.inToReg]⟩

/-- One block of the memory operand in the first pass. -/
theorem handleMemReadBlock_loaded (known : st.inToReg.mems ≠ []) {idx val rBak bak : Nat}
    (res : handleMemReadBlock inst isInit idx val rBak bak st = some (e, st'))
    : ∃ load : Load,
        Loaded inst st' (items ++ [.block idx]) (loads ++ [load])
        ∧ e = load.emitted
        ∧ st.Extends st'
        ∧ st'.countL = st.countL
        ∧ st'.inToReg = st.inToReg := by
  obtain ⟨st1, src, opBak, added, atSrc, atBak, emits, rfl⟩ := handleMemReadBlock_cases res
  have grown : st.Grown st1 := whenInit_grown addBlock_grown added
  have loaded1 := loaded.grown grown
  have step := loaded1.snoc ⟨.block idx, st1.countR, src, opBak,
    decide (.mem (inst.text idx) ∉ st1.lRestore), st1.tables, e⟩ rfl
    ⟨atSrc, atBak, emits, loaded1.fits, by simpa [GenState.tables, grown.inToReg] using known⟩
    (by simp [Inst.key])
  exact ⟨_, by simpa [Item.width, Inst.key] using step, rfl,
    ⟨grown.r, grown.rBak, grown.l, grown.ins, grown.outs⟩, grown.countL, grown.inToReg⟩

/-- A memory operand in the first pass. -/
theorem handleMemRead_loaded {n : Nat} (kind : op.kind = .mem n)
    (res : handleMemRead inst isInit op st = some (e, st'))
    : (∃ new,
        Loaded inst st' (items ++ inst.loadItems op) (loads ++ new)
        ∧ e = collect (new.map Load.emitted)
        ∧ st.Extends st'
        ∧ st'.countL = st.countL)
      ∧ (inst.popCategory = false → st'.inToReg.mems ≠ []) := by
  have parts := handleMemRead_cases
    (P := fun k e1 st1 => ∃ new : List Load,
      Loaded inst st1 (items ++ (List.range k).map .block) (loads ++ new)
      ∧ e1 = collect (new.map Load.emitted)
      ∧ st.Extends st1
      ∧ st1.countL = st.countL
      ∧ st1.inToReg.mems ≠ [])
    res ?_ ?_
  · rcases parts with ⟨rfl, rfl, pop⟩ | ⟨rfl, rfl, none⟩
      | ⟨_, ⟨new, final, emitted, extended, countL, mems⟩, item⟩
    · exact ⟨⟨[], by simpa [Inst.loadItems, kind, pop] using loaded, rfl, .refl _, rfl⟩,
        by simp [pop]⟩
    · refine ⟨⟨[], ?_, rfl, .same rfl rfl rfl rfl rfl, rfl⟩, fun _ => by simp⟩
      simpa [none n kind] using loaded.known
    · exact ⟨⟨new, item n kind ▸ final, emitted, extended, countL⟩, fun _ => mems⟩
  · intro st1 allocates
    have grown := allocates.grown
    exact ⟨[], by simpa using loaded.known.grown grown, rfl,
      ⟨grown.r, grown.rBak, grown.l, grown.ins, grown.outs⟩, grown.countL,
      by simp [grown.inToReg]⟩
  · rintro k e1 st1 e2 st2 _ ⟨new, sofar, emitted, extended, countL, mems⟩ block
    obtain ⟨load, step, here, further, same, table⟩ := handleMemReadBlock_loaded sofar mems block
    refine ⟨new ++ [load], by simpa [range_succ] using step, ?_, extended.trans further,
      same.trans countL, by simpa [table] using mems⟩
    simp [collect_append, ← emitted, here]

theorem collect_loads_feistel : (collect (loads.map Load.emitted)).feistel = [] := by
  simp only [collect, flatMap_map, flatMap_eq_nil_iff]
  exact fun load mem => (loadEmitted_cases (loaded.valid load mem).emits).2.2

end

/-- The first pass emits the gadgets of its items, in order. -/
theorem firstPass_loaded (start : Loaded inst st [] [])
    (res
      : handleOp (handleMemRead inst isInit) (handleRegRead inst isInit) inst.operands st
        = some (e, st'))
    : ∃ loads,
        Loaded inst st' inst.loads loads
        ∧ e = collect (loads.map Load.emitted)
        ∧ st.Extends st'
        ∧ st'.countL = st.countL
        ∧ (inst.popCategory = false
          → (∃ op ∈ inst.arranged, ∃ n, op.kind = .mem n)
          → st'.inToReg.mems ≠ []) := by
  refine handleOp_induction (P := fun done e st' => ∃ loads,
      Loaded inst st' (done.flatMap inst.loadItems) loads
      ∧ e = collect (loads.map Load.emitted)
      ∧ st.Extends st'
      ∧ st'.countL = st.countL
      ∧ (inst.popCategory = false
        → (∃ op ∈ done, ∃ n, op.kind = .mem n)
        → st'.inToReg.mems ≠ [])) ⟨[], start, rfl, .refl _, rfl, by simp⟩ ?_ ?_ res
  · rintro done op name e1 st1 e2 st2 _ kind ⟨loads, sofar, emitted, extended, countL, known⟩
      handled
    obtain ⟨new, step, here, further, same, mems⟩ := handleRegRead_loaded sofar kind handled
    refine ⟨loads ++ new, by simpa using step, ?_, extended.trans further, same.trans countL, ?_⟩
    · -- inputs record nothing, so the place of EFLAGS does not matter
      have quiet : e1.feistel = [] := by rw [emitted]; exact collect_loads_feistel sofar
      have order : e1.appendEflags e2 = e1.append e2 := by
        have quiet2 : e2.feistel = [] := by
          rw [here]
          have all := collect_loads_feistel step
          rw [map_append, collect_append] at all
          exact (append_eq_nil_iff.mp all).2
        simp [Emitted.appendEflags, Emitted.append, quiet, quiet2]
      simp only [order, ite_self]
      simp [collect_append, ← emitted, here]
    · rintro notPop ⟨other, mem, n, isMem⟩
      rcases mem_append.mp mem with old | new
      · rw [mems]
        exact known notPop ⟨other, old, n, isMem⟩
      · rw [mem_singleton.mp new, kind] at isMem
        cases isMem
  · rintro done op n e1 st1 e2 st2 _ kind ⟨loads, sofar, emitted, extended, countL, _⟩ handled
    obtain ⟨⟨new, step, here, further, same⟩, mems⟩ := handleMemRead_loaded sofar kind handled
    refine ⟨loads ++ new, by simpa using step, ?_, extended.trans further,
      same.trans countL, fun notPop _ => mems notPop⟩
    simp [collect_append, ← emitted, here]

end

end FastPokeEmu.Floppy
