import FastPokeEmu.CpuState.PairSoundness

/-! The order of the dumps and the result of the comparison.
-/

namespace FastPokeEmu.CpuState

open List Folds

section

variable {mems mems' : List (List UInt8)} {size i : Nat}

section

variable (perm : mems.Perm mems')

include perm

theorem scanned_perm (j : Nat) : Scanned mems j ↔ Scanned mems' j := by
  rw [Scanned, Scanned, diff_perm (perm.map _), dummyDiff_perm _ (perm.map _)]

theorem wordReported_perm (i : Nat) : WordReported mems i ↔ WordReported mems' i := by
  rw [WordReported, WordReported, diff_perm (perm.map _)]

theorem unprintable_perm (i : Nat) : Unprintable mems i ↔ Unprintable mems' i := by
  rw [Unprintable, Unprintable, wordReported_perm perm, dummyDiff_perm _ (perm.map _)]
  simp only [(perm.map (slice i 4)).mem_iff]

theorem printable_perm : Printable size mems ↔ Printable size mems' := by
  simp only [Printable, scanned_perm perm, unprintable_perm perm]

theorem memReported_perm : MemReported size mems i ↔ MemReported size mems' i := by
  simp only [MemReported, scanned_perm perm, wordReported_perm perm]

end

end

/-- States with the same memories and reported fields give the same report. -/
theorem compareStates_transfer {states states' rest rest' : List Dict} {first first' : Dict}
    {dd : List Difference} (shape : states = first :: rest) (shape' : states' = first' :: rest')
    (hasMem : memKey ∈ first) (hasMem' : memKey ∈ first')
    (sizes : first.mem.length = first'.mem.length)
    (mems : (states.map Dict.mem).Perm (states'.map Dict.mem))
    (fields : ∀ k, FieldReported states k ↔ FieldReported states' k)
    (res : compareStates states = some dd)
    : ∃ dd',
        compareStates states' = some dd' ∧ ∀ pair, pair ∈ pairs dd ↔ pair ∈ pairs dd' := by
  have printable := (exists_compareStates shape hasMem).mp ⟨dd, res⟩
  rw [sizes, printable_perm mems] at printable
  obtain ⟨dd', result'⟩ := (exists_compareStates shape' hasMem').mpr printable
  refine ⟨dd', result', fun pair => ?_⟩
  rw [mem_compareStates shape hasMem res, mem_compareStates shape' hasMem' result']
  simp only [fields, sizes, memReported_perm mems]

section

variable {l l' : List Dump} {kernels : String → Option Kernel}

theorem comparable_perm (perm : l.Perm l') : comparable l = comparable l' := by
  simp only [comparable, diff_perm (perm.map _), diff_perm ((perm.filter _).map _)]

theorem crashed_perm (perm : l.Perm l') : crashed l = crashed l' := by
  simp only [crashed, perm.mem_iff]

theorem same_of_not_diff {α : Type} [DecidableEq α] {dd : List α} (same : diff dd = false)
    {a b : α} (inA : a ∈ dd) (inB : b ∈ dd)
    : a = b := by
  by_contra differ
  rw [diff_iff.mpr ⟨a, inA, b, inB, differ⟩] at same
  cases same

theorem kernelOf_perm (checks : comparable l = true) (perm : l.Perm l')
    : kernelOf kernels l = kernelOf kernels l' := by
  have same : diff (l.map (·.hdr.kernelChecksum)) = false := by
    simp only [comparable, Bool.and_eq_true, Bool.not_eq_true'] at checks
    exact checks.1.1
  cases l with
  | nil => rw [nil_perm.mp perm]
  | cons d rest =>
    cases l' with
    | nil => cases perm_nil.mp perm
    | cons d' rest' =>
      have mem : d' ∈ d :: rest := perm.mem_iff.mpr mem_cons_self
      have checksums : d.hdr.kernelChecksum = d'.hdr.kernelChecksum :=
        same_of_not_diff same (mem_map.mpr ⟨d, mem_cons_self, rfl⟩)
          (mem_map.mpr ⟨d', mem, rfl⟩)
      simp only [kernelOf, List.head?_cons, Option.bind_some, checksums]

theorem sizes_eq (checks : comparable l = true) {d d' : Dump} (mem : d ∈ l) (mem' : d' ∈ l)
    (valid : isValidType d.hdr.type = true) (valid' : isValidType d'.hdr.type = true)
    : d.hdr.memSize = d'.hdr.memSize := by
  have same : diff ((l.filter (fun d => isValidType d.hdr.type)).map (·.hdr.memSize)) = false := by
    simp only [comparable, Bool.and_eq_true, Bool.not_eq_true'] at checks
    exact checks.2
  exact same_of_not_diff same
    (mem_map.mpr ⟨d, mem_filter.mpr ⟨mem, valid⟩, rfl⟩)
    (mem_map.mpr ⟨d', mem_filter.mpr ⟨mem', valid'⟩, rfl⟩)

theorem normMem_perm {emulators emulators' : List Nat} (perm : emulators.Perm emulators')
    : normMem emulators = normMem emulators' := by
  funext kernel memSize data
  simp only [normMem, ignoreAccessed, perm.mem_iff]

theorem normalized_perm {emulators emulators' : List Nat} (perm : emulators.Perm emulators')
    : normalized emulators = normalized emulators' := by
  funext emulator c
  simp only [normalized, normalizeCpu, perm.mem_iff]

theorem validState_perm {emulators emulators' : List Nat} (perm : emulators.Perm emulators')
    : validState emulators = validState emulators' := by
  funext kernel d
  simp only [validState, normMem_perm perm, normalized_perm perm]

end

/-- The comparison of a list gives the same pairs. -/
def SamePairs (kernels : String → Option Kernel) (l' : List Dump) (dd : List Difference) : Prop :=
  ∃ states' dd',
    parsedStates kernels l' = some states'
    ∧ compareStates states' = some dd'
    ∧ ∀ pair, pair ∈ pairs dd ↔ pair ∈ pairs dd'

section

variable {l l' : List Dump} {kernels : String → Option Kernel} {dd : List Difference}

theorem compared_valid (valid : ∀ d ∈ l, isValidType d.hdr.type = true)
    (checks : comparable l = true) (perm : l.Perm l') {states : List Dict}
    (parsed : parsedStates kernels l = some states) (res : compareStates states = some dd)
    : SamePairs kernels l' dd := by
  have valid' : ∀ d ∈ l', isValidType d.hdr.type = true :=
    fun d mem => valid d (perm.mem_iff.mpr mem)
  rw [parsedStates_valid kernels valid, validState_perm (perm.map _),
    kernelOf_perm checks perm] at parsed
  have facts {s : Dict} (mem : s ∈ states)
      : ∃ d ∈ l, s.mem.length = d.hdr.memSize ∧ memKey ∈ s := by
    obtain ⟨d, inside, made⟩ := (mem_of_mapM parsed).mp mem
    exact ⟨d, inside, (validState_some made).2⟩
  obtain ⟨states', parsed', states_perm⟩ := mapM_perm perm parsed
  cases states with
  | nil => cases res
  | cons first rest =>
    cases states' with
    | nil => cases perm_nil.mp states_perm
    | cons first' rest' =>
      obtain ⟨d, inside, length, hasMem⟩ := facts mem_cons_self
      obtain ⟨d', inside', length', hasMem'⟩ := facts (states_perm.mem_iff.mpr mem_cons_self)
      have sizes := sizes_eq checks inside inside' (valid d inside) (valid d' inside')
      have fields (k : Path)
          : FieldReported (first :: rest) k ↔ FieldReported (first' :: rest') k := by
        simp only [FieldReported, states_perm.mem_iff,
          diff_perm (states_perm.map (comparedValue k))]
      obtain ⟨dd', result', same⟩ := compareStates_transfer rfl rfl hasMem hasMem'
        (length.trans (sizes.trans length'.symm)) (states_perm.map _) fields res
      refine ⟨_, dd', ?_, result', same⟩
      rw [parsedStates_valid kernels valid']
      exact parsed'

end

/-- Fields reported if there is a failed run: those whose values are not all fillers. -/
def BorrowReported (l : List Dump) (k : Path) : Prop :=
  k ≠ emulatorKey
    ∧ k ≠ memKey
    ∧ ((k ∈ headerKeys
          ∧ ∃ d ∈ l,
              isValidType d.hdr.type = true
              ∧ Dict.get (insertAll ∅ d.hdr.entries) k ≠ some filler)
        ∨ (k ∉ headerKeys
            ∧ k.head? = some (.cpu 0)
            ∧ ∀ d ∈ l, isValidType d.hdr.type = true → k ∈ cpuKeys d.cpus))

section

variable {l : List Dump} {emulators : List Nat} {kernel : Option Kernel} {size : Nat} {c : Cpu}
variable {others : List Cpu} {states : List Dict}

/-- The first CPU has the keys that start with its number. -/
theorem mem_cpuKeys_first {k : Path} (mem : k ∈ cpuKeys (c :: others))
    : k ∈ cpuKeys [c] ↔ k.head? = some (.cpu 0) := by
  simp only [cpuKeys, mem_map, mem_cpusEntries] at mem ⊢
  obtain ⟨e, ⟨i, c', found, inside⟩, rfl⟩ := mem
  have head := (Cpu.mem_entries inside).1
  constructor
  · rintro ⟨e', ⟨i', c'', found', inside'⟩, same⟩
    obtain ⟨below, _⟩ := List.getElem?_eq_some_iff.mp found'
    have zero : i' = 0 := by simpa using below
    rw [← same, (Cpu.mem_entries inside').1, zero]
  · intro first
    rw [head] at first
    cases first
    exact ⟨e, ⟨0, c', by simpa using found, inside⟩, rfl⟩

theorem fieldReported_borrowed {lender failed : Dump}
    (related : List.Forall₂ (StateOf emulators kernel size c) l states) (inside : lender ∈ l)
    (valid : isValidType lender.hdr.type = true) (cpus : lender.cpus = c :: others)
    (inside' : failed ∈ l) (invalid : isValidType failed.hdr.type = false) (k : Path)
    : FieldReported states k ↔ BorrowReported l k := by
  have flipped := related.flip
  obtain ⟨s₀, member₀, state₀⟩ := forall₂_left related inside'
  have fill₀ : comparedValue k s₀ = filler := by
    simp [comparedValue, state₀.type, invalid]
  have differs : diff (states.map (comparedValue k)) = true
      ↔ ∃ s ∈ states, comparedValue k s ≠ filler := by
    rw [diff_iff]
    constructor
    · rintro ⟨a, inA, b, inB, differ⟩
      obtain ⟨s, mem, rfl⟩ := mem_map.mp inA
      obtain ⟨s', mem', rfl⟩ := mem_map.mp inB
      by_cases fill : comparedValue k s = filler
      · exact ⟨s', mem', fun fill' => differ (fill.trans fill'.symm)⟩
      · exact ⟨s, mem, fill⟩
    · rintro ⟨s, mem, differ⟩
      exact ⟨_, mem_map.mpr ⟨s, mem, rfl⟩, _, mem_map.mpr ⟨s₀, member₀, rfl⟩, fill₀ ▸ differ⟩
  rw [FieldReported, BorrowReported, differs]
  refine and_congr_right fun _ => and_congr_right fun notMem => ?_
  by_cases header : k ∈ headerKeys
  · have everywhere : ∀ s ∈ states, k ∈ s := by
      intro s mem
      obtain ⟨d, _, state⟩ := forall₂_left flipped mem
      exact (state.keys k).mpr (Or.inr (Or.inl header))
    simp only [header, not_true_eq_false, false_and, or_false, true_and]
    constructor
    · rintro ⟨_, s, mem, differ⟩
      obtain ⟨d, inside, state⟩ := forall₂_left flipped mem
      have ok : isValidType d.hdr.type = true := by
        by_contra bad
        exact differ (by simp [comparedValue, state.type, bad])
      refine ⟨d, inside, ok, fun fill => differ ?_⟩
      simp [comparedValue, state.type, ok, state.header ok k header, fill]
    · rintro ⟨d, inside, ok, differ⟩
      obtain ⟨s, mem, state⟩ := forall₂_left related inside
      refine ⟨everywhere, s, mem, fun fill => differ ?_⟩
      obtain ⟨v, value⟩ := mem_iff_get.mp (everywhere s mem)
      simp only [comparedValue, state.type, ok, if_true, value, Option.getD_some] at fill
      rw [← state.header ok k header, value, fill]
  · have ofCpu {d : Dump} {s : Dict} (state : StateOf emulators kernel size c d s)
        : k ∈ s ↔ k ∈ cpuKeys (if isValidType d.hdr.type then d.cpus else [c]) := by
      rw [state.keys k]
      simp [notMem, header]
    simp only [header, false_and, false_or, not_false_eq_true, true_and]
    constructor
    · rintro ⟨everywhere, _⟩
      have shared : ∀ d ∈ l, isValidType d.hdr.type = true → k ∈ cpuKeys d.cpus := by
        intro d inside ok
        obtain ⟨s, mem, state⟩ := forall₂_left related inside
        simpa [ok] using (ofCpu state).mp (everywhere s mem)
      have borrowed : k ∈ cpuKeys [c] := by
        simpa [invalid] using (ofCpu state₀).mp (everywhere s₀ member₀)
      exact ⟨(mem_cpuKeys_first (cpus ▸ shared lender inside valid)).mp borrowed, shared⟩
    · rintro ⟨first, shared⟩
      have borrowed : k ∈ cpuKeys [c] :=
        (mem_cpuKeys_first (cpus ▸ shared lender inside valid)).mpr first
      have everywhere : ∀ s ∈ states, k ∈ s := by
        intro s mem
        obtain ⟨d, inside, state⟩ := forall₂_left flipped mem
        rw [ofCpu state]
        split
        next ok =>
          exact shared d inside ok
        · exact borrowed
      obtain ⟨s, mem, state⟩ := forall₂_left related inside
      obtain ⟨n, value⟩ := state.cpu k (everywhere s mem) notMem header
      refine ⟨everywhere, s, mem, ?_⟩
      simp [comparedValue, state.type, valid, value, filler]

theorem borrowReported_perm {l' : List Dump} (perm : l.Perm l') (k : Path)
    : BorrowReported l k ↔ BorrowReported l' k := by
  simp only [BorrowReported, perm.mem_iff]

theorem mapM_mem (related : List.Forall₂ (StateOf emulators kernel size c) l states)
    : l.mapM (fun d => normMem emulators kernel size (rawMem size d))
      = some (states.map Dict.mem) := by
  refine mapM_of_forall₂ (forall₂_map_right_iff.mpr ?_)
  exact related.imp (fun d s state => state.mem)

end

section

variable {l l' : List Dump} {kernels : String → Option Kernel} {dd : List Difference}

theorem exists_lender (some_ : ∃ d ∈ l, isValidType d.hdr.type = true)
    : ∃ t lender,
        (load l).dumps.find? (fun d => isValidType d.hdr.type) = some (loadDump t lender)
        ∧ l[t]? = some lender
        ∧ isValidType lender.hdr.type = true := by
  obtain ⟨lender, found⟩ := Option.isSome_iff_exists.mp (List.find?_isSome.mpr some_)
  obtain ⟨t, loaded, place⟩ := find_load found
  have valid := List.find?_some found
  exact ⟨t, lender, loaded, place, valid⟩

theorem compared_borrowed (some_ : ∃ d ∈ l, isValidType d.hdr.type = true)
    (failed : ∃ d ∈ l, isValidType d.hdr.type = false)
    (lending : ∀ d ∈ l, isValidType d.hdr.type = true → d.cpus ≠ [])
    (checks : comparable l = true) (perm : l.Perm l') {states : List Dict}
    (parsed : parsedStates kernels l = some states) (res : compareStates states = some dd)
    : SamePairs kernels l' dd := by
  obtain ⟨t, lender, found, place, valid⟩ := exists_lender some_
  have mem := mem_of_getElem? place
  obtain ⟨c, others, cpus⟩ := exists_cons_of_ne_nil (lending lender mem valid)
  have some' : ∃ d ∈ l', isValidType d.hdr.type = true := by
    simpa only [perm.mem_iff] using some_
  obtain ⟨t', lender', found', place', valid'⟩ := exists_lender some'
  have mem' := mem_of_getElem? place'
  obtain ⟨c', others', cpus'⟩ :=
    exists_cons_of_ne_nil (lending lender' (perm.mem_iff.mpr mem') valid')
  obtain ⟨bad, badMember, invalid⟩ := failed
  have size : lender'.hdr.memSize = lender.hdr.memSize :=
    sizes_eq checks (perm.mem_iff.mpr mem') mem valid' valid
  have sizes : ∀ d ∈ l, isValidType d.hdr.type = true → d.hdr.memSize = lender.hdr.memSize :=
    fun d inside ok => sizes_eq checks inside mem ok valid
  have sizes' : ∀ d ∈ l', isValidType d.hdr.type = true → d.hdr.memSize = lender'.hdr.memSize :=
    fun d inside ok => (sizes d (perm.mem_iff.mpr inside) ok).trans size.symm
  have related := (parsedStates_completed kernels found place cpus sizes).2 states parsed
  -- Memories are normalised alike in both orders.
  have mems := mapM_mem related
  rw [normMem_perm (perm.map _), kernelOf_perm checks perm] at mems
  obtain ⟨mems', made', memsPerm⟩ := mapM_perm perm mems
  obtain ⟨exists', related'⟩ := parsedStates_completed kernels found' place' cpus' sizes'
  rw [size] at exists' related'
  obtain ⟨states', parsed'⟩ := exists'.mpr (exists_mapM.mp ⟨mems', made'⟩)
  have related' := related' states' parsed'
  have same : mems' = states'.map Dict.mem := Option.some.inj (made'.symm.trans (mapM_mem related'))
  rw [same] at memsPerm
  have fields (k : Path) : FieldReported states k ↔ FieldReported states' k := by
    rw [fieldReported_borrowed related mem valid cpus badMember invalid,
      fieldReported_borrowed related' mem' valid' cpus' (perm.mem_iff.mp badMember) invalid]
    exact borrowReported_perm perm k
  cases related with
  | nil => cases mem
  | cons state _ =>
    cases related' with
    | nil => cases mem'
    | cons state' _ =>
      obtain ⟨dd', result', reports⟩ := compareStates_transfer rfl rfl
        ((state.keys memKey).mpr (Or.inl rfl)) ((state'.keys memKey).mpr (Or.inl rfl))
        ((normMem_length state.mem).trans (normMem_length state'.mem).symm) memsPerm fields
        res
      exact ⟨_, dd', parsed', result', reports⟩

/-- There is no failed run, or all valid dumps have a CPU to lend. -/
def CpusToLend (l : List Dump) : Prop :=
  (∀ d ∈ l, isValidType d.hdr.type = true) ∨ ∀ d ∈ l, isValidType d.hdr.type = true → d.cpus ≠ []

/-- A valid dump without CPUs cannot lend one. -/
theorem parsedStates_none {t : Nat} {lender : Dump}
    (found : (load l).dumps.find? (fun d => isValidType d.hdr.type) = some (loadDump t lender))
    (cpus : lender.cpus = []) (failed : ∃ d ∈ l, isValidType d.hdr.type = false)
    : parsedStates kernels l = none := by
  obtain ⟨d, mem, invalid⟩ := failed
  obtain ⟨i, here⟩ := mem_iff_getElem?.mp mem
  obtain ⟨below, rfl⟩ := List.getElem?_eq_some_iff.mp here
  have broken : (load l).dumps.mapM (borrow (loadDump t lender)) = none := by
    by_contra some_
    obtain ⟨dumps, res⟩ := Option.ne_none_iff_exists'.mp some_
    obtain ⟨d', made⟩ := exists_mapM.mp ⟨dumps, res⟩ (loadDump i l[i])
      (mem_mapIdx.mpr ⟨i, below, rfl⟩)
    simp [borrow, invalid, loadDump, cpus] at made
  unfold parsedStates borrowCpus
  rw [found]
  simp [broken]

section

variable (io : ∀ d ∈ l, d.hdr.type &&& ioTestcase = 0)

include io

theorem diffDumps_none (broken : parsedStates kernels l = none) : diffDumps kernels l = none := by
  by_contra some_
  obtain ⟨⟨status, dd⟩, res⟩ := Option.ne_none_iff_exists'.mp some_
  obtain ⟨_, _, _, states, parsed, _⟩ := (diffDumps_some io).mp res
  rw [broken] at parsed
  cases parsed

/-- If the CPUs are there, every order gives what one order gives. -/
theorem diffDumps_perm (some_ : ∃ d ∈ l, isValidType d.hdr.type = true)
    (lending : CpusToLend l) (perm : l.Perm l') {status : Nat}
    (res : diffDumps kernels l = some (status, dd))
    : ∃ dd',
        diffDumps kernels l' = some (status, dd') ∧ ∀ pair, pair ∈ pairs dd ↔ pair ∈ pairs dd' := by
  have io' : ∀ d ∈ l', d.hdr.type &&& ioTestcase = 0 :=
    fun d mem => io d (perm.mem_iff.mpr mem)
  obtain ⟨checks, names, rfl, states, parsed, compared⟩ := (diffDumps_some io).mp res
  obtain ⟨states', dd', parsed', compared', same⟩ : SamePairs kernels l' dd := by
    by_cases failed : ∃ d ∈ l, isValidType d.hdr.type = false
    · rcases lending with valid | lending
      · obtain ⟨d, mem, invalid⟩ := failed
        rw [valid d mem] at invalid
        cases invalid
      · exact compared_borrowed some_ failed lending checks perm parsed compared
    · have valid : ∀ d ∈ l, isValidType d.hdr.type = true := by simpa using failed
      exact compared_valid valid checks perm parsed compared
  refine ⟨dd', (diffDumps_some io').mpr ⟨comparable_perm perm ▸ checks, ?_, crashed_perm perm,
    states', parsed', compared'⟩, same⟩
  exact fun d mem => names d (perm.mem_iff.mpr mem)

/-- With a valid dump without CPUs in front, the dump of a failed run stops the comparison. -/
theorem diffDumps_front {poor failed : Dump} (inside : poor ∈ l)
    (valid : isValidType poor.hdr.type = true) (without : poor.cpus = []) (member : failed ∈ l)
    (invalid : isValidType failed.hdr.type = false)
    : ∃ l', l.Perm l' ∧ diffDumps kernels l' = none := by
  obtain ⟨before, after, split⟩ := append_of_mem inside
  have front : l.Perm (poor :: (before ++ after)) := split ▸ perm_middle
  refine ⟨_, front, ?_⟩
  have found
      : (load (poor :: (before ++ after))).dumps.find? (fun d => isValidType d.hdr.type)
        = some (loadDump 0 poor) := by
    have ok : isValidType (loadDump 0 poor).hdr.type = true := valid
    simp only [load, mapIdx_cons, List.find?_cons]
    rw [ok]
  exact diffDumps_none (fun d mem => io d (front.mem_iff.mpr mem))
    (parsedStates_none found without ⟨failed, front.mem_iff.mp member, invalid⟩)

end

/-- For dumps of one test case, one of which is valid: every order returns one status and the
same set of differences exactly if there is no failed run or every valid dump has a CPU, all
emulators are known, and the bytes after the last whole word do not differ. Witness: a borrowed
CPU only matters through its keys, since dumps of failed runs make every shared field differ.
-/
theorem diffDumps_order_iff {getSymbol : Kernel} {size : Nat}
    (runs : SameTestcase kernels getSymbol size l)
    (io : ∀ d ∈ l, d.hdr.type &&& ioTestcase = 0)
    (some_ : ∃ d ∈ l, isValidType d.hdr.type = true)
    : (∃ status dd,
        ∀ l', l.Perm l'
          → ∃ dd',
              diffDumps kernels l' = some (status, dd')
              ∧ ∀ pair, pair ∈ pairs dd ↔ pair ∈ pairs dd')
      ↔ CpusToLend l
        ∧ (∀ d ∈ l, ∃ name, emulatorName d.hdr.emulator = some name)
        ∧ (CutWord size → LastBytesAgree size l) := by
  obtain ⟨lender, found⟩ := Option.isSome_iff_exists.mp (List.find?_isSome.mpr some_)
  have lends (lending : CpusToLend l) : Lends l lender := by
    have valid := List.find?_some found
    exact ⟨found, lending.imp_right fun rich => rich lender (mem_of_find?_eq_some found) valid⟩
  constructor
  · intro same
    obtain ⟨status, dd, returns⟩ := same
    obtain ⟨dd', returned, _⟩ := returns l (.refl l)
    obtain ⟨_, names, _, states, parsed, compared⟩ := (diffDumps_some io).mp returned
    have lending : CpusToLend l := by
      by_contra neither
      unfold CpusToLend at neither
      push Not at neither
      obtain ⟨⟨failed, member, invalid⟩, poor, inside, valid, without⟩ := neither
      obtain ⟨l', perm, broken⟩ : ∃ l', l.Perm l' ∧ diffDumps kernels l' = none :=
        diffDumps_front io inside valid without member (Bool.not_eq_true _ ▸ invalid)
      obtain ⟨_, impossible, _⟩ := returns l' perm
      rw [broken] at impossible
      cases impossible
    exact ⟨lending, names,
      (exists_compared runs (lends lending)).mp ⟨dd', states, parsed, compared⟩⟩
  · intro condition
    obtain ⟨lending, names, agree⟩ := condition
    obtain ⟨_, dd, _, _, returned⟩ := runs.returns (lends lending) io names agree
    exact ⟨crashed l, dd, fun l' perm => diffDumps_perm io some_ lending perm returned⟩

end

def smallHeader (type cpusno : Nat) : Header :=
  { magic := 0xefef, version := 1, emulator := 2, kernelVersion := "1", kernelChecksum := "k",
    testcaseChecksum := "t", type, cpusno, memSize := 108, ioports := (0, 0) }

def richDump : Dump where
  hdr := smallHeader 1 1
  cpus := [default]
  mem := replicate 108 0
  cpus_valid := fun _ => rfl
  cpus_invalid := fun invalid => absurd invalid (by decide)
  mem_invalid := fun invalid => absurd invalid (by decide)

def poorDump : Dump where
  hdr := smallHeader 1 0
  cpus := []
  mem := replicate 108 0
  cpus_valid := fun _ => rfl
  cpus_invalid := fun _ => rfl
  mem_invalid := fun invalid => absurd invalid (by decide)

def failedDump : Dump where
  hdr := smallHeader 0x11 1
  cpus := []
  mem := []
  cpus_valid := fun valid => absurd valid (by decide)
  cpus_invalid := fun _ => rfl
  mem_invalid := fun _ => rfl

theorem small_sameTestcase
    : SameTestcase filledKernels filledKernel 108 [richDump, poorDump, failedDump] where
  checksums := by decide
  kernel := rfl
  image := filled_image (Nat.le_refl 108)
  memory d mem valid := by
    simp only [mem_cons, not_mem_nil, or_false] at mem
    rcases mem with rfl | rfl | rfl
    · exact ⟨rfl, length_replicate⟩
    · exact ⟨rfl, length_replicate⟩
    · cases valid

theorem small_io : ∀ d ∈ [richDump, poorDump, failedDump], d.hdr.type &&& ioTestcase = 0 := by
  decide

theorem small_names
    : ∀ d ∈ [richDump, poorDump, failedDump], ∃ name, emulatorName d.hdr.emulator = some name := by
  intro d mem
  have known : d.hdr.emulator = 2 := by
    simp only [mem_cons, not_mem_nil, or_false] at mem
    rcases mem with rfl | rfl | rfl <;> rfl
  exact ⟨"VBOX", by rw [known]; rfl⟩

theorem small_whole : ¬ CutWord 108 := fun cut => absurd cut.1 (by decide)

/-- With the CPU in the first valid dump the comparison returns; if the dump without CPUs comes
first, it fails instead.
-/
theorem order_decides_failure
    : SameTestcase filledKernels filledKernel 108 [richDump, poorDump, failedDump]
      ∧ (∃ r, diffDumps filledKernels [richDump, poorDump, failedDump] = some r)
      ∧ diffDumps filledKernels [poorDump, richDump, failedDump] = none := by
  refine ⟨small_sameTestcase, ?_, ?_⟩
  · have lends : Lends [richDump, poorDump, failedDump] richDump := ⟨rfl, .inr (by simp [richDump])⟩
    obtain ⟨_, dd, _, _, returned⟩ := small_sameTestcase.returns lends small_io small_names
      (fun cut => absurd cut small_whole)
    exact ⟨_, returned⟩
  · have found : (load [poorDump, richDump, failedDump]).dumps.find?
        (fun d => isValidType d.hdr.type) = some (loadDump 0 poorDump) := rfl
    exact diffDumps_none (by decide)
      (parsedStates_none found rfl ⟨failedDump, by simp, by decide⟩)

/-- A valid dump and one of a failed run. -/
theorem diffDumps_order_iff_small
    : ∃ status dd,
        ∀ l', [richDump, failedDump].Perm l'
          → ∃ dd',
              diffDumps filledKernels l' = some (status, dd')
              ∧ ∀ pair, pair ∈ pairs dd ↔ pair ∈ pairs dd' := by
  have both : ∀ d ∈ [richDump, failedDump], d ∈ [richDump, poorDump, failedDump] := by simp
  have runs : SameTestcase filledKernels filledKernel 108 [richDump, failedDump] :=
    ⟨by decide, rfl, small_sameTestcase.image,
      fun d mem => small_sameTestcase.memory d (both d mem)⟩
  refine (diffDumps_order_iff runs (by decide) ⟨richDump, mem_cons_self, by decide⟩).mpr
    ⟨.inr fun d mem valid => ?_, fun d mem => small_names d (both d mem),
      fun cut => absurd cut small_whole⟩
  rcases mem_cons.mp mem with rfl | later
  · simp [richDump]
  · cases mem_singleton.mp later
    cases valid

end FastPokeEmu.CpuState
