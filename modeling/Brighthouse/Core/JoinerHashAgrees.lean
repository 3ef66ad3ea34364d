import Brighthouse.Core.JoinerHashCount

/-!
# When counting a hash join agrees with executing it

Counting and executing agree on the pairs.  They agree on the outer rows of the matched side
if no uniform packrow has a partner, and on the outer rows of the traversed side if no
two rows of a pass share a key without partner.
-/

set_option autoImplicit false

namespace Brighthouse.Core

open Library Library.EquiJoin Library.BitCount JoinerHash JoinerHashTable List Bool Prod

variable {i n turns : Nat} {f : Filter}

section
variable {τ μ : Type} (j : JoinerHash τ μ)

def JoinerHash.openKeys (rows : List (JoinerRow τ)) : List Bytes :=
  (keysOf rows).filter fun key => !j.matchedRows.any fun m => decide (m.key = some key)

/-- The bits of matched rows when tuples are only counted. -/
def JoinerHash.countOpen (rows : List (JoinerRow τ)) (n : Nat) : Bool :=
  match j.matchedRows[n]? with
  | none => false
  | some m => !(decide (n ∈ (plainRows j.matched 0).map snd) && rows.any (j.partner · m))

def CountOpenShown (s : JoinState τ μ) (rows : List (JoinerRow τ)) : Prop :=
  s.outerFilter.Shows j.matchedRows.length (j.countOpen rows) ∧ s.outerFilter.delayedBlock ≤ -1 ∧
    s.outerFilter.delayedBlockSet = -1

variable {j} {s s' : JoinState τ μ} {chunk rows : List (JoinerRow τ)}
  {insertions : List (Bytes × Nat)}

variable (noOther : j.otherCond = [])

include noOther in
theorem partner_eq (row : JoinerRow τ) (m : JoinerRow μ) :
    j.partner row m = (row.key.isSome && decide (m.key = row.key)) := by
  rw [partner, noOther]
  exact and_true _

theorem length_keysOf_filter (rows : List (JoinerRow τ)) (q : Bytes → Bool) :
    ((keysOf rows).filter q).length =
      (rows.filter fun row => row.key.any q).length := by
  induction rows with
  | nil => rfl
  | cons row rows ih =>
    rw [keysOf] at ih ⊢
    cases isKey : row.key with
    | none =>
      rw [filterMap_cons_none isKey, filter_cons_of_neg (by simp [isKey]), ih]
    | some key =>
      rw [filterMap_cons_some isKey]
      by_cases chosen : q key = true
      · rw [filter_cons_of_pos chosen, filter_cons_of_pos (by simp [isKey, chosen]),
          length_cons, length_cons, ih]
      · rw [filter_cons_of_neg chosen, filter_cons_of_neg (by simp [isKey, chosen]),
          ih]

section
variable (keys : (insertions.map fst).Perm (keysOf chunk))
include noOther keys

theorem copiesOf_eq (m : JoinerRow μ) :
    copiesOf insertions m = (chunk.filter (j.partner · m)).length := by
  rw [copiesOf]
  cases isKey : m.key with
  | none =>
    refine (length_eq_zero_iff.mpr (filter_eq_nil_iff.mpr fun row _ => ?_)).symm
    rw [partner_eq noOther, isKey]
    cases row.key <;> simp
  | some key =>
    have byKeys : (rowsOf insertions key).length =
        ((insertions.map fst).filter fun k => decide (k = key)).length := by
      rw [rowsOf, length_map, filter_map, length_map]
      rfl
    dsimp only
    rw [byKeys, (keys.filter _).length_eq, length_keysOf_filter]
    refine congrArg length (filter_congr fun row _ => ?_)
    rw [partner_eq noOther, isKey]
    cases row.key with
    | none => rfl
    | some key' => simp [eq_comm]

theorem length_joined (ms : List (JoinerRow μ)) :
    (joined j.partner chunk ms).length = (ms.map (copiesOf insertions)).sum := by
  rw [joined, length_flatMap]
  refine congrArg sum (map_congr_left fun m _ => ?_)
  rw [length_map, copiesOf_eq noOther keys]

end

/-! ## Open rows of the matched side -/

variable {packrows : List (JoinPackrow τ μ)} {m : JoinerRow μ}

theorem mem_plainRows (mem : (m, n) ∈ plainRows packrows i) :
    (m, n) ∈ (packrows.flatMap JoinPackrow.rows).zipIdx i := by
  induction packrows generalizing i with
  | nil => cases mem
  | cons p packrows ih =>
    rw [flatMap_cons, zipIdx_append]
    refine mem_append.mpr ((mem_append.mp mem).imp ?_ ih)
    split
    · exact fun none' => absurd none' not_mem_nil
    · exact id

theorem mem_plainRows_iff (isRow : j.matchedRows[n]? = some m) :
    (m, n) ∈ plainRows j.matched 0 ↔ n ∈ (plainRows j.matched 0).map snd := by
  constructor
  · exact fun mem => mem_map.mpr ⟨(m, n), mem, rfl⟩
  · intro mem
    obtain ⟨⟨m', n'⟩, isPlain, rfl⟩ := mem_map.mp mem
    have isRow' := mem_zipIdx_iff_getElem?.mp (mem_plainRows isPlain)
    rw [show m = m' from Option.some.inj (isRow.symm.trans isRow')]
    exact isPlain

include noOther in
theorem countOpen_append
    (keys : (insertions.map fst).Perm (keysOf chunk)) {matchedRows : List Nat}
    (matched : ∀ n, n ∈ matchedRows ↔
      ∃ m, (m, n) ∈ plainRows j.matched 0 ∧ copiesOf insertions m ≠ 0) (n : Nat) :
    (j.countOpen rows n && decide (n ∉ matchedRows)) = j.countOpen (rows ++ chunk) n := by
  rw [countOpen, countOpen]
  cases isRow : j.matchedRows[n]? with
  | none => rfl
  | some m =>
    have here : n ∈ matchedRows ↔
        n ∈ (plainRows j.matched 0).map snd ∧ chunk.any (j.partner · m) = true := by
      rw [matched n, ← mem_plainRows_iff isRow]
      have some' : copiesOf insertions m ≠ 0 ↔ chunk.any (j.partner · m) = true := by
        rw [copiesOf_eq noOther keys, Ne, length_eq_zero_iff, filter_eq_nil_iff, any_eq_true]
        push Not
        rfl
      constructor
      · rintro ⟨m', mem, copies⟩
        have same := (mem_plainRows_iff isRow).mpr (mem_map.mpr ⟨(m', n), mem, rfl⟩)
        have isRow' := mem_zipIdx_iff_getElem?.mp (mem_plainRows mem)
        have equal : m' = m := Option.some.inj (isRow'.symm.trans isRow)
        rw [equal] at copies
        exact ⟨same, some'.mp copies⟩
      · rintro ⟨mem, found⟩
        exact ⟨m, mem, some'.mpr found⟩
    have closed : decide (n ∉ matchedRows) =
        !(decide (n ∈ (plainRows j.matched 0).map snd) && chunk.any (j.partner · m)) := by
      rw [decide_not, decide_eq_decide.mpr here, decide_and, decide_eq_true]
    dsimp only
    rw [closed, any_append, ← Bool.not_or, Bool.and_or_distrib_left]

/-! ## Open keys of the traversed side -/

variable {noRows : Nat} {sized : WellSized noRows}

theorem CountLoaded.length_open (loaded : CountLoaded j sized s chunk insertions)
    {tableRows : List Nat}
    (table : ∀ r < noRows, ∀ key, s.jhash.view r = some key →
      (r ∈ tableRows ↔ ∃ m ∈ j.matchedRows, m.key = some key)) :
    ones (fun r => decide (r ∈ insertions.map snd) && decide (r ∉ tableRows)) noRows =
      (j.openKeys chunk).dedup.length := by
  obtain ⟨rows, isRows⟩ : ∃ rows, (range noRows).filter (fun r =>
    decide (r ∈ insertions.map snd) && decide (r ∉ tableRows)) = rows := ⟨_, rfl⟩
  have isRow : ∀ {r}, r ∈ rows ↔ r < noRows ∧ ∃ key, s.jhash.view r = some key ∧
      key ∈ keysOf chunk ∧ ¬∃ m ∈ j.matchedRows, m.key = some key := by
    intro r
    rw [← isRows, mem_filter, mem_range, and_eq_true, decide_eq_true_iff, decide_eq_true_iff]
    constructor
    · rintro ⟨small, mem, notReset⟩
      obtain ⟨⟨key, r'⟩, isIn, rfl⟩ := mem_map.mp mem
      have here := (loaded.counted.rows key r' isIn).2
      rw [table r' small key here] at notReset
      exact ⟨small, key, here, loaded.keys.mem_iff.mp (mem_map.mpr ⟨(key, r'), isIn, rfl⟩),
        notReset⟩
    · rintro ⟨small, key, here, mem, alone⟩
      obtain ⟨⟨key', r'⟩, isIn, rfl⟩ := mem_map.mp (loaded.keys.mem_iff.mpr mem)
      obtain ⟨small', here'⟩ := loaded.counted.rows key' r' isIn
      have same := loaded.counted.row_unique small' small here' here
      refine ⟨small, mem_map.mpr ⟨(key', r'), isIn, same⟩, ?_⟩
      rw [table r small key' here]
      exact alone
  have perm : (rows.map s.jhash.view).Perm ((j.openKeys chunk).dedup.map some) := by
    refine (perm_ext_iff_of_nodup ?_ ?_).mpr fun view => ?_
    · have nodup : rows.Nodup := by
        rw [← isRows]
        exact nodup_range.filter _
      refine Nodup.map_on (fun r mem r' mem' same => ?_) nodup
      obtain ⟨small, key, here, -⟩ := isRow.mp mem
      obtain ⟨small', -⟩ := isRow.mp mem'
      exact loaded.counted.row_unique small small' here (same.symm.trans here)
    · exact (nodup_dedup _).map (Option.some_injective _)
    · rw [mem_map, mem_map]
      constructor
      · rintro ⟨r, mem, rfl⟩
        obtain ⟨-, key, here, isKey, alone⟩ := isRow.mp mem
        refine ⟨key, mem_dedup.mpr (mem_filter.mpr ⟨isKey, ?_⟩), here.symm⟩
        rw [not_eq_true', any_eq_false]
        exact fun m isIn same => alone ⟨m, isIn, of_decide_eq_true same⟩
      · rintro ⟨key, isOpen, rfl⟩
        obtain ⟨isKey, alone⟩ := mem_filter.mp (mem_dedup.mp isOpen)
        obtain ⟨⟨key', r⟩, isIn, rfl⟩ := mem_map.mp (loaded.keys.mem_iff.mpr isKey)
        obtain ⟨small, here⟩ := loaded.counted.rows key' r isIn
        refine ⟨r, isRow.mpr ⟨small, key', here, isKey, ?_⟩, here⟩
        rintro ⟨m, mem, same⟩
        rw [not_eq_true', any_eq_false] at alone
        exact alone m mem (decide_eq_true same)
  have lengths := perm.length_eq
  rw [length_map, length_map] at lengths
  rw [ones_eq_length, isRows, lengths]

include noOther in
theorem length_unmatchedLeft (rows : List (JoinerRow τ)) :
    (unmatchedLeft j.partner rows j.matchedRows).length =
      (rows.filter (·.key.isNone)).length + (j.openKeys rows).length := by
  rw [openKeys, length_keysOf_filter, unmatchedLeft]
  induction rows with
  | nil => rfl
  | cons row rows ih =>
    cases isKey : row.key with
    | none =>
      have alone : (!j.matchedRows.any (j.partner row)) = true := by
        rw [not_eq_true', any_eq_false]
        intro m _
        rw [partner_null isKey]
        exact false_ne_true
      rw [filter_cons, if_pos alone, filter_cons_of_pos (by simp [isKey]),
        filter_cons_of_neg (by simp [isKey]), length_cons, length_cons]
      omega
    | some key =>
      have same : j.matchedRows.any (j.partner row) =
          j.matchedRows.any fun m => decide (m.key = some key) := by
        refine congrArg (any j.matchedRows) (funext fun m => ?_)
        rw [partner_eq noOther, isKey]
        rfl
      rw [filter_cons, filter_cons_of_neg (by simp [isKey]), filter_cons, same,
        isKey, Option.any_some]
      split
      · rw [length_cons, length_cons]
        omega
      · exact ih

/-! ## A pass -/

theorem CountLoaded.seen (loaded : CountLoaded j sized s chunk insertions) :
    CountSeen s insertions := by
  rintro ⟨key, r⟩ mem
  have isKey := loaded.keys.mem_iff.mp (mem_map.mpr ⟨(key, r), mem, rfl⟩)
  obtain ⟨row, isRow, same⟩ := mem_filterMap.mp isKey
  exact ⟨row, loaded.put row isRow, same⟩

theorem CountLoaded.matchDim (loaded : CountLoaded j sized s chunk insertions)
    (only : j.OnlyCounts) (limit : s.jhash.rowsLimit < noRows) :
    ∃ s', j.matchDim s = some (if j.outerNullsOnly then 0
          else (joined j.partner chunk j.matchedRows).length, s') ∧
      s'.jhash = s.jhash ∧
      (j.watch = .traversed → ∃ bits, s'.outerFilter.Shows noRows bits ∧
        ones bits noRows = (j.openKeys chunk).dedup.length) ∧
      (j.watch = .matched → CountOpenShown j s rows → CountOpenShown j s' (rows ++ chunk)) := by
  obtain ⟨s₁, tableRows, matchedRows, found, scanned⟩ := countPackrows_scanned only
    j.matched 0 0 s ⟨loaded.counted, loaded.within.trans_lt limit⟩ loaded.seen
  rw [JoinerHash.matchDim, found]
  rw [zero_add, ← length_joined only.noOther loaded.keys]
  refine ⟨_, rfl, ?_, ?_, ?_⟩
  · split <;> exact scanned.applied.jhash
  · intro watched
    rw [watchMatched_of_traversed watched]
    exact ⟨_, scanned.applied.traversed watched (loaded.filter watched) scanned.inside,
      loaded.length_open scanned.table⟩
  · rintro watched ⟨shown, noReset, noSet⟩
    have isMatched : j.watchMatched = true := decide_eq_true watched
    rw [isMatched]
    have inside : ∀ n ∈ matchedRows, n < j.matchedRows.length := by
      intro n mem
      obtain ⟨m, isPlain, -⟩ := (scanned.matched n).mp mem
      have isRow := mem_zipIdx_iff_getElem?.mp (mem_plainRows isPlain)
      exact (List.getElem?_eq_some_iff.mp isRow).1
    have pending := scanned.applied.matched watched (shown.pending noReset noSet) inside
    obtain ⟨shown', noReset', noSet'⟩ := pending.commit
    exact ⟨shown'.congr fun n _ => countOpen_append only.noOther loaded.keys scanned.matched n,
      noReset', noSet'⟩

variable (j) in
/-- The outer tuples counted for the rows of one pass: null keys, and one for each open key. -/
def JoinerHash.countOuter (part : List (JoinerRow τ)) : Nat :=
  (part.filter (·.key.isNone)).length + (j.openKeys part).dedup.length

variable (j) in
/-- The state between passes after the rows given were counted. -/
structure CountProgress (h : JoinerHashTable) (rows : List (JoinerRow τ)) (joinedTuples : Nat)
    (s : JoinState τ μ) : Prop where
  setup : s.jhash.setup = h.setup
  calm : s.jhash.tooManyConflicts = false
  joinedTuples : joinedTuples =
    if j.outerNullsOnly then 0 else (joined j.partner rows j.matchedRows).length
  traversed : j.watch = .traversed → ∃ bits, s.outerFilter.Shows h.noRows bits
  matched : j.watch = .matched → CountOpenShown j s rows

variable {h : JoinerHashTable} {joinedTuples outer : Nat}

theorem CountProgress.loaded (progress : CountProgress j h rows joinedTuples s)
    (fresh : Fresh h) (counting : h.forCountOnly = true) :
    CountLoaded j fresh.sized (j.startPass s) [] [] := by
  obtain ⟨sized, limit, -, -⟩ := fresh
  have setup := progress.setup
  have size := noRows_of_setup setup
  have counted : Counted sized s.jhash.clearAll [] := by
    have fresh : Fresh s.jhash.clearAll :=
      ⟨by rw [← size] at sized; exact sized,
        by rw [← size, ← rowsLimit_of_setup setup] at limit; exact limit,
        rfl, fun _ => rfl⟩
    have counted := fresh.counted ((forCountOnly_of_setup setup).trans counting)
    have same : s.jhash.clearAll.noRows = h.noRows := size
    revert counted
    generalize fresh.sized = sized'
    revert sized'
    rw [same]
    exact fun _ counted => counted
  rw [startPass_eq]
  refine ⟨counted, Nat.zero_le _, Perm.refl _, fun row mem => absurd mem
    not_mem_nil, fun watched => ?_, progress.calm⟩
  obtain ⟨bits, shown⟩ := progress.traversed watched
  rw [if_watchTraversed watched]
  exact shown.resetAll.congr fun r _ => rfl

theorem seenKeys_start (s : JoinState τ μ) : SeenKeys (j.startPass s) [] [] := by
  rw [startPass_eq]
  exact ⟨rfl, fun key => iff_of_false not_mem_nil fun ⟨_, mem⟩ => not_mem_nil mem⟩

theorem countPass_append (limit : Nat) (rest : List (JoinerRow τ)) :
    ∀ seen, (countPass limit seen rest).1 ++ (countPass limit seen rest).2 = rest := by
  induction rest with
  | nil => exact fun _ => rfl
  | cons row rest ih =>
    intro seen
    rw [countPass]
    cases row.key with
    | none => exact congrArg (row :: ·) (ih seen)
    | some key =>
      dsimp only
      split
      · rfl
      · exact congrArg (row :: ·) (ih _)

variable {limit : Nat}

theorem countPass_ne_nil (positive : 0 < limit) (row : JoinerRow τ) (rest : List (JoinerRow τ)) :
    (countPass limit [] (row :: rest)).1 ≠ [] := by
  rw [countPass]
  cases row.key with
  | none => exact cons_ne_nil _ _
  | some key =>
    dsimp only
    rw [if_neg (by rw [length_nil]; omega)]
    exact cons_ne_nil _ _

theorem CountProgress.pass (progress : CountProgress j h rows joinedTuples s)
    (fresh : Fresh h) (table : h.forCountOnly = true) (only : j.OnlyCounts)
    (rest : List (JoinerRow τ)) (outer : Nat) :
    ∃ t found s₁ added s₂, j.traverseDim rest s outer = some t ∧ t.tooManyConflicts = false ∧
      t.rest = (countPass h.rowsLimit [] rest).2 ∧ j.matchDim t.state = some (found, s₁) ∧
      (if j.watchTraversed then j.submitOuterTraversed s₁ else (0, s₁)) = (added, s₂) ∧
      t.outerTuples + added = outer + (if j.watch = .traversed then
        j.countOuter (countPass h.rowsLimit [] rest).1 else 0) ∧
      CountProgress j h (rows ++ (countPass h.rowsLimit [] rest).1) (joinedTuples + found) s₂ := by
  have start := startPass_eq (j := j) s
  have setup₀ : (j.startPass s).jhash.setup = h.setup := by
    rw [start]
    exact progress.setup
  have limit₀ := rowsLimit_of_setup setup₀
  obtain ⟨t, insertions, traversal, done, last, loaded, traversed⟩ := traverseRows_counts rest
    (j.startPass s) outer [] [] [] (progress.loaded fresh table) (seenKeys_start s)
    (by rw [limit₀]; exact fresh.limit)
  rw [limit₀] at last loaded traversed
  obtain ⟨part, isPart⟩ : ∃ part, (countPass h.rowsLimit [] rest).1 = part := ⟨_, rfl⟩
  rw [isPart] at loaded traversed ⊢
  have setup : t.state.jhash.setup = h.setup := traversed.setup.trans setup₀
  obtain ⟨s₁, found, sameTable, openTraversed, openMatched⟩ :=
    @CountLoaded.matchDim _ _ j t.state part rows insertions _ _ loaded only
      (by rw [rowsLimit_of_setup setup]; exact fresh.limit)
  have setup₁ : s₁.jhash.setup = h.setup := by rw [sameTable, setup]
  have calm₁ : s₁.jhash.tooManyConflicts = false := by rw [sameTable, loaded.calm]
  have joinedCount := joinedTuples_append progress.joinedTuples part
  by_cases watched : j.watch = .traversed
  · obtain ⟨bits, shown, count⟩ := openTraversed watched
    refine ⟨t, _, s₁, ones bits h.noRows, s₁, traversal, done, last, found, ?_, ?_, setup₁, calm₁,
      joinedCount, fun _ => ⟨bits, shown⟩, fun isMatched => ?_⟩
    · rw [if_watchTraversed watched, submitOuterTraversed, only.counting, if_pos rfl,
        shown.noOnes_eq]
    · rw [if_pos watched, traversed.outerTuples, nullTuples, if_watchTraversed watched,
        length_map, count, countOuter, add_assoc]
    · rw [watched] at isMatched
      cases isMatched
  · have unwatched : j.watchTraversed = false := decide_eq_false watched
    refine ⟨t, _, s₁, 0, s₁, traversal, done, last, found, ?_, ?_, setup₁, calm₁, joinedCount,
      fun isTraversed => absurd isTraversed watched, fun isMatched => openMatched isMatched ?_⟩
    · rw [unwatched, if_neg Bool.false_ne_true]
    · rw [if_neg watched, traversed.outerTuples, nullTuples, unwatched]
      rfl
    · have sameFilter := traversed.filter watched
      rw [start, unwatched] at sameFilter
      rw [CountOpenShown, sameFilter]
      exact progress.matched isMatched

variable (j) in
/-- The outer tuples counted for the rows of all passes. -/
def JoinerHash.countedOuter (limit turns : Nat) (rest : List (JoinerRow τ)) : Nat :=
  if j.watch = .traversed then ((countPasses limit turns rest).map j.countOuter).sum else 0

variable (j) in
/-- The state between passes, with the outer tuples of the passes to come. -/
structure CountKept (h : JoinerHashTable) (turns : Nat) (rest rows : List (JoinerRow τ))
    (joinedTuples outer : Nat) (s : JoinState τ μ) : Prop where
  progress : CountProgress j h rows joinedTuples s
  sum : outer + j.countedOuter h.rowsLimit turns rest =
    j.countedOuter h.rowsLimit j.traversed.length j.traversed

theorem CountKept.pass {rest : List (JoinerRow τ)}
    (kept : CountKept j h (turns + 1) rest rows joinedTuples outer s)
    (fresh : Fresh h) (positive : 0 < h.rowsLimit) (table : h.forCountOnly = true)
    (only : j.OnlyCounts) (more : rest ≠ []) :
    PassKeeps j False rest outer s fun part rest' found =>
      CountKept j h turns rest' (rows ++ part) (joinedTuples + found) := by
  obtain ⟨t, found, s₁, added, s₂, traversal, done, last, scan, submitted, count, progress⟩ :=
    kept.progress.pass fresh table only rest outer
  obtain ⟨row, rows', rfl⟩ := exists_cons_of_ne_nil more
  refine ⟨t, traversal, Or.inr ⟨done, _, found, s₁, added, s₂, ?_,
    countPass_ne_nil positive row rows', scan, submitted, progress, ?_⟩⟩
  · rw [last, countPass_append]
  · rw [← kept.sum, count, last, countedOuter, countedOuter, countPasses]
    split
    · rw [map_cons, sum_cons, add_assoc]
    · rfl

/-! ## Agreement -/

variable (j) in
def JoinerHash.counted (limit : Nat) : Nat :=
  (if j.outerNullsOnly then 0 else (joined j.partner j.traversed j.matchedRows).length) +
    match j.watch with
    | .neither => 0
    | .traversed => ((countPasses limit j.traversed.length j.traversed).map j.countOuter).sum
    | .matched => ones (j.countOpen j.traversed) j.matchedRows.length

variable (j) in
def JoinerHash.CountAgrees (limit : Nat) : Prop :=
  match j.watch with
  | .neither => True
  | .traversed =>
    ∀ part ∈ countPasses limit j.traversed.length j.traversed, (j.openKeys part).Nodup
  | .matched =>
    ∀ p ∈ j.matched, p.uniform = true → ∀ row ∈ j.traversed, row.key ≠ some p.constantKey

include noOther

theorem countOuter_le (part : List (JoinerRow τ)) :
    j.countOuter part ≤ (unmatchedLeft j.partner part j.matchedRows).length := by
  rw [length_unmatchedLeft noOther]
  exact Nat.add_le_add_left (dedup_sublist _).length_le _

theorem countOuter_eq_iff (part : List (JoinerRow τ)) :
    j.countOuter part = (unmatchedLeft j.partner part j.matchedRows).length ↔
      (j.openKeys part).Nodup := by
  rw [length_unmatchedLeft noOther, countOuter, add_left_cancel_iff]
  constructor
  · intro same
    exact dedup_eq_self.mp ((dedup_sublist _).eq_of_length same)
  · intro nodup
    rw [nodup.dedup]

theorem sum_countOuter (parts : List (List (JoinerRow τ))) :
    (parts.map j.countOuter).sum ≤ (unmatchedLeft j.partner parts.flatten j.matchedRows).length ∧
      ((parts.map j.countOuter).sum =
          (unmatchedLeft j.partner parts.flatten j.matchedRows).length ↔
        ∀ part ∈ parts, (j.openKeys part).Nodup) := by
  induction parts with
  | nil => exact ⟨le_refl _, iff_of_true rfl fun _ mem => absurd mem not_mem_nil⟩
  | cons part parts ih =>
    have here := countOuter_le noOther part
    rw [flatten_cons, unmatchedLeft_append, length_append, map_cons,
      sum_cons, forall_mem_cons, ← ih.2, ← countOuter_eq_iff noOther part]
    refine ⟨add_le_add here ih.1, ?_⟩
    omega

omit noOther

theorem countPasses_flatten (positive : 0 < limit) (turns : Nat) :
    ∀ rest : List (JoinerRow τ), rest.length ≤ turns →
      (countPasses limit turns rest).flatten = rest := by
  induction turns with
  | zero =>
    intro rest short
    obtain rfl := eq_nil_of_length_eq_zero (Nat.eq_zero_of_le_zero short)
    rfl
  | succ turns ih =>
    intro rest short
    cases rest with
    | nil => rfl
    | cons row rest =>
      have split := countPass_append limit (row :: rest) []
      have shorter : (countPass limit [] (row :: rest)).2.length ≤ turns := by
        have length := congrArg length split
        rw [length_append] at length
        have some' := length_pos_iff.mpr (countPass_ne_nil positive row rest)
        omega
      rw [countPasses]
      rw [flatten_cons, ih _ shorter, split]

/-! ### Uniform packrows -/

theorem plain_or_uniform (isRow : (m, n) ∈ (packrows.flatMap JoinPackrow.rows).zipIdx i) :
    (m, n) ∈ plainRows packrows i ∨ ∃ p ∈ packrows, p.uniform = true ∧ m ∈ p.rows := by
  induction packrows generalizing i with
  | nil => cases isRow
  | cons p packrows ih =>
    rw [flatMap_cons, zipIdx_append] at isRow
    rw [plainRows]
    rcases mem_append.mp isRow with here | later
    · by_cases uniform : p.uniform = true
      · exact Or.inr ⟨p, mem_cons_self, uniform, fst_mem_of_mem_zipIdx here⟩
      · rw [if_neg uniform]
        exact Or.inl (mem_append_left _ here)
    · refine (ih later).imp (mem_append_right _) ?_
      rintro ⟨p', mem, facts⟩
      exact ⟨p', mem_cons_of_mem _ mem, facts⟩

variable {p : JoinPackrow τ μ}

theorem uniform_not_plain (mem : p ∈ packrows) (uniform : p.uniform = true) (isIn : m ∈ p.rows)
    (i : Nat) : ∃ n, (m, n) ∈ (packrows.flatMap JoinPackrow.rows).zipIdx i ∧
      n ∉ (plainRows packrows i).map snd := by
  have bounds : ∀ {packrows : List (JoinPackrow τ μ)} {i n : Nat},
      n ∈ (plainRows packrows i).map snd → i ≤ n := by
    intro packrows i n isPlain
    obtain ⟨⟨m, n⟩, isRow, rfl⟩ := mem_map.mp isPlain
    exact le_snd_of_mem_zipIdx (mem_plainRows isRow)
  induction packrows generalizing i with
  | nil => cases mem
  | cons p' packrows ih =>
    rw [flatMap_cons, zipIdx_append, plainRows]
    rcases mem_cons.mp mem with rfl | later
    · obtain ⟨k, isRow⟩ := mem_iff_getElem?.mp isIn
      refine ⟨i + k, mem_append_left _ ?_, ?_⟩
      · rw [mk_mem_zipIdx_iff_le_and_getElem?_sub]
        exact ⟨Nat.le_add_right i k, by rw [Nat.add_sub_cancel_left]; exact isRow⟩
      · rw [if_pos uniform]
        intro isPlain
        have low := bounds isPlain
        have short := (List.getElem?_eq_some_iff.mp isRow).1
        omega
    · obtain ⟨n, isRow, notPlain⟩ := ih later (i + p'.rows.length)
      refine ⟨n, mem_append_right _ isRow, fun isPlain => ?_⟩
      have low := le_snd_of_mem_zipIdx isRow
      rw [map_append] at isPlain
      rcases mem_append.mp isPlain with here | there
      · split at here
        · cases here
        · obtain ⟨⟨m', n'⟩, isIn', rfl⟩ := mem_map.mp here
          have high := snd_lt_of_mem_zipIdx isIn'
          omega
      · exact notPlain there

include noOther

theorem partner_uniform (uniform : p.uniform = true)
    (isIn : m ∈ p.rows) (row : JoinerRow τ) :
    j.partner row m = true ↔ row.key = some p.constantKey := by
  have isKey := p.constant_sound (fun column mem => all_eq_true.mp uniform column mem) m
    isIn
  rw [partner_eq noOther, isKey, and_eq_true, decide_eq_true_iff]
  constructor
  · rintro ⟨-, same⟩
    exact same.symm
  · intro same
    rw [same]
    exact ⟨rfl, rfl⟩

/-- Rows of uniform packrows stay open, so they are counted right if they have no partner. -/
theorem ones_countOpen_iff (rows : List (JoinerRow τ)) :
    ones (j.countOpen rows) j.matchedRows.length =
        (unmatchedRight j.partner rows j.matchedRows).length ↔
      ∀ p ∈ j.matched, p.uniform = true → ∀ row ∈ rows, row.key ≠ some p.constantKey := by
  have sub : ∀ n < j.matchedRows.length, j.isOpen rows n = true → j.countOpen rows n = true := by
    intro n lt isOpen
    rw [JoinerHash.isOpen, getElem?_eq_getElem lt] at isOpen
    rw [countOpen, getElem?_eq_getElem lt]
    dsimp only at isOpen ⊢
    rw [not_eq_true'] at isOpen
    rw [isOpen, Bool.and_false]
    rfl
  rw [← ones_isOpen, eq_comm, ones_eq_ones_iff sub]
  constructor
  · intro same p mem uniform row isRow isKey
    obtain ⟨m, isIn⟩ := exists_mem_of_ne_nil _ p.rows_ne
    obtain ⟨n, isRow', notPlain⟩ := uniform_not_plain mem uniform isIn 0
    have here : j.matchedRows[n]? = some m := mem_zipIdx_iff_getElem?.mp isRow'
    have equal := same n (List.getElem?_eq_some_iff.mp here).1
    have found : rows.any (j.partner · m) = true :=
      any_eq_true.mpr ⟨row, isRow, (partner_uniform noOther uniform isIn row).mpr isKey⟩
    rw [isOpen, countOpen, here] at equal
    dsimp only at equal
    rw [found, decide_eq_false notPlain] at equal
    cases equal
  · intro alone n lt
    have here := getElem?_eq_getElem lt
    rw [isOpen, countOpen, here]
    dsimp only
    rcases plain_or_uniform (mem_zipIdx_iff_getElem?.mpr here) with plain |
      ⟨p, mem, uniform, isIn⟩
    · rw [decide_eq_true ((mem_plainRows_iff here).mp plain), Bool.true_and]
    · have none' : rows.any (j.partner · j.matchedRows[n]) = false := by
        rw [any_eq_false]
        intro row isRow isPartner
        exact alone p mem uniform row isRow
          ((partner_uniform noOther uniform isIn row).mp isPartner)
      rw [none', Bool.and_false]

omit noOther

theorem counted_eq_iff (noOther : j.otherCond = []) (positive : 0 < limit) :
    j.counted limit = j.expected.length ↔ j.CountAgrees limit := by
  have pairs : (j.kept ((joined j.partner j.traversed j.matchedRows).map
      pairOf)).length = if j.outerNullsOnly then 0
        else (joined j.partner j.traversed j.matchedRows).length := by
    rw [kept]
    split
    · rfl
    · rw [length_map]
  rw [counted, expected, length_append, pairs, add_left_cancel_iff, outerTuples, CountAgrees]
  cases j.watch with
  | neither => exact iff_of_true rfl trivial
  | traversed =>
    have parts := sum_countOuter noOther (countPasses limit j.traversed.length j.traversed)
    rw [countPasses_flatten positive _ _ (le_refl _)] at parts
    rw [length_map]
    exact parts.2
  | matched =>
    rw [length_map]
    exact ones_countOpen_iff noOther j.traversed

/-! ## The whole join -/

theorem countProgress_start (made : j.initOuter h = .ok f) (calm : h.tooManyConflicts = false) :
    CountProgress j h [] 0 ⟨h, [], fun _ => none, f, []⟩ := by
  have start := progress_start made
  refine ⟨rfl, calm, start.joinedTuples, start.traversed, fun watched => ?_⟩
  obtain ⟨shown, delayed⟩ := start.matched watched
  refine ⟨shown.congr fun n _ => ?_, delayed⟩
  rw [isOpen, countOpen]
  cases j.matchedRows[n]? with
  | none => rfl
  | some m => exact congrArg (!·) (Bool.and_false _).symm

theorem CountKept.finish (kept : CountKept j h turns [] j.traversed joinedTuples outer s)
    (counting : j.tips.countOnly = true) :
    joinedTuples + (outer + (j.outerPart s).1) = j.counted h.rowsLimit := by
  have sum := kept.sum
  rw [countedOuter, countedOuter] at sum
  rw [kept.progress.joinedTuples, counted, add_left_cancel_iff, outerPart]
  cases watch : j.watch with
  | neither =>
    rw [watch] at sum
    rw [watchMatched, watch]
    exact sum
  | traversed =>
    rw [watch, countPasses] at sum
    rw [watchMatched, watch]
    exact sum
  | matched =>
    obtain ⟨shown, -⟩ := kept.progress.matched watch
    have isMatched : j.watchMatched = true := decide_eq_true watch
    rw [watch, if_neg (by decide), if_neg (by decide), add_zero] at sum
    rw [sum, zero_add, isMatched, Bool.true_and]
    cases empty : s.outerFilter.isEmpty with
    | true => exact (ones_eq_zero_iff.mpr (shown.isEmpty empty)).symm
    | false =>
      rw [Bool.not_false, if_pos rfl, submitOuterMatched, counting, if_pos rfl, shown.noOnes_eq]

theorem countKept_skipped (made : j.initOuter h = .ok f)
    (calm : h.tooManyConflicts = false) (skipped : j.traversed = [] ∨ j.matchedRows = [])
    (sides : j.watch = .traversed → j.traversed = []) :
    CountKept j h 0 [] j.traversed 0 0 ⟨h, [], fun _ => none, f, []⟩ := by
  have first := countProgress_start made calm
  refine ⟨⟨rfl, calm, (expected_of_nil skipped sides made).joinedTuples, first.traversed,
    fun watched => ?_⟩, ?_⟩
  · obtain ⟨shown, delayed⟩ := first.matched watched
    refine ⟨shown.congr fun n lt => ?_, delayed⟩
    rcases skipped with nothing | noMatched
    · rw [nothing]
    · rw [noMatched] at lt
      exact absurd lt (Nat.not_lt_zero n)
  · rw [countedOuter, countedOuter]
    split
    · rename_i watched
      rw [sides watched]
      rfl
    · rfl

theorem executeJoin_counts (fresh : Fresh h) (positive : 0 < h.rowsLimit)
    (table : h.forCountOnly = true) (calm : h.tooManyConflicts = false)
    (only : j.OnlyCounts) (made : j.initOuter h = .ok f)
    (sides : j.watch = .traversed → j.matchedRows = [] → j.traversed = []) :
    ∃ newMind, j.executeJoin h = some (.ok (.committed (j.counted h.rowsLimit) newMind)) := by
  have committed : j.executeJoin h = some (.ok .wrongSides) ∧ False ∧ j.traversed ≠ [] ∧
      j.matchedRows ≠ [] ∨ ∃ newMind,
        j.executeJoin h = some (.ok (.committed (j.counted h.rowsLimit) newMind)) ∧ True :=
    executeJoin_keeps only.unlimited (K := CountKept j h)
      (fun more kept => kept.pass fresh positive table only more) made
      ⟨countProgress_start made calm, zero_add _⟩
      (fun skipped => countKept_skipped made calm skipped fun watched =>
        skipped.elim id (sides watched))
      (fun kept => ⟨kept.finish only.counting, trivial⟩)
  rcases committed with ⟨_, gaveUp, _⟩ | ⟨newMind, result, _⟩
  · exact gaveUp.elim
  · exact ⟨newMind, result⟩

end

namespace HashJoin

variable {α β : Type} (q : HashJoin α β)

def countTips : JoinTips := ⟨true, none⟩

def buildTips : JoinTips := ⟨false, none⟩

def countCapacity (side : Side) : Nat := ((q.initTable countTips side).map rowsLimit).getD 0

/-- With other conditions rows are counted one by one.  Without them no uniform packrow of a
watched matched side has a partner, and no two rows of a pass over a watched traversed side
have the same key without a partner. -/
def CountAgrees : Prop :=
  q.otherCond = [] →
    match q.traversedSide .left false with
    | .left => (q.traverseLeft countTips false).CountAgrees (q.countCapacity .left)
    | .right => (q.traverseRight countTips false).CountAgrees (q.countCapacity .right)

variable {q}

theorem calm_of_initTable {tips : JoinTips} {side : Side} {h : JoinerHashTable}
    (made : q.initTable tips side = some h) : h.tooManyConflicts = false := by
  rw [initTable, initializeTable] at made
  rw [if_neg q.keySizes_ne] at made
  cases made
  rfl

theorem execute_counts (numbered : q.Numbered countTips) (noOther : q.otherCond = []) :
    ∃ counted newMind, q.execute countTips = some (.ok (.committed counted newMind)) ∧
      (counted = q.expected.length ↔ q.CountAgrees) := by
  have smaller := @traversedSide_smaller _ _ q _ rfl
  rw [execute, CountAgrees]
  cases side : q.traversedSide .left false with
  | left =>
    obtain ⟨h, made, fresh, positive, columns⟩ := @initTable_fresh _ _ q countTips .left
    rw [noOther] at columns
    have capacity : q.countCapacity .left = h.rowsLimit := by
      rw [countCapacity, made]
      rfl
    obtain ⟨f, filter⟩ := @initOuter_ok _ _ (q.traverseLeft countTips false) h
      (numbered.rows .right) (numbered.table .left h made)
    rw [side] at smaller
    obtain ⟨newMind, result⟩ := executeJoin_counts fresh positive columns
      (calm_of_initTable made) ⟨rfl, noOther, rfl⟩ filter (fun _ noRight =>
        eq_nil_of_length_eq_zero (smaller (length_eq_zero_iff.mpr noRight)))
    rw [executeSide, made]
    dsimp only
    rw [result]
    refine ⟨_, newMind, rfl, ?_⟩
    rw [← @expected_traverseLeft _ _ q countTips false, counted_eq_iff noOther positive, capacity]
    exact ⟨fun agrees _ => agrees, fun agrees => agrees noOther⟩
  | right =>
    obtain ⟨h, made, fresh, positive, columns⟩ := @initTable_fresh _ _ q countTips .right
    rw [noOther] at columns
    have capacity : q.countCapacity .right = h.rowsLimit := by
      rw [countCapacity, made]
      rfl
    have noOther' : (q.traverseRight countTips false).otherCond = [] := by
      rw [traverseRight, noOther]
      rfl
    obtain ⟨f, filter⟩ := @initOuter_ok _ _ (q.traverseRight countTips false) h
      (numbered.rows .left) (numbered.table .right h made)
    rw [side] at smaller
    obtain ⟨newMind, result⟩ := executeJoin_counts fresh positive columns
      (calm_of_initTable made) ⟨rfl, noOther', rfl⟩ filter (fun _ noLeft =>
        eq_nil_of_length_eq_zero (smaller (length_eq_zero_iff.mpr noLeft)))
    rw [executeSide, made]
    dsimp only
    rw [result]
    refine ⟨_, newMind.map swap, rfl, ?_⟩
    have count := (@expected_traverseRight _ _ q countTips false).length_eq
    rw [length_map] at count
    rw [← count, counted_eq_iff noOther' positive, capacity]
    exact ⟨fun agrees _ => agrees, fun agrees => agrees noOther⟩

/-- Counting reports as many tuples as are built, under exactly the condition on outer rows. -/
theorem count_eq_built_iff (counting : q.Numbered countTips) (building : q.Numbered buildTips) :
    ∃ counted newMind built, q.execute countTips = some (.ok (.committed counted newMind)) ∧
      q.execute buildTips = some (.ok (.committed built.length built)) ∧
      (counted = built.length ↔ q.CountAgrees) := by
  obtain ⟨built, builds, perm⟩ := execute_tuples building rfl rfl
  have count := (perm rfl).length_eq
  rw [← count] at builds
  by_cases noOther : q.otherCond = []
  · obtain ⟨counted, newMind, counts, agrees⟩ := execute_counts counting noOther
    rw [← count] at agrees
    exact ⟨counted, newMind, built, counts, builds, agrees⟩
  · have tuples : (countTips.countOnly && q.otherCond.isEmpty) = false :=
      isEmpty_eq_false_iff.mpr noOther
    obtain ⟨newMind, counts, -⟩ := execute_tuples counting rfl tuples
    rw [← count] at counts
    exact ⟨_, newMind, built, counts, builds, iff_of_true rfl fun absent => absurd absent noOther⟩

theorem count_eq_built_leftOuter :
    ∃ newMind built, leftOuterJoin.execute countTips =
        some (.ok (.committed (built : List (Option Nat × Option Nat)).length newMind)) ∧
      leftOuterJoin.execute buildTips = some (.ok (.committed built.length built)) := by
  obtain ⟨counted, newMind, built, counts, builds, agrees⟩ :=
    count_eq_built_iff (leftOuterJoin_numbered true) (leftOuterJoin_numbered false)
  have condition : leftOuterJoin.CountAgrees := by
    intro _ p member uniform
    rw [mem_singleton.mp member] at uniform
    cases uniform
  rw [agrees.mpr condition] at counts
  exact ⟨newMind, built, counts, builds⟩

def uniformPackrow {τ μ : Type} (key : Bytes) (tuples : List μ) (tuples_ne : tuples ≠ []) :
    JoinPackrow τ μ where
  rows := tuples.map fun tuple => ⟨tuple, some key⟩
  columns := [.number (some 1) (some 1) (fun _ => false) false]
  constantKey := key
  rows_ne := by rwa [Ne, List.map_eq_nil_iff]
  columns_ne := List.cons_ne_nil _ _
  omits_sound := by
    intro column member put omits
    rw [List.mem_singleton.mp member] at omits
    cases omits
  constant_sound := by
    intro _ row member
    obtain ⟨tuple, -, rfl⟩ := List.mem_map.mp member
    rfl

/-- Two left rows with the key of the only right row, which is null-extended. -/
def uniformOuterJoin : HashJoin Nat Nat :=
  { leftOuterJoin with
    left := [uniformPackrow [1, 2, 3, 4] [10, 11] (List.cons_ne_nil _ _)] }

theorem uniformOuterJoin_numbered (countOnly : Bool) :
    uniformOuterJoin.Numbered ⟨countOnly, none⟩ where
  rows := by
    intro side
    cases side <;> decide
  table := (leftOuterJoin_numbered countOnly).table

def committedCount : Option (Except String (JoinResult Nat Nat)) → Nat
  | some (.ok (.committed counted _)) => counted
  | _ => 0

/-- The join has two tuples, but four are counted: the rows of the uniform packrow are counted
again as rows without a partner. -/
theorem uniform_outer_counted_twice :
    (∃ newMind, uniformOuterJoin.execute countTips = some (.ok (.committed 4 newMind))) ∧
      ∃ built, uniformOuterJoin.execute buildTips = some (.ok (.committed 2 built)) ∧
        built.Perm [(some 10, some 20), (some 11, some 20)] := by
  obtain ⟨built, builds, perm⟩ := execute_tuples (uniformOuterJoin_numbered false) rfl rfl
  refine ⟨?_, built, builds, perm rfl⟩
  obtain ⟨counted, newMind, counts, -⟩ := execute_counts (uniformOuterJoin_numbered true) rfl
  have value : committedCount (uniformOuterJoin.execute countTips) = 4 := by decide +kernel
  rw [counts] at value
  cases value
  exact ⟨newMind, counts⟩

end HashJoin

end Brighthouse.Core
