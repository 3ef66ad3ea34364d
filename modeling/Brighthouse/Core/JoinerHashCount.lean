import Brighthouse.Core.JoinerHashSides

/-!
# Counting a hash join

Without other conditions a join that only counts keeps one row of the table for each key.
The number of pairs comes out right.  Outer rows do not: a uniform packrow leaves its rows
open in the outer filter, and rows of the traversed side with one key have one bit.
-/

set_option autoImplicit false

namespace Brighthouse.Core

open List

open Library Library.Probing JoinerHash JoinerHashTable

/-! ## Searches -/

namespace JoinerHashTable

section
variable {noRows : Nat} {sized : WellSized noRows} {h : JoinerHashTable} {key : Bytes}
  {insertions : List (Bytes × Nat)}

theorem hashRows_bytes (size : h.noRows = noRows) (buffer : h.inputBuffer = key) (n : Nat) :
    ∀ j, (h.t (sized.row key j)).key = key →
      ∃ rows, hashRows (n + 1) (h.cursorAt (some (sized.row key j)) n) = some rows ∧
        (0 < n → sized.row key j ∈ rows) ∧
        ∀ r ∈ rows, r < noRows ∧ (h.t r).key = key := by
  induction n with
  | zero =>
    intro j _
    refine ⟨[], ?_, fun pos => absurd pos (lt_irrefl 0), fun r mem => absurd mem not_mem_nil⟩
    rw [hashRows, getNextRow_none]
  | succ n ih =>
    intro j bytes
    have here := (layout sized).row_lt key j
    cases n with
    | zero =>
      refine ⟨[sized.row key j], ?_, fun _ => mem_singleton_self _, fun r mem => ?_⟩
      · rw [hashRows, getNextRow_last]
        rfl
      · rw [mem_singleton.mp mem]
        exact ⟨here, bytes⟩
    | succ n =>
      obtain ⟨m, -, found, ends, -⟩ := nextLoop_first sized
        (h := h.cursorAt (some (sized.row key j)) (n + 1)) size buffer
        (congrArg iterateStep buffer) j
      have bytes' : (h.t (sized.row key m)).key = key := by
        rcases ends with same | round
        · exact same
        · have back : sized.row key m = sized.row key j := by
            rw [round]
            exact (layout sized).row_add_size key j
          rw [back]
          exact bytes
      rw [← advance_row_one sized] at found
      have moved := getNextRow_more h (sized.row key j) (sized.row key m) n
        (by rw [size, buffer]; exact found)
      obtain ⟨rows, result, -, all⟩ := ih m bytes'
      refine ⟨sized.row key j :: rows, ?_, fun _ => mem_cons_self, ?_⟩
      · rw [hashRows, moved]
        dsimp only
        rw [result]
        rfl
      · exact forall_mem_cons.mpr ⟨⟨here, bytes⟩, all⟩

theorem Counted.lookup (counted : Counted sized h insertions) (room : h.noOfOccupied < noRows)
    (key : Bytes) :
    ∃ rows, h.lookup key = some ((rowsOf insertions key).length, rows) ∧
      (∀ r ∈ rows, r < noRows ∧ (h.view r = some key ∨ h.view r = none)) ∧
      ∀ r < noRows, h.view r = some key → r ∈ rows := by
  have put := counted.putKey key
  have buffer : (h.putKey key).inputBuffer = key := rfl
  obtain ⟨n, inside, before, found, free⟩ := put.walk_ends room key
  by_cases present : ∃ row, (key, row) ∈ insertions
  · have here := found present
    have search := getLoop_found put.size buffer inside before here
    rw [put.multiplier _ ((layout sized).row_lt key n) key here] at search
    obtain ⟨rows, result, first, all⟩ := hashRows_bytes put.size buffer
      (rowsOf insertions key).length n (view_eq_some_iff.mp here).2
    obtain ⟨row, mem⟩ := present
    have some' := length_pos_of_mem (mem_rowsOf.mpr mem)
    refine ⟨rows, ?_, fun r isRow => ⟨(all r isRow).1, ?_⟩, fun r small holds => ?_⟩
    · rw [JoinerHashTable.lookup, initCurrentRowToGet_eq put.size buffer search]
      dsimp only
      rw [result]
      rfl
    · by_cases empty : h.view r = none
      · exact .inr empty
      · exact .inl (view_eq_some_iff.mpr
          ⟨fun zero => empty (view_eq_none_iff.mpr zero), (all r isRow).2⟩)
    · rw [put.row_unique small ((layout sized).row_lt key n) holds here]
      exact first some'
  · have search := getLoop_absent put.size buffer inside before (free present)
    have absent : rowsOf insertions key = [] :=
      eq_nil_iff_forall_not_mem.mpr fun row mem => present ⟨row, mem_rowsOf.mp mem⟩
    refine ⟨[], ?_, fun r mem => absurd mem not_mem_nil, fun r small holds => ?_⟩
    · rw [JoinerHashTable.lookup, initCurrentRowToGet_eq put.size buffer search, absent]
      rfl
    · obtain ⟨keys, held, -, members⟩ := counted.keys
      exact absurd ((members key).mp (held.stored r small key holds).1) present

end

end JoinerHashTable

/-! ## Scanning the matched side -/

section
variable {τ μ : Type} (j : JoinerHash τ μ) (noRows : Nat)

structure CountStored {noRows : Nat} (sized : WellSized noRows)
    (s : JoinState τ μ) (insertions : List (Bytes × Nat)) : Prop where
  counted : Counted sized s.jhash insertions
  room : s.jhash.noOfOccupied < noRows

def copiesOf (insertions : List (Bytes × Nat)) (m : JoinerRow μ) : Nat :=
  match m.key with
  | none => 0
  | some key => (rowsOf insertions key).length

/-- The state after the matched rows `ms` were dealt with; only the rows `plain`, given with
their numbers, may be reset in the outer filter. -/
structure CountScanned (insertions : List (Bytes × Nat)) (s s' : JoinState τ μ)
    (ms : List (JoinerRow μ)) (plain : List (JoinerRow μ × Nat))
    (tableRows matchedRows : List Nat) :
    Prop where
  applied : Applied j s s' [] tableRows matchedRows
  inside : ∀ r ∈ tableRows, r < noRows
  table : ∀ r < noRows, ∀ key, s.jhash.view r = some key →
    (r ∈ tableRows ↔ ∃ m ∈ ms, m.key = some key)
  matched : ∀ n, n ∈ matchedRows ↔ ∃ m, (m, n) ∈ plain ∧ copiesOf insertions m ≠ 0

variable {j} {noRows} {sized : WellSized noRows} {s s₁ s₂ : JoinState τ μ}
  {insertions : List (Bytes × Nat)}
  {ms ms' : List (JoinerRow μ)} {plain plain' : List (JoinerRow μ × Nat)}
  {tableRows tableRows' matchedRows matchedRows' : List Nat}

theorem CountScanned.refl (s : JoinState τ μ) :
    CountScanned j noRows insertions s s [] [] [] [] where
  applied := Applied.refl s
  inside := fun _ mem => absurd mem not_mem_nil
  table := fun _ _ _ _ => iff_of_false not_mem_nil fun ⟨_, mem, _⟩ =>
    not_mem_nil mem
  matched := fun _ => iff_of_false not_mem_nil fun ⟨_, mem, _⟩ => not_mem_nil mem

theorem CountScanned.trans
    (first : CountScanned j noRows insertions s s₁ ms plain tableRows matchedRows)
    (second : CountScanned j noRows insertions s₁ s₂ ms' plain' tableRows'
      matchedRows') :
    CountScanned j noRows insertions s s₂ (ms ++ ms') (plain ++ plain')
      (tableRows ++ tableRows') (matchedRows ++ matchedRows') where
  applied := first.applied.trans second.applied
  inside := forall_mem_append.mpr ⟨first.inside, second.inside⟩
  table := by
    intro r small key here
    have here' : s₁.jhash.view r = some key := by
      rw [first.applied.jhash]
      exact here
    simp only [mem_append, first.table r small key here, second.table r small key here',
      or_and_right,
      exists_or]
  matched := by
    intro n
    simp only [mem_append, first.matched n, second.matched n, or_and_right, exists_or]

theorem applied_resetRows (rows : List Nat) (s : JoinState τ μ) :
    Applied j s (rows.foldl j.resetTraversed s) [] rows [] := by
  have applied := Applied.foldl s.tuples
    (fun (t : JoinState τ μ) r _ => applied_resetTraversed (j := j) t r) rows s rfl
  have none' : ∀ {γ : Type}, (rows.flatMap fun _ => ([] : List γ)) = [] :=
    flatMap_eq_nil_iff.mpr fun _ _ => rfl
  rwa [none', none', flatMap_singleton'] at applied

theorem CountStored.of_applied (stored : CountStored sized s insertions)
    {committed : List (Option τ × Option μ)}
    (applied : Applied j s s₁ committed tableRows matchedRows) : CountStored sized s₁ insertions :=
  ⟨by rw [applied.jhash]; exact stored.counted, by rw [applied.jhash]; exact stored.room⟩

theorem table_of_rows {key : Bytes} {rows : List Nat}
    (all : ∀ r ∈ rows, r < noRows ∧ (s.jhash.view r = some key ∨ s.jhash.view r = none))
    (holds : ∀ r < noRows, s.jhash.view r = some key → r ∈ rows) {r : Nat} (small : r < noRows)
    {key' : Bytes} (here : s.jhash.view r = some key') : r ∈ rows ↔ key = key' := by
  constructor
  · intro mem
    rcases (all r mem).2 with same | empty
    · exact Option.some.inj (same.symm.trans here)
    · rw [empty] at here
      cases here
  · rintro rfl
    exact holds r small here

section
variable (stored : CountStored sized s insertions) (counting : j.tips.countOnly = true)
include stored counting

theorem CountStored.matchRow (noOther : j.otherCond = []) {m : JoinerRow μ}
    {key : Bytes} (isKey : m.key = some key) (i : Nat) :
    ∃ s₁ tableRows matchedRows, j.matchRow m.tuple key i s = some (copiesOf insertions m, s₁) ∧
      CountScanned j noRows insertions s s₁ [m] [(m, i)] tableRows matchedRows := by
  obtain ⟨rows, found, all, holds⟩ := stored.counted.lookup stored.room key
  have noOther' : ¬j.otherCondExist = true := by
    rw [otherCondExist, noOther]
    exact Bool.false_ne_true
  have copies : copiesOf insertions m = (rowsOf insertions key).length := by
    rw [copiesOf, isKey]
  have reset := applied_resetRows (j := j) rows s
  have table : ∀ r < noRows, ∀ key', s.jhash.view r = some key' →
      (r ∈ rows ↔ ∃ m' ∈ [m], m'.key = some key') := by
    intro r small key' here
    rw [table_of_rows all holds small here]
    simp [isKey]
  rw [JoinerHash.matchRow, found]
  dsimp only
  rw [if_neg noOther', counting, ← copies]
  by_cases some' : 0 < copiesOf insertions m
  · rw [if_pos some']
    have both := reset.trans (applied_resetMatched (j := j) _ i)
    rw [append_nil, append_nil] at both
    refine ⟨_, rows, [i], rfl, both, fun r mem => (all r mem).1, table, fun n => ?_⟩
    rw [mem_singleton]
    constructor
    · rintro rfl
      exact ⟨m, mem_singleton_self _, some'.ne'⟩
    · rintro ⟨m', mem, -⟩
      exact congrArg Prod.snd (mem_singleton.mp mem)
  · rw [if_neg some']
    refine ⟨_, rows, [], rfl, reset, fun r mem => (all r mem).1, table, fun n => ?_⟩
    refine iff_of_false not_mem_nil ?_
    rintro ⟨m', mem, copies'⟩
    cases mem_singleton.mp mem
    exact some' (pos_of_ne_zero copies')

theorem CountStored.matchUniform {p : JoinPackrow τ μ}
    (constant : ∀ m ∈ p.rows, m.key = some p.constantKey) (i : Nat) :
    ∃ s₁ tableRows matchedRows,
      j.matchUniform p i s = some ((p.rows.map (copiesOf insertions)).sum, s₁) ∧
      CountScanned j noRows insertions s s₁ p.rows [] tableRows matchedRows := by
  obtain ⟨rows, found, all, holds⟩ := stored.counted.lookup stored.room p.constantKey
  have copies : (p.rows.map (copiesOf insertions)).sum =
      (rowsOf insertions p.constantKey).length * p.rows.length := by
    have same : p.rows.map (copiesOf insertions) = replicate p.rows.length
        (rowsOf insertions p.constantKey).length := by
      refine eq_replicate_iff.mpr ⟨length_map _, fun n mem => ?_⟩
      obtain ⟨m, isRow, rfl⟩ := mem_map.mp mem
      rw [copiesOf, constant m isRow]
    rw [same, sum_replicate_nat, mul_comm]
  rw [JoinerHash.matchUniform, found]
  dsimp only
  rw [counting, copies]
  refine ⟨_, rows, [], rfl, applied_resetRows rows s, fun r mem => (all r mem).1, ?_,
    fun n => iff_of_false not_mem_nil (by simp)⟩
  intro r small key' here
  rw [table_of_rows all holds small here]
  constructor
  · rintro rfl
    obtain ⟨m, isRow⟩ := exists_mem_of_ne_nil _ p.rows_ne
    exact ⟨m, isRow, constant m isRow⟩
  · rintro ⟨m, isRow, isKey⟩
    exact Option.some.inj ((constant m isRow).symm.trans isKey)

end

variable (j) in
/-- A join that only counts, without other conditions and without a limit. -/
structure JoinerHash.OnlyCounts : Prop where
  counting : j.tips.countOnly = true
  noOther : j.otherCond = []
  unlimited : j.tips.limit = none

theorem countRows_scanned (only : j.OnlyCounts) (rows : List (JoinerRow μ)) :
    ∀ i n s, CountStored sized s insertions →
      ∃ s₁ tableRows matchedRows, j.matchRows rows i n s =
          some ⟨n + (rows.map (copiesOf insertions)).sum, s₁, false⟩ ∧
        CountScanned j noRows insertions s s₁ rows (rows.zipIdx i) tableRows matchedRows := by
  induction rows with
  | nil =>
    intro i n s _
    exact ⟨s, [], [], rfl, CountScanned.refl s⟩
  | cons m rows ih =>
    intro i n s stored
    rw [matchRows, map_cons, sum_cons]
    cases isKey : m.key with
    | none =>
      obtain ⟨s₁, tableRows, matchedRows, result, scanned⟩ := ih (i + 1) n s stored
      have none' : copiesOf insertions m = 0 := by rw [copiesOf, isKey]
      refine ⟨s₁, tableRows, matchedRows, ?_, scanned.applied, scanned.inside, ?_, ?_⟩
      · rw [none', zero_add]
        exact result
      · intro r small key here
        rw [scanned.table r small key here]
        simp [isKey]
      · intro k
        rw [scanned.matched k]
        constructor
        · rintro ⟨m', mem, copies⟩
          exact ⟨m', mem_cons_of_mem _ mem, copies⟩
        · rintro ⟨m', mem, copies⟩
          rcases mem_cons.mp mem with same | later
          · cases same
            exact absurd none' copies
          · exact ⟨m', later, copies⟩
    | some key =>
      obtain ⟨s₁, tableRows, matchedRows, found, scanned⟩ :=
        stored.matchRow only.counting only.noOther isKey i
      obtain ⟨s₂, tableRows', matchedRows', result, scanned'⟩ := ih (i + 1)
        (n + copiesOf insertions m) s₁ (stored.of_applied scanned.applied)
      refine ⟨s₂, _, _, ?_, scanned.trans scanned'⟩
      dsimp only
      rw [found]
      dsimp only
      rw [limitReached_none only.unlimited, if_neg Bool.false_ne_true, result, add_assoc]

def JoinPackrow.uniform (p : JoinPackrow τ μ) : Bool := p.columns.all ColumnRough.constant

def plainRows : List (JoinPackrow τ μ) → Nat → List (JoinerRow μ × Nat)
  | [], _ => []
  | p :: rest, i =>
    (if p.uniform then [] else p.rows.zipIdx i) ++ plainRows rest (i + p.rows.length)

/-- Whether a packrow that is not omitted is treated as uniform does not depend on the pass. -/
theorem roughColumns_uniform {put : List (JoinerRow τ)} (columns : List (ColumnRough τ)) :
    ∀ uniform, (roughColumns false put columns uniform).1 = false →
      (roughColumns false put columns uniform).2 =
        (uniform && columns.all ColumnRough.constant) := by
  induction columns with
  | nil =>
    intro uniform _
    exact (Bool.and_true _).symm
  | cons column columns ih =>
    intro uniform kept
    rw [roughColumns] at kept ⊢
    by_cases omits : column.omits put = true
    · rw [if_pos omits] at kept
      cases kept
    · rw [if_neg omits] at kept ⊢
      rw [ih _ kept, all_cons]
      cases column.constant <;> simp

def CountSeen (s : JoinState τ μ) (insertions : List (Bytes × Nat)) : Prop :=
  ∀ pair ∈ insertions, ∃ row ∈ s.put, row.key = some pair.1

theorem copiesOf_omitted {p : JoinPackrow τ μ} (seen : CountSeen s insertions)
    (omitted : (roughColumns j.otherCondExist s.put p.columns true).1 = true) {m : JoinerRow μ}
    (isRow : m ∈ p.rows) : copiesOf insertions m = 0 := by
  obtain ⟨column, mem, omits⟩ := omits_of_roughColumns omitted
  rw [copiesOf]
  cases isKey : m.key with
  | none => rfl
  | some key =>
    refine length_eq_zero_iff.mpr (eq_nil_iff_forall_not_mem.mpr fun r inRows => ?_)
    obtain ⟨row, isPut, isKey'⟩ := seen (key, r) (mem_rowsOf.mp inRows)
    exact p.omits_sound column mem s.put omits m isRow row isPut key isKey isKey'

theorem CountStored.omitted (stored : CountStored sized s insertions)
    (none' : ∀ m ∈ ms, copiesOf insertions m = 0) (i : Nat) (plain : Bool) :
    CountScanned j noRows insertions s s ms (if plain then [] else ms.zipIdx i) [] [] where
  applied := Applied.refl s
  inside := fun r mem => absurd mem not_mem_nil
  table := by
    intro r small key here
    refine iff_of_false not_mem_nil ?_
    rintro ⟨m, isRow, isKey⟩
    have copies := none' m isRow
    rw [copiesOf, isKey] at copies
    obtain ⟨keys, held, -, members⟩ := stored.counted.keys
    obtain ⟨row, mem⟩ := (members key).mp (held.stored r small key here).1
    have empty := eq_nil_of_length_eq_zero copies
    have inRows := mem_rowsOf.mpr mem
    rw [empty] at inRows
    cases inRows
  matched := by
    refine fun n => iff_of_false not_mem_nil ?_
    rintro ⟨m, mem, copies⟩
    cases plain with
    | true => exact not_mem_nil mem
    | false => exact copies (none' m (fst_mem_of_mem_zipIdx mem))

theorem countPackrows_scanned (only : j.OnlyCounts) (packrows : List (JoinPackrow τ μ)) :
    ∀ i n s, CountStored sized s insertions → CountSeen s insertions →
      ∃ s₁ tableRows matchedRows, j.matchPackrows packrows i n s =
          some (n + ((packrows.flatMap JoinPackrow.rows).map (copiesOf insertions)).sum, s₁) ∧
        CountScanned j noRows insertions s s₁ (packrows.flatMap JoinPackrow.rows)
          (plainRows packrows i) tableRows matchedRows := by
  induction packrows with
  | nil =>
    intro i n s _ _
    exact ⟨s, [], [], rfl, CountScanned.refl s⟩
  | cons p packrows ih =>
    intro i n s stored seen
    have noOther' : j.otherCondExist = false := by
      rw [otherCondExist, only.noOther]
      rfl
    rw [matchPackrows, flatMap_cons, map_append, sum_append, plainRows]
    dsimp only
    -- the rest of the scan from the state after this packrow
    have continue' : ∀ s₁ tableRows matchedRows, CountScanned j noRows insertions s s₁ p.rows
          (if p.uniform then [] else p.rows.zipIdx i) tableRows matchedRows →
        ∃ s₂ tableRows matchedRows, j.matchPackrows packrows (i + p.rows.length)
            (n + (p.rows.map (copiesOf insertions)).sum) s₁ =
            some (n + ((p.rows.map (copiesOf insertions)).sum +
              ((packrows.flatMap JoinPackrow.rows).map (copiesOf insertions)).sum), s₂) ∧
          CountScanned j noRows insertions s s₂ (p.rows ++ packrows.flatMap JoinPackrow.rows)
            ((if p.uniform then [] else p.rows.zipIdx i) ++
              plainRows packrows (i + p.rows.length)) tableRows matchedRows := by
      intro s₁ tableRows matchedRows scanned
      have seen₁ : CountSeen s₁ insertions := by
        rw [CountSeen, scanned.applied.put]
        exact seen
      obtain ⟨s₂, tableRows', matchedRows', result, scanned'⟩ := ih (i + p.rows.length)
        (n + (p.rows.map (copiesOf insertions)).sum) s₁ (stored.of_applied scanned.applied) seen₁
      exact ⟨s₂, _, _, by rw [result, add_assoc], scanned.trans scanned'⟩
    by_cases omitted : (roughColumns j.otherCondExist s.put p.columns true).1 = true
    · have none' := fun m isRow => @copiesOf_omitted _ _ j s insertions p seen omitted m isRow
      have zero : (p.rows.map (copiesOf insertions)).sum = 0 := by
        rw [sum_eq_zero_iff]
        intro copies mem
        obtain ⟨m, isRow, rfl⟩ := mem_map.mp mem
        exact none' m isRow
      have rest := continue' s [] [] (stored.omitted none' i p.uniform)
      rw [if_pos omitted]
      rw [zero] at rest
      rw [zero]
      exact rest
    · have kept := Bool.eq_false_of_not_eq_true omitted
      rw [noOther'] at kept
      have isUniform := roughColumns_uniform p.columns true kept
      rw [if_neg omitted, noOther', isUniform, ← JoinPackrow.uniform]
      cases uniform : p.uniform with
      | true =>
        rw [uniform] at continue'
        have constant := p.constant_sound fun column mem =>
          all_eq_true.mp uniform column mem
        obtain ⟨s₁, tableRows, matchedRows, found, scanned⟩ :=
          stored.matchUniform only.counting constant i
        rw [found]
        exact continue' s₁ tableRows matchedRows scanned
      | false =>
        rw [uniform] at continue'
        obtain ⟨s₁, tableRows, matchedRows, found, scanned⟩ :=
          countRows_scanned only p.rows i n s stored
        rw [found]
        exact continue' s₁ tableRows matchedRows scanned

end

/-! ## Traversal -/

section
variable {τ : Type}

/-- The rows of one pass and the rest: rows with a key are accepted while the table holds
fewer than `limit` different keys. -/
def countPass (limit : Nat) :
    List Bytes → List (JoinerRow τ) → List (JoinerRow τ) × List (JoinerRow τ)
  | _, [] => ([], [])
  | seen, row :: rest =>
    match row.key with
    | none =>
      let (part, rest) := countPass limit seen rest
      (row :: part, rest)
    | some key =>
      if limit ≤ seen.length then ([], row :: rest)
      else
        let (part, rest) := countPass limit (if key ∈ seen then seen else key :: seen) rest
        (row :: part, rest)

def countPasses (limit : Nat) : Nat → List (JoinerRow τ) → List (List (JoinerRow τ))
  | _, [] => []
  | 0, _ :: _ => []
  | turns + 1, row :: rows =>
    let (part, rest) := countPass limit [] (row :: rows)
    part :: countPasses limit turns rest

def keysOf (rows : List (JoinerRow τ)) : List Bytes := rows.filterMap JoinerRow.key

end

section
variable {τ μ : Type} (j : JoinerHash τ μ) {noRows : Nat} (sized : WellSized noRows)

structure CountLoaded (s : JoinState τ μ) (chunk : List (JoinerRow τ))
    (insertions : List (Bytes × Nat)) : Prop where
  counted : Counted sized s.jhash insertions
  within : s.jhash.noOfOccupied ≤ s.jhash.rowsLimit
  keys : (insertions.map Prod.fst).Perm (keysOf chunk)
  put : ∀ row ∈ chunk, row ∈ s.put
  filter : j.watch = .traversed →
    s.outerFilter.Shows noRows (fun r => decide (r ∈ insertions.map Prod.snd))
  calm : s.jhash.tooManyConflicts = false

structure SeenKeys (s : JoinState τ μ) (insertions : List (Bytes × Nat)) (seen : List Bytes) :
    Prop where
  count : seen.length = s.jhash.noOfOccupied
  members : ∀ key, key ∈ seen ↔ ∃ row, (key, row) ∈ insertions

variable {j sized} {s : JoinState τ μ} {chunk : List (JoinerRow τ)}
  {insertions : List (Bytes × Nat)}

theorem SeenKeys.insert {seen : List Bytes} (keys : SeenKeys s insertions seen)
    (j : JoinerHash τ μ) (row : JoinerRow τ) {key : Bytes} (hashRow : Nat) {h : JoinerHashTable}
    (same : (∃ r, (key, r) ∈ insertions) → h.noOfOccupied = s.jhash.noOfOccupied)
    (more : (¬∃ r, (key, r) ∈ insertions) → h.noOfOccupied = s.jhash.noOfOccupied + 1) :
    SeenKeys (j.acceptRow (putRow s row) row.tuple hashRow h)
      ((key, hashRow) :: insertions) (if key ∈ seen then seen else key :: seen) := by
  rw [acceptRow_eq]
  by_cases present : key ∈ seen
  · have there := (keys.members key).mp present
    rw [if_pos present]
    refine ⟨by rw [keys.count]; exact (same there).symm, fun other => ?_⟩
    rw [keys.members other]
    refine ⟨fun ⟨r, mem⟩ => ⟨r, mem_cons_of_mem _ mem⟩, ?_⟩
    rintro ⟨r, mem⟩
    rcases mem_cons.mp mem with isNew | old
    · cases isNew
      exact there
    · exact ⟨r, old⟩
  · have absent := fun there => present ((keys.members key).mpr there)
    rw [if_neg present]
    refine ⟨by rw [length_cons, keys.count]; exact (more absent).symm, fun other => ?_⟩
    rw [mem_cons, keys.members other]
    constructor
    · rintro (rfl | ⟨r, mem⟩)
      · exact ⟨hashRow, mem_cons_self⟩
      · exact ⟨r, mem_cons_of_mem _ mem⟩
    · rintro ⟨r, mem⟩
      rcases mem_cons.mp mem with isNew | old
      · exact .inl (congrArg Prod.fst isNew)
      · exact .inr ⟨r, old⟩

section
variable (loaded : CountLoaded j sized s chunk insertions)
include loaded

theorem CountLoaded.putRow_null {row : JoinerRow τ} (isNull : row.key = none)
    (newMind : List (Option τ × Option μ)) :
    CountLoaded j sized { putRow s row with newMind } (chunk ++ [row]) insertions where
  counted := loaded.counted
  within := loaded.within
  keys := by
    rw [keysOf, filterMap_append, filterMap_cons_none isNull, filterMap_nil, append_nil]
    exact loaded.keys
  put := put_snoc loaded.put row
  filter := loaded.filter
  calm := loaded.calm

theorem CountLoaded.accept {row : JoinerRow τ} {key : Bytes} (isKey : row.key = some key)
    {hashRow : Nat} {h : JoinerHashTable} (counted : Counted sized h ((key, hashRow) :: insertions))
    (within : h.noOfOccupied ≤ h.rowsLimit) (calm : h.tooManyConflicts = false) :
    CountLoaded j sized (j.acceptRow (putRow s row) row.tuple hashRow h)
      (chunk ++ [row]) ((key, hashRow) :: insertions) := by
  rw [acceptRow_eq]
  refine ⟨counted, within, ?_, put_snoc loaded.put row, ?_, calm⟩
  · rw [keysOf, filterMap_append, filterMap_cons_some isKey]
    exact (loaded.keys.cons key).trans (perm_append_singleton key _).symm
  · intro watched
    rw [if_watchTraversed watched]
    exact (loaded.filter watched).insert (counted.rows key hashRow mem_cons_self).1

end

theorem traverseRows_counts (rows : List (JoinerRow τ)) :
    ∀ s outer chunk insertions seen,
      CountLoaded j sized s chunk insertions → SeenKeys s insertions seen →
      s.jhash.rowsLimit < noRows →
      ∃ t insertions', j.traverseRows rows s outer = some t ∧ t.tooManyConflicts = false ∧
        t.rest = (countPass s.jhash.rowsLimit seen rows).2 ∧
        CountLoaded j sized t.state (chunk ++ (countPass s.jhash.rowsLimit seen rows).1)
          insertions' ∧
        Traversed j s outer (countPass s.jhash.rowsLimit seen rows).1 t := by
  induction rows with
  | nil =>
    intro s outer chunk insertions seen loaded _ _
    refine ⟨_, insertions, rfl, rfl, rfl, ?_, traversed_nil s s.jhash rfl s.put outer [] false⟩
    rw [countPass, append_nil]
    exact loaded
  | cons row rest ih =>
    intro s outer chunk insertions seen loaded keys limit
    rw [countPass]
    cases isKey : row.key with
    | none =>
      obtain ⟨extra, run, nulls⟩ := @traverseRows_null _ _ j row isKey rest s outer
      obtain ⟨t, insertions', result, done, last, loaded', traversed⟩ := ih _ _ _ insertions seen
        (loaded.putRow_null isKey _) ⟨keys.count, keys.members⟩ limit
      rw [append_assoc] at loaded'
      exact ⟨t, insertions', run.trans result, done, last, loaded',
        traversed.cons extra (by rfl) (by rfl) (by rfl) (fun _ => by rfl) (nulls _)⟩
    | some key =>
      rw [traverseRows, isKey]
      dsimp only
      by_cases room : s.jhash.noOfOccupied < s.jhash.rowsLimit
      · obtain ⟨hashRow, h, inserted, setup, conflicts, same, more, counted⟩ :=
          (loaded.counted.putKey key).insert key rfl (room.trans limit)
        have found := findAndAddCurrentRow_eq key loaded.counted.size room
        have sameLimit : h.rowsLimit = s.jhash.rowsLimit := rowsLimit_of_setup setup
        have calm : h.tooManyConflicts = false := conflicts.trans loaded.calm
        rw [inserted] at found
        rw [show (putRow s row).jhash = s.jhash from rfl, found, if_neg (by rw [keys.count]; omega)]
        dsimp only
        rw [calm, Bool.and_false]
        have keys' := keys.insert j row hashRow same more
        have within : h.noOfOccupied ≤ h.rowsLimit := by
          rw [sameLimit]
          by_cases there : ∃ r, (key, r) ∈ insertions
          · rw [same there]
            exact room.le
          · rw [more there]
            exact room
        have accepted := loaded.accept isKey counted within calm
        have sameLimit' : (j.acceptRow (putRow s row) row.tuple hashRow h).jhash.rowsLimit
            = s.jhash.rowsLimit := by
          rw [acceptRow_eq]
          exact sameLimit
        obtain ⟨t, insertions', result, done, last, loaded', traversed⟩ := ih _ outer _ _ _
          accepted keys' (by rw [sameLimit']; exact limit)
        rw [sameLimit'] at last loaded' traversed
        rw [append_assoc] at loaded'
        refine ⟨t, insertions', result, done, last, loaded', ?_⟩
        refine traversed.cons [] ?_ rfl ?_ (fun unwatched => ?_) (nullTuples_key isKey _)
        · rw [acceptRow_eq]
          rfl
        · rw [acceptRow_eq]
          exact setup
        · rw [acceptRow_eq]
          exact if_neg fun watched => unwatched (of_decide_eq_true watched)
      · have full : (s.jhash.putKey key).findAndAddCurrentRow =
            some (none, s.jhash.putKey key) := if_pos (not_lt.mp room)
        rw [show (putRow s row).jhash = s.jhash from rfl, full, if_pos (by rw [keys.count]; omega)]
        refine ⟨_, insertions, rfl, rfl, rfl, ?_,
          traversed_nil s (s.jhash.putKey key) rfl (row :: s.put) outer (row :: rest) false⟩
        rw [append_nil]
        exact ⟨loaded.counted.putKey key, loaded.within, loaded.keys,
          fun other mem => mem_cons_of_mem _ (loaded.put other mem), loaded.filter,
          loaded.calm⟩

end

end Brighthouse.Core
