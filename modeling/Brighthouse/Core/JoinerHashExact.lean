import Brighthouse.Core.JoinerHashScan

/-!
# A hash join whose table holds the tuples

A pass puts a part of the traversed rows into the table and scans the whole matched side.
The passes together deal with every traversed row once, so the tuples committed are those
of the join, whatever the capacity of the table is.
-/

set_option autoImplicit false

namespace Brighthouse.Core

open Library Library.EquiJoin Library.BitCount JoinerHash JoinerHashTable List Seat

namespace JoinerHash

variable {τ μ : Type} (j : JoinerHash τ μ)

/-! ## The join -/

/-- Equal keys that are not null, and the other conditions. -/
def partner (row : JoinerRow τ) (m : JoinerRow μ) : Bool :=
  (row.key.isSome && decide (m.key = row.key)) &&
    j.otherCond.all fun cond => cond row.tuple m.tuple

def pairOf (pair : JoinerRow τ × JoinerRow μ) : Option τ × Option μ :=
  (some pair.1.tuple, some pair.2.tuple)

/-- The rows of the watched side that have no partner, with nulls for the other side. -/
def outerTuples (rows : List (JoinerRow τ)) (ms : List (JoinerRow μ)) :
    List (Option τ × Option μ) :=
  match j.watch with
  | .neither => []
  | .traversed => (unmatchedLeft j.partner rows ms).map fun row => (some row.tuple, none)
  | .matched => (unmatchedRight j.partner rows ms).map fun m => (none, some m.tuple)

/-- The tuples of the join: the pairs, unless only null rows are wanted, and the outer
tuples. -/
def expected : List (Option τ × Option μ) :=
  j.kept ((joined j.partner j.traversed j.matchedRows).map pairOf) ++
    j.outerTuples j.traversed j.matchedRows

end JoinerHash

/-! ## Places and rows -/

section
variable {τ μ : Type} {j : JoinerHash τ μ}

def Seat.toRow (p : Seat τ) : JoinerRow τ := ⟨p.tuple, some p.key⟩

theorem partner_null {row : JoinerRow τ} (isNull : row.key = none) (m : JoinerRow μ) :
    j.partner row m = false := by
  rw [partner, isNull]
  rfl

def keyedRows (rows : List (JoinerRow τ)) : List (JoinerRow τ) := rows.filter (·.key.isSome)

theorem joined_keyedRows (rows : List (JoinerRow τ)) (ms : List (JoinerRow μ)) :
    joined j.partner (keyedRows rows) ms = joined j.partner rows ms := by
  refine joined_filter_left fun row _ isNull m _ => partner_null ?_ m
  exact Option.isNone_iff_eq_none.mp (by rw [← Option.not_isSome, isNull]; rfl)

theorem partners_toRow (places : List (Seat τ)) (ms : List (JoinerRow μ)) (i : Nat) :
    (j.partners places (ms.zipIdx i)).map (Prod.map toRow Prod.fst) =
      joined j.partner (places.map toRow) ms := by
  have rows : (ms.zipIdx i).map Prod.fst = ms := zipIdx_map_fst i ms
  conv_rhs => rw [← rows, joined_map]
  rfl

theorem pairs_of_places {places : List (Seat τ)} {chunk : List (JoinerRow τ)}
    (perm : (places.map toRow).Perm (keyedRows chunk)) (ms : List (JoinerRow μ)) :
    ((j.partners places (ms.zipIdx 0)).map pairTuple).Perm
      ((joined j.partner chunk ms).map pairOf) := by
  have same : (j.partners places (ms.zipIdx 0)).map pairTuple =
      ((j.partners places (ms.zipIdx 0)).map (Prod.map toRow Prod.fst)).map
        pairOf := by
    rw [map_map]
    rfl
  rw [same, partners_toRow, ← joined_keyedRows chunk]
  exact (joined_perm_left perm).map _

theorem mem_partners {places : List (Seat τ)} {ms : List (JoinerRow μ)} {p : Seat τ}
    {m : JoinerRow μ} {n : Nat} :
    (p, m, n) ∈ j.partners places (ms.zipIdx 0) ↔
      p ∈ places ∧ ms[n]? = some m ∧ j.fits p m = true := by
  rw [partners, joined, mem_flatMap]
  constructor
  · rintro ⟨⟨m', n'⟩, isRow, mem⟩
    obtain ⟨p', isPlace, same⟩ := mem_map.mp mem
    cases same
    obtain ⟨isIn, fits⟩ := mem_filter.mp isPlace
    exact ⟨isIn, mem_zipIdx_iff_getElem?.mp isRow, fits⟩
  · rintro ⟨isPlace, isRow, fits⟩
    exact ⟨(m, n), mem_zipIdx_iff_getElem?.mpr isRow,
      mem_map.mpr ⟨p, mem_filter.mpr ⟨isPlace, fits⟩, rfl⟩⟩

end

/-! ## Traversal -/

section
variable {τ μ : Type} (j : JoinerHash τ μ) {noRows : Nat} (sized : WellSized noRows)

structure Loaded (s : JoinState τ μ) (chunk : List (JoinerRow τ)) (places : List (Seat τ)) :
    Prop where
  stored : Stored sized s places
  rows : (places.map toRow).Perm (keyedRows chunk)
  put : ∀ row ∈ chunk, row ∈ s.put
  filter : j.watch = .traversed →
    s.outerFilter.Shows noRows (fun r => decide (r ∈ places.map row))

def JoinerHash.nullTuples (rows : List (JoinerRow τ)) : List (Option τ × Option μ) :=
  if j.watchTraversed then (rows.filter (·.key.isNone)).map fun row => (some row.tuple, none)
  else []

variable {j sized} {s : JoinState τ μ} {chunk : List (JoinerRow τ)} {places : List (Seat τ)}

theorem if_watchTraversed {α : Type} {x y : α} (watched : j.watch = .traversed) :
    (if j.watchTraversed then x else y) = x := if_pos (decide_eq_true watched)

theorem watchMatched_of_traversed (watched : j.watch = .traversed) : j.watchMatched = false := by
  rw [watchMatched, watched]
  rfl

theorem put_snoc {put : List (JoinerRow τ)} (all : ∀ row ∈ chunk, row ∈ put) (row : JoinerRow τ) :
    ∀ other ∈ chunk ++ [row], other ∈ row :: put :=
  forall_mem_append.mpr ⟨fun other old => mem_cons_of_mem row (all other old),
    forall_mem_singleton.mpr mem_cons_self⟩

theorem Filter.Shows.insert {f : Filter} {rows : List Nat} {hashRow : Nat}
    (shown : f.Shows noRows fun r => decide (r ∈ rows)) (inside : hashRow < noRows) :
    (f.set hashRow).Shows noRows fun r => decide (r ∈ hashRow :: rows) := by
  refine (shown.set inside).congr fun r _ => ?_
  rw [fill_one]
  by_cases same : r = hashRow
  · simp [same]
  · simp [same]

section
variable (loaded : Loaded j sized s chunk places)
include loaded

theorem Loaded.seen : Seen s places := by
  intro p mem
  have isRow : p.toRow ∈ keyedRows chunk := loaded.rows.mem_iff.mp (mem_map.mpr ⟨p, mem, rfl⟩)
  exact ⟨p.toRow, loaded.put _ (mem_of_mem_filter isRow), rfl⟩

theorem Loaded.putRow_null {row : JoinerRow τ} (isNull : row.key = none)
    (newMind : List (Option τ × Option μ)) :
    Loaded j sized { putRow s row with newMind } (chunk ++ [row]) places where
  stored := ⟨loaded.stored.chained, loaded.stored.tuples, loaded.stored.room⟩
  rows := by
    have none' : keyedRows (chunk ++ [row]) = keyedRows chunk := by
      rw [keyedRows, keyedRows, filter_append, filter_cons_of_neg (by simp [isNull]),
        filter_nil, append_nil]
    rw [none']
    exact loaded.rows
  put := put_snoc loaded.put row
  filter := loaded.filter

end

theorem acceptRow_eq (s : JoinState τ μ) (tuple : τ) (hashRow : Nat) (h : JoinerHashTable) :
    j.acceptRow s tuple hashRow h =
      ⟨h, s.put,
        if j.withoutTuples then s.tuples else Function.update s.tuples hashRow (some tuple),
        if j.watchTraversed then s.outerFilter.set hashRow else s.outerFilter, s.newMind⟩ := by
  rw [acceptRow]
  cases j.watchTraversed with
  | true => cases j.withoutTuples <;> rfl
  | false => cases j.withoutTuples <;> rfl

variable {row : JoinerRow τ} {key : Bytes}

theorem Loaded.accept (loaded : Loaded j sized s chunk places) (tuples : j.withoutTuples = false)
    (isKey : row.key = some key) {hashRow : Nat} {h : JoinerHashTable}
    (room : places.length + 1 < noRows)
    (chained : Chained sized h ((key, hashRow) :: places.map fun p => (p.key, p.row))) :
    Loaded j sized (j.acceptRow (putRow s row) row.tuple hashRow h) (chunk ++ [row])
      (⟨row.tuple, key, hashRow⟩ :: places) := by
  have fresh : ∀ p ∈ places, p.row ≠ hashRow := by
    intro p mem same
    refine (nodup_cons.mp chained.nodup).1 (mem_map.mpr ⟨(p.key, p.row), ?_, same⟩)
    exact mem_map.mpr ⟨p, mem, rfl⟩
  rw [acceptRow_eq, tuples]
  refine ⟨⟨chained, ?_, room⟩, ?_, put_snoc loaded.put row, ?_⟩
  · intro p mem
    rcases mem_cons.mp mem with rfl | old
    · exact Function.update_self ..
    · exact (Function.update_of_ne (fresh p old) ..).trans (loaded.stored.tuples p old)
  · have more : keyedRows (chunk ++ [row]) = keyedRows chunk ++ [row] := by
      rw [keyedRows, keyedRows, filter_append, filter_cons_of_pos (by simp [isKey]),
        filter_nil]
    have isRow : toRow ⟨row.tuple, key, hashRow⟩ = row := by
      rw [toRow, ← isKey]
    rw [more, map_cons, isRow]
    exact (loaded.rows.cons row).trans (perm_append_singleton row _).symm
  · intro watched
    rw [if_watchTraversed watched]
    exact (loaded.filter watched).insert (chained.inside key hashRow mem_cons_self)

variable (j) in
/-- What a traversal of rows does besides loading them. -/
structure Traversed (s : JoinState τ μ) (outer : Nat) (part : List (JoinerRow τ))
    (t : Traversal τ μ) : Prop where
  newMind : t.state.newMind.Perm (j.nullTuples part ++ s.newMind)
  outerTuples : t.outerTuples = outer + (j.nullTuples part).length
  setup : t.state.jhash.setup = s.jhash.setup
  filter : j.watch ≠ .traversed → t.state.outerFilter = s.outerFilter

theorem nullTuples_nil : j.nullTuples [] = [] := by
  rw [nullTuples]
  split <;> rfl

theorem nullTuples_key (isKey : row.key = some key) (part : List (JoinerRow τ)) :
    j.nullTuples (row :: part) = j.nullTuples part := by
  rw [nullTuples, nullTuples, filter_cons_of_neg (by simp [isKey])]

theorem traverseRows_null (isNull : row.key = none) (rest : List (JoinerRow τ))
    (s : JoinState τ μ) (outer : Nat) :
    ∃ extra, j.traverseRows (row :: rest) s outer = j.traverseRows rest
        { putRow s row with newMind := extra ++ s.newMind } (outer + extra.length) ∧
      ∀ part, j.nullTuples (row :: part) = extra ++ j.nullTuples part := by
  rw [traverseRows]
  simp only [nullTuples, filter_cons, isNull]
  cases j.watchTraversed with
  | true => exact ⟨[(some row.tuple, none)], rfl, fun _ => rfl⟩
  | false => exact ⟨[], rfl, fun _ => rfl⟩

theorem traversed_nil (s : JoinState τ μ) (h : JoinerHashTable) (setup : h.setup = s.jhash.setup)
    (put : List (JoinerRow τ)) (outer : Nat) (rest : List (JoinerRow τ)) (stop : Bool) :
    Traversed j s outer [] ⟨rest, { s with jhash := h, put := put }, outer, stop⟩ where
  newMind := by rw [nullTuples_nil]; exact Perm.refl _
  outerTuples := by rw [nullTuples_nil]; rfl
  setup := setup
  filter := fun _ => rfl

section
variable {s₁ : JoinState τ μ} {outer outer₁ : Nat} {t : Traversal τ μ}
  (extra : List (Option τ × Option μ)) (newMind : s₁.newMind = extra ++ s.newMind)
  (count : outer₁ = outer + extra.length) (setup : s₁.jhash.setup = s.jhash.setup)
  (filter : j.watch ≠ .traversed → s₁.outerFilter = s.outerFilter)
include newMind count setup filter

/-- One row more at the front; `extra` are the outer tuples committed for it. -/
theorem Traversed.cons {part : List (JoinerRow τ)} (traversed : Traversed j s₁ outer₁ part t)
    (nulls : j.nullTuples (row :: part) = extra ++ j.nullTuples part) :
    Traversed j s outer (row :: part) t where
  newMind := by
    refine traversed.newMind.trans ?_
    rw [newMind, nulls, ← append_assoc]
    exact perm_append_comm.append_right _
  outerTuples := by rw [traversed.outerTuples, count, nulls, length_append, add_assoc]
  setup := traversed.setup.trans setup
  filter := fun unwatched => (traversed.filter unwatched).trans (filter unwatched)

variable (j sized) in
/-- What a traversal of rows leaves if it was not given up. -/
def LoadsPart (rows : List (JoinerRow τ)) (s : JoinState τ μ) (outer : Nat)
    (chunk : List (JoinerRow τ)) (t : Traversal τ μ) : Prop :=
  ∃ part places, rows = part ++ t.rest ∧ Loaded j sized t.state (chunk ++ part) places ∧
    Traversed j s outer part t ∧
    (rows ≠ [] → s.jhash.noOfOccupied < s.jhash.rowsLimit → part ≠ [])

theorem LoadsPart.cons {rest : List (JoinerRow τ)}
    (loads : LoadsPart j sized rest s₁ outer₁ (chunk ++ [row]) t)
    (nulls : ∀ part, j.nullTuples (row :: part) = extra ++ j.nullTuples part) :
    LoadsPart j sized (row :: rest) s outer chunk t := by
  obtain ⟨part, places, split, loaded, traversed, -⟩ := loads
  refine ⟨row :: part, places, by rw [split]; rfl, ?_,
    traversed.cons extra newMind count setup filter (nulls part), fun _ _ => cons_ne_nil _ _⟩
  rwa [append_assoc] at loaded

end

theorem traverseRows_loads (tuples : j.withoutTuples = false) (rows : List (JoinerRow τ)) :
    ∀ s outer chunk places,
      Loaded j sized s chunk places → s.jhash.rowsLimit < noRows →
      ∃ t, j.traverseRows rows s outer = some t ∧
        (t.tooManyConflicts = true ∧ j.forceSwitchingSides = false ∨
          t.tooManyConflicts = false ∧ LoadsPart j sized rows s outer chunk t) := by
  induction rows with
  | nil =>
    intro s outer chunk places loaded _
    refine ⟨_, rfl, .inr ⟨rfl, [], places, rfl, ?_, ?_, fun absurd' => absurd rfl absurd'⟩⟩
    · rw [append_nil]
      exact loaded
    · exact traversed_nil s s.jhash rfl s.put outer [] false
  | cons row rest ih =>
    intro s outer chunk places loaded limit
    cases isKey : row.key with
    | none =>
      obtain ⟨extra, run, nulls⟩ := @traverseRows_null _ _ j row isKey rest s outer
      obtain ⟨t, result, outcome⟩ := ih _ _ _ places (loaded.putRow_null isKey _) limit
      refine ⟨t, run.trans result, outcome.imp_right fun ⟨done, loads⟩ => ⟨done, ?_⟩⟩
      exact loads.cons extra (by rfl) (by rfl) (by rfl) (fun _ => by rfl) nulls
    | some key =>
      rw [traverseRows, isKey]
      have chained := loaded.stored.chained
      have occupied := chained.occupied
      rw [length_map] at occupied
      dsimp only
      by_cases room : s.jhash.noOfOccupied < s.jhash.rowsLimit
      · have enough : (places.map fun p => (p.key, p.row)).length < noRows := by
          rw [length_map]
          omega
        obtain ⟨hashRow, h, inserted, setup, chained'⟩ := (chained.putKey key).insert key rfl enough
        have found := findAndAddCurrentRow_eq key chained.size room
        rw [inserted] at found
        rw [show (putRow s row).jhash = s.jhash from rfl, found]
        dsimp only
        by_cases conflicts : (!j.forceSwitchingSides && h.tooManyConflicts) = true
        · rw [if_pos conflicts]
          refine ⟨_, rfl, .inl ⟨rfl, ?_⟩⟩
          rw [Bool.and_eq_true, Bool.not_eq_true'] at conflicts
          exact conflicts.1
        · rw [if_neg conflicts]
          have accepted := loaded.accept tuples isKey (by omega) chained'
          rw [acceptRow_eq] at accepted ⊢
          have limit' : h.rowsLimit < noRows := by
            rw [rowsLimit_of_setup setup]
            exact limit
          obtain ⟨t, result, outcome⟩ := ih _ outer _ _ accepted limit'
          refine ⟨t, result, outcome.imp_right fun ⟨done, loads⟩ => ⟨done, ?_⟩⟩
          refine loads.cons [] (by rfl) (by rfl) setup (fun unwatched => ?_) (nullTuples_key isKey)
          exact if_neg fun watched => unwatched (of_decide_eq_true watched)
      · have full : (s.jhash.putKey key).findAndAddCurrentRow =
            some (none, s.jhash.putKey key) := if_pos (not_lt.mp room)
        rw [show (putRow s row).jhash = s.jhash from rfl, full]
        refine ⟨_, rfl, .inr ⟨rfl, [], places, rfl, ?_, ?_, fun _ more => absurd more room⟩⟩
        · rw [append_nil]
          exact ⟨⟨chained.putKey key, loaded.stored.tuples, loaded.stored.room⟩, loaded.rows,
            fun other mem => mem_cons_of_mem _ (loaded.put other mem),
            loaded.filter⟩
        · exact traversed_nil s (s.jhash.putKey key) rfl (row :: s.put) outer (row :: rest) false

end

/-! ## The matched rows that are still open -/

section
variable {τ μ : Type} (j : JoinerHash τ μ)

def JoinerHash.isOpen (rows : List (JoinerRow τ)) (n : Nat) : Bool :=
  match j.matchedRows[n]? with
  | none => false
  | some m => !rows.any (j.partner · m)

/-- Between passes the outer filter shows the matched rows without a partner so far. -/
def OpenShown (s : JoinState τ μ) (rows : List (JoinerRow τ)) : Prop :=
  s.outerFilter.Shows j.matchedRows.length (j.isOpen rows) ∧ s.outerFilter.delayedBlock ≤ -1 ∧
    s.outerFilter.delayedBlockSet = -1

variable {j} {chunk rows : List (JoinerRow τ)} {places : List (Seat τ)}

section
variable (perm : (places.map toRow).Perm (keyedRows chunk))
include perm

theorem any_partner_places (m : JoinerRow μ) :
    (∃ p ∈ places, j.fits p m = true) ↔ chunk.any (j.partner · m) = true := by
  rw [any_eq_true]
  constructor
  · rintro ⟨p, mem, fits⟩
    have isRow := perm.mem_iff.mp (mem_map.mpr ⟨p, mem, rfl⟩)
    exact ⟨p.toRow, mem_of_mem_filter isRow, fits⟩
  · rintro ⟨row, mem, isPartner⟩
    have isKeyed : row ∈ keyedRows chunk := by
      refine mem_filter.mpr ⟨mem, ?_⟩
      cases isKey : row.key with
      | none =>
        rw [partner_null isKey] at isPartner
        cases isPartner
      | some key => rfl
    obtain ⟨p, isPlace, rfl⟩ := mem_map.mp (perm.mem_iff.mpr isKeyed)
    exact ⟨p, isPlace, isPartner⟩

theorem mem_matched_of_pairs {n : Nat} {m : JoinerRow μ} (isRow : j.matchedRows[n]? = some m) :
    n ∈ (j.partners places (j.matchedRows.zipIdx 0)).map (·.2.2) ↔
      chunk.any (j.partner · m) = true := by
  rw [← any_partner_places perm m, mem_map]
  constructor
  · rintro ⟨⟨p, m', n'⟩, mem, rfl⟩
    obtain ⟨isPlace, isRow', fits⟩ := mem_partners.mp mem
    have same : m' = m := Option.some.inj (isRow'.symm.trans isRow)
    exact ⟨p, isPlace, same ▸ fits⟩
  · rintro ⟨p, isPlace, fits⟩
    exact ⟨(p, m, n), mem_partners.mpr ⟨isPlace, isRow, fits⟩, rfl⟩

theorem isOpen_append (n : Nat) :
    (j.isOpen rows n && decide (n ∉ (j.partners places (j.matchedRows.zipIdx 0)).map (·.2.2))) =
      j.isOpen (rows ++ chunk) n := by
  rw [isOpen, isOpen]
  cases isRow : j.matchedRows[n]? with
  | none => rfl
  | some m =>
    simp only [mem_matched_of_pairs perm isRow, any_append]
    cases chunk.any (j.partner · m) <;> simp

end

theorem pairs_inside {pair : Seat τ × JoinerRow μ × Nat}
    (mem : pair ∈ j.partners places (j.matchedRows.zipIdx 0)) :
    pair.1 ∈ places ∧ pair.2.2 < j.matchedRows.length := by
  obtain ⟨isPlace, isRow, -⟩ := mem_partners.mp mem
  exact ⟨isPlace, (List.getElem?_eq_some_iff.mp isRow).1⟩

end

/-! ## A pass -/

section
variable {τ μ : Type} {j : JoinerHash τ μ} {noRows : Nat} {sized : WellSized noRows}
  {s : JoinState τ μ} {chunk rows : List (JoinerRow τ)} {places : List (Seat τ)}

theorem Stored.row_lt (stored : Stored sized s places) {p : Seat τ} (mem : p ∈ places) :
    p.row < noRows :=
  stored.chained.inside p.key p.row (mem_map.mpr ⟨p, mem, rfl⟩)

theorem Loaded.matchDim (loaded : Loaded j sized s chunk places)
    (tuples : j.withoutTuples = false) (unlimited : j.tips.limit = none) :
    ∃ s', j.matchDim s = some (if j.outerNullsOnly then 0
          else (joined j.partner chunk j.matchedRows).length, s') ∧
      s'.jhash = s.jhash ∧ s'.tuples = s.tuples ∧
      s'.newMind.Perm (j.built ((joined j.partner chunk j.matchedRows).map pairOf) ++
        s.newMind) ∧
      (j.watch = .traversed → s'.outerFilter.Shows noRows fun r =>
        decide (r ∈ places.map row) &&
          decide (r ∉ (j.partners places (j.matchedRows.zipIdx 0)).map (·.1.row))) ∧
      (j.watch = .matched → OpenShown j s rows → OpenShown j s' (rows ++ chunk)) := by
  obtain ⟨s₁, found, scanned⟩ := matchPackrows_scanned tuples unlimited j.matched 0 0 s
    loaded.stored loaded.seen
  have pairs := pairs_of_places (j := j) loaded.rows j.matchedRows
  have count : (j.partners places (j.matchedRows.zipIdx 0)).length =
      (joined j.partner chunk j.matchedRows).length := by
    have lengths := pairs.length_eq
    rwa [length_map, length_map] at lengths
  change j.matchPackrows j.matched 0 0 s =
    some (0 + (j.partners places (j.matchedRows.zipIdx 0)).length, s₁) at found
  rw [JoinerHash.matchDim, found]
  rw [zero_add, count]
  refine ⟨_, rfl, ?_, ?_, ?_, ?_, ?_⟩
  · split <;> exact scanned.jhash
  · split <;> exact scanned.tuples
  · have tuples' := scanned.newMind.trans ((j.built_perm pairs).append_right _)
    split <;> exact tuples'
  · intro watched
    rw [watchMatched_of_traversed watched]
    refine scanned.traversed watched (loaded.filter watched) fun r mem => ?_
    obtain ⟨pair, isPair, rfl⟩ := mem_map.mp mem
    exact loaded.stored.row_lt (pairs_inside isPair).1
  · rintro watched ⟨shown, noReset, noSet⟩
    have isMatched : j.watchMatched = true := decide_eq_true watched
    rw [isMatched]
    have pending := scanned.matched watched (shown.pending noReset noSet) fun n mem => by
      obtain ⟨pair, isPair, rfl⟩ := mem_map.mp mem
      exact (pairs_inside isPair).2
    obtain ⟨shown', noReset', noSet'⟩ := pending.commit
    exact ⟨shown'.congr fun n _ => isOpen_append loaded.rows n, noReset', noSet'⟩

/-! ### Traversed rows without a partner -/

theorem Stored.place_unique (stored : Stored sized s places) {p p' : Seat τ}
    (mem : p ∈ places) (mem' : p' ∈ places) (same : p.row = p'.row) : p = p' := by
  have nodup := stored.chained.nodup
  rw [map_map] at nodup
  exact inj_on_of_nodup_map nodup mem mem' same

def openPlaces (j : JoinerHash τ μ) (places : List (Seat τ)) : List (Seat τ) :=
  unmatchedLeft j.fits places j.matchedRows

theorem Stored.mem_openPlaces (stored : Stored sized s places) {r : Nat} :
    r ∈ (openPlaces j places).map row ↔ r ∈ places.map row ∧
      r ∉ (j.partners places (j.matchedRows.zipIdx 0)).map (·.1.row) := by
  constructor
  · intro mem
    obtain ⟨p, isOpen, rfl⟩ := mem_map.mp mem
    obtain ⟨isPlace, alone⟩ := mem_filter.mp isOpen
    refine ⟨mem_map.mpr ⟨p, isPlace, rfl⟩, fun inPairs => ?_⟩
    obtain ⟨⟨p', m, n⟩, isPair, same⟩ := mem_map.mp inPairs
    obtain ⟨isPlace', isRow, fits⟩ := mem_partners.mp isPair
    obtain rfl := stored.place_unique isPlace' isPlace same
    rw [Bool.not_eq_true', any_eq_false] at alone
    exact alone m (mem_of_getElem? isRow) fits
  · rintro ⟨inPlaces, notInPairs⟩
    obtain ⟨p, isPlace, rfl⟩ := mem_map.mp inPlaces
    refine mem_map.mpr ⟨p, mem_filter.mpr ⟨isPlace, ?_⟩, rfl⟩
    rw [Bool.not_eq_true', any_eq_false]
    intro m mem fits
    obtain ⟨n, isRow⟩ := mem_iff_getElem?.mp mem
    exact notInPairs (mem_map.mpr ⟨(p, m, n), mem_partners.mpr ⟨isPlace, isRow, fits⟩, rfl⟩)

theorem commitOuter_rows (rows : List Nat) :
    ∀ s : JoinState τ μ,
      rows.foldl (fun s hashRow => s.commitTuple (s.tuples hashRow, none)) s =
        { s with newMind := (rows.map fun r => (s.tuples r, none)).reverse ++ s.newMind } := by
  induction rows with
  | nil => exact fun s => rfl
  | cons r rows ih =>
    intro s
    rw [foldl_cons, ih, map_cons, reverse_cons, append_assoc]
    rfl

theorem ones_eq_length (bits : Nat → Bool) (n : Nat) :
    ones bits n = ((range n).filter bits).length := by
  induction n with
  | zero => rfl
  | succ n ih =>
    rw [ones_succ, ih, range_succ, filter_append]
    cases bit : bits n <;> simp [bit]

section
variable (stored : Stored sized s places)
  (shown : s.outerFilter.Shows noRows fun r => decide (r ∈ places.map row) &&
    decide (r ∉ (j.partners places (j.matchedRows.zipIdx 0)).map (·.1.row)))
include stored shown

theorem Stored.bits_perm : ((range noRows).filter s.outerFilter.get).Perm
      ((openPlaces j places).map row) := by
  have nodup : ((openPlaces j places).map row).Nodup := by
    have all := stored.chained.nodup
    rw [map_map] at all
    exact all.sublist (Sublist.map row filter_sublist)
  refine (perm_ext_iff_of_nodup (nodup_range.filter _) nodup).mpr fun r => ?_
  rw [mem_filter, mem_range, stored.mem_openPlaces]
  constructor
  · rintro ⟨inside, bit⟩
    rw [shown.get_eq inside, Bool.and_eq_true, decide_eq_true_iff, decide_eq_true_iff] at bit
    exact bit
  · rintro ⟨inPlaces, notInPairs⟩
    obtain ⟨p, isPlace, rfl⟩ := mem_map.mp inPlaces
    have inside := stored.row_lt isPlace
    refine ⟨inside, ?_⟩
    rw [shown.get_eq inside, Bool.and_eq_true, decide_eq_true_iff, decide_eq_true_iff]
    exact ⟨inPlaces, notInPairs⟩

theorem Stored.submitOuterTraversed :
    ∃ newMind, j.submitOuterTraversed s =
        ((openPlaces j places).length, { s with newMind := newMind }) ∧
      (j.tips.countOnly = false → newMind.Perm
        ((openPlaces j places).map (fun p => (some p.tuple, none)) ++ s.newMind)) := by
  have perm := stored.bits_perm shown
  rw [JoinerHash.submitOuterTraversed]
  cases counting : j.tips.countOnly with
  | true =>
    refine ⟨s.newMind, ?_, fun building => by cases building⟩
    have same : s.outerFilter.noOnes = (openPlaces j places).length := by
      rw [shown.noOnes_eq, ones_eq_length, ← length_map row, ← perm.length_eq]
      refine congrArg length (filter_congr fun r mem => ?_)
      exact (shown.get_eq (mem_range.mp mem)).symm
    rw [if_pos rfl, same]
  | false =>
    have size : s.jhash.noRows = noRows := stored.chained.size
    dsimp only
    rw [commitOuter_rows, size, perm.length_eq, length_map]
    refine ⟨_, rfl, fun _ => Perm.append_right _ ?_⟩
    refine (reverse_perm _).trans ?_
    exact stored.map_perm (fun p mem => mem_of_mem_filter mem) perm
      fun tuple _ => (tuple, none)

end

theorem outerTuples_of_places (watched : j.watch = .traversed)
    (perm : (places.map toRow).Perm (keyedRows chunk)) :
    ((openPlaces j places).map (fun p => (some p.tuple, (none : Option μ))) ++
        j.nullTuples chunk).Perm
      ((unmatchedLeft j.partner chunk j.matchedRows).map fun row => (some row.tuple, none)) := by
  have openRows : ((openPlaces j places).map toRow).Perm
      (unmatchedLeft j.partner (keyedRows chunk) j.matchedRows) := by
    have same : (openPlaces j places).map toRow =
        unmatchedLeft j.partner (places.map toRow) j.matchedRows := by
      rw [openPlaces, unmatchedLeft, unmatchedLeft, filter_map]
      rfl
    rw [same]
    exact unmatchedLeft_perm perm
  have nulls : unmatchedLeft j.partner (chunk.filter (·.key.isNone)) j.matchedRows =
      chunk.filter (·.key.isNone) := by
    refine filter_eq_self.mpr fun row mem => ?_
    have isNull := Option.isNone_iff_eq_none.mp (mem_filter.mp mem).2
    rw [Bool.not_eq_true', any_eq_false]
    intro m _
    rw [partner_null isNull]
    exact Bool.false_ne_true
  have parts : (keyedRows chunk ++ chunk.filter (·.key.isNone)).Perm chunk := by
    have split := filter_append_perm (fun row : JoinerRow τ => row.key.isSome) chunk
    simp only [Option.not_isSome] at split
    exact split
  have all := (@unmatchedLeft_perm _ _ j.partner _ _ j.matchedRows parts).symm
  rw [unmatchedLeft_append, nulls] at all
  rw [nullTuples, if_watchTraversed watched]
  refine trans ?_ (all.map _).symm
  rw [map_append]
  refine Perm.append_right _ ?_
  have tuples := openRows.map fun row : JoinerRow τ => (some row.tuple, (none : Option μ))
  rwa [map_map] at tuples

end

/-! ## All passes -/

section
variable {τ μ : Type} (j : JoinerHash τ μ)

/-- The state between passes after the rows given were traversed. -/
structure Progress (h : JoinerHashTable) (rows : List (JoinerRow τ)) (joinedTuples outer : Nat)
    (s : JoinState τ μ) : Prop where
  setup : s.jhash.setup = h.setup
  joinedTuples : joinedTuples =
    if j.outerNullsOnly then 0 else (joined j.partner rows j.matchedRows).length
  outer : outer = if j.watch = .traversed then
    (unmatchedLeft j.partner rows j.matchedRows).length else 0
  newMind : j.tips.countOnly = false → s.newMind.Perm
    (j.kept ((joined j.partner rows j.matchedRows).map pairOf) ++
      if j.watch = .traversed then
        (unmatchedLeft j.partner rows j.matchedRows).map fun row => (some row.tuple, none)
      else [])
  traversed : j.watch = .traversed → ∃ bits, s.outerFilter.Shows h.noRows bits
  matched : j.watch = .matched → OpenShown j s rows

def JoinerHash.outerPart (s : JoinState τ μ) : Nat × JoinState τ μ :=
  if j.watchMatched && !s.outerFilter.isEmpty then j.submitOuterMatched s else (0, s)

variable {j} {h : JoinerHashTable} {rows : List (JoinerRow τ)} {joinedTuples outer : Nat}
  {s : JoinState τ μ}

theorem chained_clearAll {h : JoinerHashTable} {noRows : Nat} (sized : WellSized noRows)
    (size : h.noRows = noRows) (limit : h.rowsLimit < noRows) (tuples : h.forCountOnly = false) :
    Chained sized h.clearAll [] := by
  subst size
  have fresh : Fresh h.clearAll := ⟨sized, limit, rfl, fun _ => rfl⟩
  exact fresh.chained tuples

theorem startPass_eq (s : JoinState τ μ) :
    j.startPass s = ⟨s.jhash.clearAll, [], fun _ => none,
      if j.watchTraversed then s.outerFilter.resetAll else s.outerFilter, s.newMind⟩ := by
  rw [startPass]
  cases j.watchTraversed <;> rfl

theorem Progress.loaded (progress : Progress j h rows joinedTuples outer s)
    (fresh : Fresh h) (tuples : h.forCountOnly = false) :
    Loaded j fresh.sized (j.startPass s) [] [] := by
  have setup := progress.setup
  have chained := chained_clearAll fresh.sized (noRows_of_setup setup)
    (by rw [rowsLimit_of_setup setup]; exact fresh.limit)
    ((forCountOnly_of_setup setup).trans tuples)
  rw [startPass_eq]
  refine ⟨⟨chained, fun p mem => absurd mem not_mem_nil, Nat.zero_lt_of_lt fresh.limit⟩,
    Perm.refl _, fun row mem => absurd mem not_mem_nil, fun watched => ?_⟩
  obtain ⟨bits, shown⟩ := progress.traversed watched
  rw [if_watchTraversed watched]
  exact shown.resetAll.congr fun r _ => rfl

theorem kept_perm {tuples tuples' : List (Option τ × Option μ)} (perm : tuples.Perm tuples') :
    (j.kept tuples).Perm (j.kept tuples') := by
  rw [kept, kept]
  split
  · exact Perm.refl _
  · exact perm

theorem kept_joined_append (rows part : List (JoinerRow τ)) :
    (j.kept ((joined j.partner (rows ++ part) j.matchedRows).map pairOf)).Perm
      (j.kept ((joined j.partner part j.matchedRows).map pairOf) ++
        j.kept ((joined j.partner rows j.matchedRows).map pairOf)) := by
  rw [← kept_append, ← map_append]
  refine kept_perm (Perm.map _ ?_)
  exact (@joined_append_left _ _ j.partner rows part j.matchedRows).trans perm_append_comm

variable {part : List (JoinerRow τ)} {t : Traversal τ μ} {s₁ s₂ : JoinState τ μ}

theorem joinedTuples_append (count : joinedTuples =
      if j.outerNullsOnly then 0 else (joined j.partner rows j.matchedRows).length)
    (part : List (JoinerRow τ)) :
    joinedTuples + (if j.outerNullsOnly then 0
      else (joined j.partner part j.matchedRows).length) = if j.outerNullsOnly then 0
      else (joined j.partner (rows ++ part) j.matchedRows).length := by
  have parts := (@joined_append_left _ _ j.partner rows part j.matchedRows).length_eq
  rw [length_append] at parts
  rw [count, parts]
  split <;> rfl

section
variable (progress : Progress j h rows joinedTuples outer s)
include progress

theorem Progress.newMind_scan (building : j.tips.countOnly = false)
    (traversed : t.state.newMind.Perm (j.nullTuples part ++ s.newMind))
    (scanned : s₁.newMind.Perm (j.built ((joined j.partner part j.matchedRows).map pairOf) ++
      t.state.newMind)) :
    s₁.newMind.Perm (j.nullTuples part ++
      (j.kept ((joined j.partner (rows ++ part) j.matchedRows).map pairOf) ++
        if j.watch = .traversed then
          (unmatchedLeft j.partner rows j.matchedRows).map fun row => (some row.tuple, none)
        else [])) := by
  rw [built, building] at scanned
  refine scanned.trans ((traversed.append_left _).trans ?_)
  refine (((progress.newMind building).append_left _).append_left _).trans ?_
  refine trans ?_ (((kept_joined_append rows part).symm.append_right _).append_left _)
  rw [append_assoc, ← append_assoc, ← append_assoc (j.nullTuples part)]
  exact perm_append_comm.append_right _

theorem Progress.submitTraversed (watched : j.watch = .traversed) {found : Nat}
    {newMind : List (Option τ × Option μ)} {places : List (Seat τ)} {bits : Nat → Bool}
    (perm : (places.map toRow).Perm (keyedRows part)) (setup : s₁.jhash.setup = h.setup)
    (joinedCount : joinedTuples + found = if j.outerNullsOnly then 0 else
      (joined j.partner (rows ++ part) j.matchedRows).length)
    (shown : s₁.outerFilter.Shows h.noRows bits)
    (scanned : j.tips.countOnly = false → s₁.newMind.Perm
      (j.nullTuples part ++ (j.kept ((joined j.partner (rows ++ part) j.matchedRows).map pairOf) ++
      (unmatchedLeft j.partner rows j.matchedRows).map fun row => (some row.tuple, none))))
    (submitted : j.tips.countOnly = false → newMind.Perm
      ((openPlaces j places).map (fun p => (some p.tuple, none)) ++ s₁.newMind)) :
    Progress j h (rows ++ part) (joinedTuples + found)
      (outer + (j.nullTuples part).length + (openPlaces j places).length)
      { s₁ with newMind := newMind } := by
  have outerPerm := outerTuples_of_places watched perm
  refine ⟨setup, joinedCount, ?_, fun building => ?_, fun _ => ⟨bits, shown⟩,
    fun isMatched => by rw [watched] at isMatched; cases isMatched⟩
  · have count := outerPerm.length_eq
    rw [length_append, length_map, length_map] at count
    rw [progress.outer, if_pos watched, if_pos watched, unmatchedLeft_append, length_append]
    omega
  · rw [if_pos watched]
    refine (submitted building).trans (((scanned building).append_left _).trans ?_)
    rw [← append_assoc, unmatchedLeft_append, map_append]
    refine (outerPerm.append_right _).trans ?_
    refine perm_append_comm.trans ?_
    rw [append_assoc]

end

variable (j) in
/-- A pass over a part of the rows, unless the join gives up. -/
def PassKeeps (GaveUp : Prop) (rest : List (JoinerRow τ)) (outer : Nat) (s : JoinState τ μ)
    (Kept : List (JoinerRow τ) → List (JoinerRow τ) → Nat → Nat → JoinState τ μ → Prop) : Prop :=
  ∃ t, j.traverseDim rest s outer = some t ∧ (t.tooManyConflicts = true ∧ GaveUp ∨
    t.tooManyConflicts = false ∧ ∃ part found s₁ added s₂, rest = part ++ t.rest ∧ part ≠ [] ∧
      j.matchDim t.state = some (found, s₁) ∧
      (if j.watchTraversed then j.submitOuterTraversed s₁ else (0, s₁)) = (added, s₂) ∧
      Kept part t.rest found (t.outerTuples + added) s₂)

theorem Progress.pass {rest : List (JoinerRow τ)}
    (progress : Progress j h rows joinedTuples outer s) (fresh : Fresh h)
    (positive : 0 < h.rowsLimit) (table : h.forCountOnly = false)
    (tuples : j.withoutTuples = false) (unlimited : j.tips.limit = none) (more : rest ≠ []) :
    PassKeeps j (j.forceSwitchingSides = false) rest outer s
      fun part _ found => Progress j h (rows ++ part) (joinedTuples + found) := by
  have start := startPass_eq (j := j) s
  have setup₀ : (j.startPass s).jhash.setup = h.setup := by
    rw [start]
    exact progress.setup
  have limit₀ := rowsLimit_of_setup setup₀
  obtain ⟨t, traversal, outcome⟩ := traverseRows_loads tuples rest (j.startPass s) outer [] []
    (progress.loaded fresh table) (by rw [limit₀]; exact fresh.limit)
  refine ⟨t, traversal, outcome.imp_right fun ⟨done, loads⟩ => ⟨done, ?_⟩⟩
  obtain ⟨part, places, split, loaded, traversed, advances⟩ := loads
  have partNonempty : part ≠ [] := by
    refine advances more ?_
    rw [limit₀, start]
    exact positive
  obtain ⟨s₁, found, sameTable, sameTuples, newMind, openTraversed, openMatched⟩ :=
    @Loaded.matchDim _ _ j _ _ t.state part rows places loaded tuples unlimited
  have setup₁ : s₁.jhash.setup = h.setup := by
    rw [sameTable, traversed.setup, setup₀]
  have nullMind : t.state.newMind.Perm (j.nullTuples part ++ s.newMind) := by
    have perm := traversed.newMind
    rwa [start] at perm
  have scannedMind := fun building => progress.newMind_scan building nullMind newMind
  refine ⟨part, (if j.outerNullsOnly then 0 else (joined j.partner part j.matchedRows).length),
    s₁, ?_⟩
  by_cases watched : j.watch = .traversed
  · have stored : Stored fresh.sized s₁ places := ⟨by rw [sameTable]; exact loaded.stored.chained,
      by rw [sameTuples]; exact loaded.stored.tuples, loaded.stored.room⟩
    obtain ⟨newMind₂, submitted, outerMind⟩ :=
      stored.submitOuterTraversed (j := j) (openTraversed watched)
    rw [if_pos watched] at scannedMind
    rw [if_watchTraversed watched, submitted, traversed.outerTuples]
    refine ⟨_, _, split, partNonempty, found, rfl, ?_⟩
    exact progress.submitTraversed watched loaded.rows setup₁
      (joinedTuples_append progress.joinedTuples part)
      (openTraversed watched) scannedMind outerMind
  · have unwatched : j.watchTraversed = false := decide_eq_false watched
    have noNulls : j.nullTuples part = [] := by
      rw [nullTuples, unwatched, if_neg Bool.false_ne_true]
    rw [noNulls] at scannedMind
    refine ⟨0, s₁, split, partNonempty, found, by rw [unwatched, if_neg Bool.false_ne_true], ?_⟩
    refine ⟨setup₁, joinedTuples_append progress.joinedTuples part, ?_, ?_, fun isTraversed =>
      absurd isTraversed watched, fun isMatched => ?_⟩
    · rw [traversed.outerTuples, noNulls, progress.outer, if_neg watched, if_neg watched]
      rfl
    · rw [if_neg watched] at scannedMind ⊢
      exact scannedMind
    · refine openMatched isMatched ?_
      have sameFilter := traversed.filter watched
      rw [start, unwatched] at sameFilter
      rw [OpenShown, sameFilter]
      exact progress.matched isMatched

section
variable {GaveUp : Prop}
  {K : Nat → List (JoinerRow τ) → List (JoinerRow τ) → Nat → Nat → JoinState τ μ → Prop}
  (unlimited : j.tips.limit = none)
  (pass : ∀ {turns rest rows joinedTuples outer s}, rest ≠ [] →
    K (turns + 1) rest rows joinedTuples outer s → PassKeeps j GaveUp rest outer s
      fun part rest' found => K turns rest' (rows ++ part) (joinedTuples + found))
include unlimited pass

theorem passes_keep (turns : Nat) :
    ∀ rest rows joinedTuples outer s,
      rest.length ≤ turns → K turns rest rows joinedTuples outer s →
      j.passes turns rest joinedTuples outer s = some none ∧ GaveUp ∨
        ∃ turns' joinedTuples' outer' s',
          j.passes turns rest joinedTuples outer s = some (some (joinedTuples', outer', s')) ∧
          K turns' [] (rows ++ rest) joinedTuples' outer' s' := by
  induction turns with
  | zero =>
    intro rest rows joinedTuples outer s short kept
    obtain rfl := eq_nil_of_length_eq_zero (Nat.eq_zero_of_le_zero short)
    rw [append_nil]
    exact .inr ⟨0, joinedTuples, outer, s, rfl, kept⟩
  | succ turns ih =>
    intro rest rows joinedTuples outer s short kept
    cases rest with
    | nil =>
      rw [append_nil]
      exact .inr ⟨turns + 1, joinedTuples, outer, s, rfl, kept⟩
    | cons row rest =>
      obtain ⟨t, traversal, outcome⟩ := pass (cons_ne_nil row rest) kept
      rw [passes, traversal]
      dsimp only
      rcases outcome with ⟨conflicts, gaveUp⟩ | ⟨done, part, found, s₁, added, s₂, split,
        nonempty, scan, submitted, kept'⟩
      · exact .inl ⟨by rw [if_pos conflicts], gaveUp⟩
      · have shorter : t.rest.length ≤ turns := by
          have length := congrArg length split
          rw [length_append] at length
          have some' := length_pos_iff.mpr nonempty
          omega
        have next := ih t.rest (rows ++ part) (joinedTuples + found) (t.outerTuples + added) s₂
          shorter kept'
        rw [append_assoc, ← split] at next
        rw [done, scan]
        dsimp only
        rw [submitted]
        rw [limitReached_none unlimited]
        exact next

theorem executeJoin_keeps {f : Filter} {total : Nat} {Result : List (Option τ × Option μ) → Prop}
    (made : j.initOuter h = .ok f)
    (start : K j.traversed.length j.traversed [] 0 0 ⟨h, [], fun _ => none, f, []⟩)
    (skip : j.traversed = [] ∨ j.matchedRows = [] →
      K 0 [] j.traversed 0 0 ⟨h, [], fun _ => none, f, []⟩)
    (finish : ∀ {turns joinedTuples outer s}, K turns [] j.traversed joinedTuples outer s →
      joinedTuples + (outer + (j.outerPart s).1) = total ∧ Result (j.outerPart s).2.newMind) :
    j.executeJoin h = some (.ok .wrongSides) ∧ GaveUp ∧ j.traversed ≠ [] ∧ j.matchedRows ≠ [] ∨
      ∃ newMind, j.executeJoin h = some (.ok (.committed total newMind)) ∧ Result newMind := by
  rw [executeJoin, made]
  dsimp only
  by_cases both : (decide (0 < j.traversed.length) && decide (0 < j.matchedRows.length)) = true
  · rw [if_pos both]
    rw [Bool.and_eq_true, decide_eq_true_iff, decide_eq_true_iff] at both
    rcases passes_keep unlimited pass j.traversed.length j.traversed [] 0 0 _ (le_refl _) start
      with ⟨ended, gaveUp⟩ | ⟨turns, joinedTuples, outer, s, ran, kept⟩
    · rw [ended]
      exact .inl ⟨rfl, gaveUp, ne_nil_of_length_pos both.1, ne_nil_of_length_pos both.2⟩
    · obtain ⟨count, result⟩ := finish kept
      rw [ran, ← count]
      exact .inr ⟨_, rfl, result⟩
  · rw [if_neg both]
    rw [Bool.and_eq_true, decide_eq_true_iff, decide_eq_true_iff, length_pos_iff,
      length_pos_iff, not_and_or, not_not, not_not] at both
    obtain ⟨count, result⟩ := finish (skip both)
    rw [← count]
    exact .inr ⟨_, rfl, result⟩

end

end

/-! ## The whole join -/

theorem Filter.Shows.isEmpty {f : Filter} {rows : Nat} {bits : Nat → Bool}
    (shown : f.Shows rows bits) (empty : f.isEmpty = true) : ∀ n < rows, bits n = false := by
  intro n lt
  rw [← shown.get_eq lt, get]
  split
  · rfl
  · have inside := shown.block_lt lt
    have status := all_eq_true.mp empty _ (mem_range.mpr inside)
    rw [Slot.get, of_decide_eq_true status]

section
variable {τ μ : Type} {j : JoinerHash τ μ} {h : JoinerHashTable} {rows : List (JoinerRow τ)}

theorem submitUnmatched_eq (ms : List (JoinerRow μ)) :
    ∀ (i : Nat) (s : JoinState τ μ),
      (∀ k m, ms[k]? = some m → s.outerFilter.get (i + k) = !rows.any (j.partner · m)) →
      submitUnmatched ms i s = ((unmatchedRight j.partner rows ms).length,
        { s with newMind := ((unmatchedRight j.partner rows ms).map fun m =>
            (none, some m.tuple)).reverse ++ s.newMind }) := by
  induction ms with
  | nil =>
    intro i s _
    rfl
  | cons m ms ih =>
    intro i s bits
    have first : s.outerFilter.get i = !rows.any (j.partner · m) := bits 0 m rfl
    have later : ∀ k m', ms[k]? = some m' →
        s.outerFilter.get (i + 1 + k) = !rows.any (j.partner · m') := by
      intro k m' isRow
      rw [add_assoc, add_comm 1]
      exact bits (k + 1) m' isRow
    rw [submitUnmatched, first, unmatchedRight_cons]
    cases rows.any (j.partner · m) with
    | false =>
      rw [if_neg Bool.false_ne_true, Bool.not_false,
        ih (i + 1) (s.commitTuple (none, some m.tuple)) later]
      rw [map_cons, reverse_cons, append_assoc]
      rfl
    | true =>
      exact ih (i + 1) s later

theorem unmatchedRight_of_empty {s : JoinState τ μ} (shown : OpenShown j s rows)
    (empty : s.outerFilter.isEmpty = true) : unmatchedRight j.partner rows j.matchedRows = [] := by
  refine filter_eq_nil_iff.mpr fun m mem alone => ?_
  obtain ⟨n, isRow⟩ := mem_iff_getElem?.mp mem
  have closed := shown.1.isEmpty empty n (List.getElem?_eq_some_iff.mp isRow).1
  rw [isOpen, isRow] at closed
  dsimp only at closed
  rw [alone] at closed
  cases closed

theorem ones_isOpen (rows : List (JoinerRow τ)) :
    ones (j.isOpen rows) j.matchedRows.length =
      (unmatchedRight j.partner rows j.matchedRows).length := by
  have general : ∀ ms : List (JoinerRow μ), ones (fun n => match ms[n]? with
      | none => false
      | some m => !rows.any (j.partner · m)) ms.length =
        (unmatchedRight j.partner rows ms).length := by
    intro ms
    induction ms using reverseRecOn with
    | nil => rfl
    | append_singleton ms m ih =>
      rw [length_append, length_singleton, ones_succ, unmatchedRight, filter_append, length_append]
      have before : ones (fun n => match (ms ++ [m])[n]? with
          | none => false
          | some m => !rows.any (j.partner · m)) ms.length = ones (fun n => match ms[n]? with
          | none => false
          | some m => !rows.any (j.partner · m)) ms.length := by
        refine ones_congr fun n lt => ?_
        rw [getElem?_append_left lt]
      rw [before, ih]
      refine congrArg (_ + ·) ?_
      cases alone : rows.any (j.partner · m) <;> simp [alone]
  exact general j.matchedRows

theorem submitOuterMatched_eq {s : JoinState τ μ} (shown : OpenShown j s rows) :
    ∃ newMind, (if j.watchMatched && !s.outerFilter.isEmpty then j.submitOuterMatched s
        else (0, s)) = (if j.watchMatched then (unmatchedRight j.partner rows j.matchedRows).length
          else 0, { s with newMind := newMind }) ∧
      (j.tips.countOnly = false → newMind.Perm ((if j.watchMatched then
        (unmatchedRight j.partner rows j.matchedRows).map fun m => (none, some m.tuple)
        else []) ++ s.newMind)) := by
  cases j.watchMatched with
  | false => exact ⟨s.newMind, rfl, fun _ => Perm.refl _⟩
  | true =>
    rw [Bool.true_and, if_pos rfl]
    cases empty : s.outerFilter.isEmpty with
    | true =>
      rw [unmatchedRight_of_empty shown empty]
      exact ⟨s.newMind, rfl, fun _ => Perm.refl _⟩
    | false =>
      rw [Bool.not_false, if_pos rfl, submitOuterMatched]
      cases j.tips.countOnly with
      | true =>
        refine ⟨s.newMind, ?_, fun building => by cases building⟩
        rw [if_pos rfl, shown.1.noOnes_eq, ones_isOpen]
      | false =>
        have bits : ∀ k m, j.matchedRows[k]? = some m →
            s.outerFilter.get (0 + k) = !rows.any (j.partner · m) := by
          intro k m isRow
          rw [zero_add, shown.1.get_eq (List.getElem?_eq_some_iff.mp isRow).1, isOpen, isRow]
        rw [submitUnmatched_eq j.matchedRows 0 s bits]
        exact ⟨_, rfl, fun _ => (reverse_perm _).append_right _⟩

variable {f : Filter}

theorem progress_start (made : j.initOuter h = .ok f) :
    Progress j h [] 0 0 ⟨h, [], fun _ => none, f, []⟩ where
  setup := rfl
  joinedTuples := by
    rw [joined_nil_left]
    split <;> rfl
  outer := by split <;> rfl
  newMind := by
    intro _
    rw [joined_nil_left, kept]
    split <;> split <;> exact Perm.refl _
  traversed := by
    intro watched
    have isTraversed : j.watchTraversed = true := decide_eq_true watched
    rw [initOuter, watchMatched_of_traversed watched, isTraversed] at made
    exact ⟨_, Filter.ofRows_shows made⟩
  matched := by
    intro watched
    have isMatched : j.watchMatched = true := decide_eq_true watched
    rw [initOuter, isMatched, if_pos rfl] at made
    refine ⟨(Filter.ofRows_shows made).congr fun n lt => ?_, ?_⟩
    · rw [isOpen, getElem?_eq_getElem lt]
      rfl
    · rw [Filter.ofRows] at made
      split at made
      · cases made
      · cases made
        exact ⟨le_refl _, rfl⟩

theorem Progress.finish {joinedTuples outer : Nat} {s : JoinState τ μ}
    (progress : Progress j h j.traversed joinedTuples outer s) :
    joinedTuples + (outer + (j.outerPart s).1) = j.expected.length ∧
      (j.tips.countOnly = false → (j.outerPart s).2.newMind.Perm j.expected) := by
  have pairs : (j.kept ((joined j.partner j.traversed j.matchedRows).map
      pairOf)).length = joinedTuples := by
    rw [progress.joinedTuples, kept]
    split
    · rfl
    · rw [length_map]
  rw [expected, length_append, pairs, outerTuples, outerPart]
  have outerCount := progress.outer
  have newMind := progress.newMind
  cases watch : j.watch with
  | neither =>
    have notMatched : j.watchMatched = false := by rw [watchMatched, watch]; rfl
    rw [watch] at outerCount newMind
    rw [notMatched, Bool.false_and, outerCount]
    exact ⟨rfl, newMind⟩
  | traversed =>
    rw [watch] at outerCount newMind
    rw [watchMatched_of_traversed watch, Bool.false_and, outerCount]
    exact ⟨by rw [length_map]; rfl, newMind⟩
  | matched =>
    have isMatched : j.watchMatched = true := decide_eq_true watch
    rw [watch, if_neg (by decide)] at outerCount newMind
    obtain ⟨newMind', submitted, outerMind⟩ := submitOuterMatched_eq (progress.matched watch)
    rw [submitted, isMatched, if_pos rfl, outerCount, zero_add]
    refine ⟨by rw [length_map], fun building => ?_⟩
    have all := outerMind building
    rw [isMatched] at all
    refine all.trans (((newMind building).append_left _).trans ?_)
    rw [append_nil]
    exact perm_append_comm

theorem expected_of_nil (skipped : j.traversed = [] ∨ j.matchedRows = [])
    (watched : j.watch = .traversed → j.traversed = []) (made : j.initOuter h = .ok f) :
    Progress j h j.traversed 0 0 ⟨h, [], fun _ => none, f, []⟩ := by
  by_cases nothing : j.traversed = []
  · rw [nothing]
    exact progress_start made
  · have start := progress_start made
    have noMatched := skipped.resolve_left nothing
    have unwatched : j.watch ≠ .traversed := fun isTraversed => nothing (watched isTraversed)
    have pairs : joined j.partner j.traversed j.matchedRows = [] := by rw [noMatched]; rfl
    refine ⟨start.setup, ?_, ?_, ?_, start.traversed, fun isMatched => ?_⟩
    · rw [pairs]
      split <;> rfl
    · rw [if_neg unwatched]
    · intro _
      rw [pairs, kept]
      split <;> exact Perm.refl _
    · refine ⟨(start.matched isMatched).1.congr fun n lt => ?_, (start.matched isMatched).2⟩
      rw [noMatched] at lt
      exact absurd lt (Nat.not_lt_zero n)

/-- A join whose table holds the tuples commits the tuples of the join, or gives up because
of too many conflicts. -/
theorem executeJoin_tuples (fresh : Fresh h) (positive : 0 < h.rowsLimit)
    (table : h.forCountOnly = false) (tuples : j.withoutTuples = false)
    (unlimited : j.tips.limit = none) (made : j.initOuter h = .ok f)
    (sides : j.watch = .traversed → j.matchedRows = [] → j.traversed = []) :
    j.executeJoin h = some (.ok .wrongSides) ∧ j.forceSwitchingSides = false ∧
        j.traversed ≠ [] ∧ j.matchedRows ≠ [] ∨
      ∃ newMind, j.executeJoin h = some (.ok (.committed j.expected.length newMind)) ∧
        (j.tips.countOnly = false → newMind.Perm j.expected) := by
  exact executeJoin_keeps unlimited (K := fun _ _ => Progress j h)
    (fun more progress => progress.pass fresh positive table tuples unlimited more) made
    (progress_start made)
    (fun skipped => expected_of_nil skipped (fun watched => skipped.elim id (sides watched)) made)
    Progress.finish

end

end Brighthouse.Core
