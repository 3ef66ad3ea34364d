import Brighthouse.Core.JoinerHashEffects
import Brighthouse.Library.EquiJoin

/-!
# Scanning the matched side against a table with tuples

Each key of the traversed rows in the table has its place, a row of the table.  A scan of
matched rows deals with the pairs of places and matched rows that are partners, each pair
once, whether the rows come one by one, in a uniform packrow or in a packrow that is
omitted.
-/

set_option autoImplicit false

namespace Brighthouse.Core

open Library Library.EquiJoin JoinerHash JoinerHashTable List

structure Seat (τ : Type) where
  tuple : τ
  key : Bytes
  row : Nat

namespace JoinerHash

variable {τ μ : Type} (j : JoinerHash τ μ)

def fits (p : Seat τ) (m : JoinerRow μ) : Bool :=
  decide (m.key = some p.key) && j.otherCond.all fun cond => cond p.tuple m.tuple

/-- The partners among places and matched rows with their numbers. -/
def partners (places : List (Seat τ)) (rows : List (JoinerRow μ × Nat)) :
    List (Seat τ × JoinerRow μ × Nat) :=
  joined (fun p m => j.fits p m.1) places rows

def built (tuples : List (Option τ × Option μ)) : List (Option τ × Option μ) :=
  if j.tips.countOnly then [] else j.kept tuples

theorem built_append (tuples tuples' : List (Option τ × Option μ)) :
    j.built (tuples ++ tuples') = j.built tuples ++ j.built tuples' := by
  rw [built, built, built, kept_append]
  split <;> rfl

theorem built_nil : j.built [] = [] := by
  rw [built, kept]
  split
  · rfl
  · split <;> rfl

theorem built_flatMap (rows : List Nat) (tuples : Nat → List (Option τ × Option μ)) :
    (rows.flatMap fun r => j.built (tuples r)) = j.built (rows.flatMap tuples) := by
  induction rows with
  | nil => exact j.built_nil.symm
  | cons r rows ih => rw [flatMap_cons, flatMap_cons, j.built_append, ih]

theorem built_perm {tuples tuples' : List (Option τ × Option μ)} (perm : tuples.Perm tuples') :
    (j.built tuples).Perm (j.built tuples') := by
  rw [built, built, kept, kept]
  split
  · exact Perm.refl _
  · split
    · exact Perm.refl _
    · exact perm

end JoinerHash

def pairTuple {τ μ : Type} (pair : Seat τ × JoinerRow μ × Nat) : Option τ × Option μ :=
  (some pair.1.tuple, some pair.2.1.tuple)

section
variable {τ μ : Type} (j : JoinerHash τ μ)

/-- The state after the pairs given were dealt with. -/
def Scanned (s s' : JoinState τ μ) (pairs : List (Seat τ × JoinerRow μ × Nat)) : Prop :=
  Applied j s s' (j.built (pairs.map pairTuple)) (pairs.map (·.1.row)) (pairs.map (·.2.2))

variable {j} {s s₁ s₂ : JoinState τ μ} {pairs pairs' : List (Seat τ × JoinerRow μ × Nat)}

theorem Scanned.refl (s : JoinState τ μ) : Scanned j s s [] := by
  rw [Scanned, map_nil, j.built_nil]
  exact Applied.refl s

theorem Scanned.trans (first : Scanned j s s₁ pairs) (second : Scanned j s₁ s₂ pairs') :
    Scanned j s s₂ (pairs ++ pairs') := by
  rw [Scanned, map_append, map_append, map_append, j.built_append]
  exact Applied.trans first second

theorem Scanned.perm (scanned : Scanned j s s₁ pairs) (perm : pairs.Perm pairs') :
    Scanned j s s₁ pairs' :=
  Applied.congr scanned (j.built_perm (perm.map _)) (fun _ => (perm.map _).mem_iff)
    (fun _ => (perm.map _).mem_iff)

/-! ## Places -/

structure Stored {noRows : Nat} (sized : WellSized noRows) (s : JoinState τ μ)
    (places : List (Seat τ)) : Prop where
  chained : Chained sized s.jhash (places.map fun p => (p.key, p.row))
  tuples : ∀ p ∈ places, s.tuples p.row = some p.tuple
  room : places.length < noRows

variable {noRows : Nat} {sized : WellSized noRows} {places : List (Seat τ)}

variable (stored : Stored sized s places)
include stored

theorem Stored.lookup (key : Bytes) :
    ∃ rows, s.jhash.lookup key = some (rows.length, rows) ∧
      rows.Perm ((places.filter fun p => decide (p.key = key)).map Seat.row) := by
  obtain ⟨found, rows, search, answers, perm⟩ := (stored.chained.putKey key).search rfl
    (by rw [length_map]; exact stored.room)
  refine ⟨rows, ?_, by rw [rowsOf, filter_map, map_map] at perm; exact perm⟩
  rw [perm.length_eq]
  exact lookup_of_search search answers

theorem Stored.of_applied
    {committed : List (Option τ × Option μ)} {tableRows matchedRows : List Nat}
    (applied : Applied j s s₁ committed tableRows matchedRows) : Stored sized s₁ places where
  chained := by
    rw [applied.jhash]
    exact stored.chained
  tuples := by
    rw [applied.tuples]
    exact stored.tuples
  room := stored.room

omit stored

variable {rows : List Nat} {chosen : List (Seat τ)}

theorem Stored.map_perm (stored : Stored sized s places) {γ : Type} (sub : ∀ p ∈ chosen, p ∈ places)
    (perm : rows.Perm (chosen.map Seat.row)) (f : Option τ → Nat → γ) :
    (rows.map fun r => f (s.tuples r) r).Perm (chosen.map fun p => f (some p.tuple) p.row) := by
  refine (perm.map fun r => f (s.tuples r) r).trans (Perm.of_eq ?_)
  rw [map_map]
  refine map_congr_left fun p mem => ?_
  rw [Function.comp_apply, stored.tuples p (sub p mem)]

/-! ## One matched row -/

def keyed (places : List (Seat τ)) (key : Bytes) : List (Seat τ) :=
  places.filter fun p => decide (p.key = key)

variable {key : Bytes}

theorem mem_of_keyed {p : Seat τ} (mem : p ∈ keyed places key) : p ∈ places :=
  mem_of_mem_filter mem

variable {m : JoinerRow μ}

theorem partners_single (isKey : m.key = some key) (i : Nat) :
    j.partners places [(m, i)] =
      ((keyed places key).filter fun p => j.otherCond.all fun cond => cond p.tuple m.tuple).map
        (·, m, i) := by
  have same : (fun p : Seat τ => j.fits p m) = fun p =>
      decide (p.key = key) && j.otherCond.all fun cond => cond p.tuple m.tuple := by
    funext p
    rw [fits, isKey]
    simp only [Option.some.injEq, eq_comm]
  rw [partners, joined_cons_right, joined_nil_right, append_nil, keyed, filter_filter, same]
  simp only [Bool.and_comm]

theorem partners_null (isNull : m.key = none) (i : Nat) : j.partners places [(m, i)] = [] := by
  rw [partners, joined_cons_right, joined_nil_right]
  have nothing : places.filter (fun p => j.fits p m) = [] := by
    refine filter_eq_nil_iff.mpr fun p _ fits => ?_
    rw [JoinerHash.fits, isNull] at fits
    simp at fits
  rw [nothing]
  rfl

theorem applied_submitRows (building : j.tips.countOnly = false) (m : μ) (rows : List Nat) :
    Applied j s (rows.foldl (j.submitJoinedTuple m) s)
      (j.built (rows.map fun r => (s.tuples r, some m))) rows [] := by
  have each : ∀ t r, t.tuples = s.tuples →
      Applied j t (j.submitJoinedTuple m t r) (j.built [(s.tuples r, some m)]) [r] [] := by
    intro t r same
    have step := applied_submitJoinedTuple (j := j) m t r
    rwa [built, building, ← same]
  have applied := Applied.foldl s.tuples each rows s rfl
  have none' : (rows.flatMap fun _ => ([] : List Nat)) = [] := flatMap_eq_nil_iff.mpr fun _ _ => rfl
  rwa [j.built_flatMap, ← map_eq_flatMap, flatMap_singleton', none'] at applied

theorem applied_submitPartner (m : μ) (i r : Nat) (t : JoinState τ μ) :
    Applied j t (j.resetMatched
        (if j.tips.countOnly then j.resetTraversed t r else j.submitJoinedTuple m t r) i)
      (j.built [(t.tuples r, some m)]) [r] [i] := by
  rw [built]
  cases j.tips.countOnly with
  | true => exact (applied_resetTraversed t r).trans (applied_resetMatched _ i)
  | false =>
    have both := (applied_submitJoinedTuple (j := j) m t r).trans (applied_resetMatched _ i)
    rwa [append_nil] at both

def passing (j : JoinerHash τ μ) (m : μ) (tuples : Nat → Option τ) (rows : List Nat) : List Nat :=
  rows.filter fun r => j.checkOther (tuples r) m

theorem submitChecked_rows (m : μ) (i : Nat) (tuples : Nat → Option τ) (rows : List Nat) :
    ∀ n t, t.tuples = tuples →
      ∃ t', rows.foldl (j.submitChecked m i) (n, t) =
          (n + (passing j m tuples rows).length, t') ∧
        Applied j t t' (j.built ((passing j m tuples rows).map fun r => (tuples r, some m)))
          (passing j m tuples rows) ((passing j m tuples rows).map fun _ => i) := by
  induction rows with
  | nil =>
    intro n t _
    exact ⟨t, rfl, Scanned.refl t⟩
  | cons r rows ih =>
    intro n t same
    rw [foldl_cons, submitChecked]
    rw [same]
    by_cases check : j.checkOther (tuples r) m = true
    · have first : passing j m tuples (r :: rows) = r :: passing j m tuples rows :=
        filter_cons_of_pos check
      have step := applied_submitPartner (j := j) m i r t
      rw [same] at step
      obtain ⟨t', result, applied⟩ := ih (n + 1) _ (step.tuples.trans same)
      refine ⟨t', ?_, ?_⟩
      · rw [if_pos check, result, first, length_cons, add_assoc, add_comm 1]
      · rw [first]
        have both := step.trans applied
        rwa [← j.built_append] at both
    · have skip : passing j m tuples (r :: rows) = passing j m tuples rows :=
        filter_cons_of_neg check
      obtain ⟨t', result, applied⟩ := ih n t same
      refine ⟨t', ?_, ?_⟩
      · rw [if_neg check, result, skip]
      · rwa [skip]

include stored

theorem Stored.scanned {matched : List Nat} {i : Nat}
    (sub : ∀ p ∈ chosen, p ∈ places) (perm : rows.Perm (chosen.map Seat.row))
    (once : ∀ r, r ∈ matched ↔ r ∈ chosen.map fun _ => i)
    (applied : Applied j s s₁ (j.built (rows.map fun r => (s.tuples r, some m.tuple)))
      rows matched) :
    Scanned j s s₁ (chosen.map (·, m, i)) := by
  have tuples : (rows.map fun r => (s.tuples r, some m.tuple)).Perm
      ((chosen.map (·, m, i)).map pairTuple) := by
    rw [map_map]
    exact stored.map_perm sub perm fun tuple _ => (tuple, some m.tuple)
  refine applied.congr (j.built_perm tuples) (fun r => ?_) (fun r => ?_)
  · rw [perm.mem_iff, map_map]
    rfl
  · rw [once r, map_map]
    rfl

theorem Stored.passing_perm (m : μ) (perm : rows.Perm ((keyed places key).map Seat.row)) :
    (passing j m s.tuples rows).Perm
      (((keyed places key).filter fun p =>
        j.otherCond.all fun cond => cond p.tuple m).map Seat.row) := by
  refine (perm.filter _).trans (Perm.of_eq ?_)
  rw [filter_map]
  refine congrArg (map Seat.row) (filter_congr fun p mem => ?_)
  rw [Function.comp_apply, stored.tuples p (mem_of_keyed mem)]
  rfl

theorem Stored.matchRow (tuples : j.withoutTuples = false) (isKey : m.key = some key) (i : Nat) :
    ∃ s', j.matchRow m.tuple key i s = some ((j.partners places [(m, i)]).length, s') ∧
      Scanned j s s' (j.partners places [(m, i)]) := by
  obtain ⟨rows, found, perm⟩ := stored.lookup key
  rw [JoinerHash.matchRow, found, partners_single isKey, length_map]
  dsimp only
  by_cases other : j.otherCondExist = true
  · rw [if_pos other]
    obtain ⟨s', result, applied⟩ := submitChecked_rows (j := j) m.tuple i s.tuples rows 0 s rfl
    have chosen := stored.passing_perm (j := j) m.tuple perm
    refine ⟨s', ?_, stored.scanned (fun p mem => ?_) chosen (fun r => ?_) applied⟩
    · rw [result, zero_add, chosen.length_eq, length_map]
    · exact mem_of_keyed (mem_of_mem_filter mem)
    · simp only [mem_map]
      have some' : (∃ r, r ∈ passing j m.tuple s.tuples rows) ↔ ∃ p, p ∈ (keyed places key).filter
          fun p => j.otherCond.all fun cond => cond p.tuple m.tuple := by
        simp only [chosen.mem_iff, mem_map]
        exact ⟨fun ⟨_, p, mem, _⟩ => ⟨p, mem⟩, fun ⟨p, mem⟩ => ⟨_, p, mem, rfl⟩⟩
      constructor
      · rintro ⟨r', mem, rfl⟩
        obtain ⟨p, isChosen⟩ := some'.mp ⟨r', mem⟩
        exact ⟨p, isChosen, rfl⟩
      · rintro ⟨p, isChosen, rfl⟩
        obtain ⟨r', mem⟩ := some'.mpr ⟨p, isChosen⟩
        exact ⟨r', mem, rfl⟩
  · have noOther : j.otherCond = [] := by
      rw [otherCondExist] at other
      simpa using other
    have building : j.tips.countOnly = false := by
      rw [withoutTuples, otherCondExist, noOther] at tuples
      simpa using tuples
    have all : ((keyed places key).filter fun p => j.otherCond.all fun cond =>
        cond p.tuple m.tuple) = keyed places key := by
      rw [noOther]
      exact filter_eq_self.mpr fun _ _ => rfl
    have count : rows.length = (keyed places key).length := by
      rw [perm.length_eq, length_map]
      rfl
    have submitted := applied_submitRows (s := s) building m.tuple rows
    rw [if_neg other, building, all, count]
    refine ⟨_, rfl, ?_⟩
    split
    · rename_i found'
      have both := submitted.trans (applied_resetMatched (j := j) _ i)
      rw [append_nil, append_nil, nil_append] at both
      refine stored.scanned (fun p => mem_of_keyed) perm (fun r => ?_) both
      obtain ⟨p, mem⟩ := exists_mem_of_length_pos found'
      rw [mem_singleton, mem_map]
      exact ⟨fun same => ⟨p, mem, same.symm⟩, fun ⟨_, _, same⟩ => same.symm⟩
    · rename_i nothing
      have empty := eq_nil_of_length_eq_zero (Nat.eq_zero_of_not_pos nothing)
      refine stored.scanned (fun p => mem_of_keyed) perm (fun r => ?_) submitted
      rw [empty]
      rfl

omit stored

/-! ## Rows one by one -/

theorem partners_append (rows rows' : List (JoinerRow μ × Nat)) :
    j.partners places (rows ++ rows') = j.partners places rows ++ j.partners places rows' :=
  flatMap_append

theorem limitReached_none (unlimited : j.tips.limit = none) (n : Nat) :
    j.limitReached n = false := by
  rw [limitReached, unlimited]

theorem matchRows_scanned (tuples : j.withoutTuples = false) (unlimited : j.tips.limit = none)
    (rows : List (JoinerRow μ)) :
    ∀ i n s, Stored sized s places →
      ∃ s', j.matchRows rows i n s =
          some ⟨n + (j.partners places (rows.zipIdx i)).length, s', false⟩ ∧
        Scanned j s s' (j.partners places (rows.zipIdx i)) := by
  induction rows with
  | nil =>
    intro i n s _
    exact ⟨s, rfl, Scanned.refl s⟩
  | cons m rows ih =>
    intro i n s stored
    have parts : j.partners places ((m :: rows).zipIdx i) =
        j.partners places [(m, i)] ++ j.partners places (rows.zipIdx (i + 1)) := by
      rw [← partners_append]
      rfl
    rw [matchRows, parts, length_append]
    cases isKey : m.key with
    | none =>
      rw [partners_null isKey, length_nil, zero_add]
      exact ih (i + 1) n s stored
    | some key =>
      obtain ⟨s₁, found, scanned⟩ := stored.matchRow tuples isKey i
      obtain ⟨s₂, result, scanned'⟩ := ih (i + 1)
        (n + (j.partners places [(m, i)]).length) s₁ (stored.of_applied scanned)
      refine ⟨s₂, ?_, scanned.trans scanned'⟩
      dsimp only
      rw [found]
      dsimp only
      rw [limitReached_none unlimited, if_neg Bool.false_ne_true, result, add_assoc]

/-! ## Packrows -/

variable {other uniform : Bool} {put : List (JoinerRow τ)} {columns : List (ColumnRough τ)}

theorem omits_of_roughColumns (omitted : (roughColumns other put columns uniform).1 = true) :
    ∃ column ∈ columns, column.omits put = true := by
  induction columns generalizing uniform with
  | nil => cases omitted
  | cons column columns ih =>
    rw [roughColumns] at omitted
    by_cases omits : column.omits put = true
    · exact ⟨column, mem_cons_self, omits⟩
    · rw [if_neg omits] at omitted
      obtain ⟨column', mem, omits'⟩ := ih omitted
      exact ⟨column', mem_cons_of_mem _ mem, omits'⟩

theorem constant_of_roughColumns (kept : (roughColumns other put columns uniform).1 = false)
    (isUniform : (roughColumns other put columns uniform).2 = true) :
    uniform = true ∧ ∀ column ∈ columns, other = false ∧ column.constant = true := by
  induction columns generalizing uniform with
  | nil => exact ⟨isUniform, fun _ mem => absurd mem not_mem_nil⟩
  | cons column columns ih =>
    rw [roughColumns] at kept isUniform
    by_cases omits : column.omits put = true
    · rw [if_pos omits] at kept
      cases kept
    · rw [if_neg omits] at kept isUniform
      obtain ⟨still, rest⟩ := ih kept isUniform
      cases other with
      | true => cases still
      | false =>
        cases constant : column.constant with
        | false =>
          rw [constant] at still
          cases still
        | true =>
          rw [constant] at still
          exact ⟨still, forall_mem_cons.mpr ⟨⟨rfl, constant⟩, rest⟩⟩

def Seen (s : JoinState τ μ) (places : List (Seat τ)) : Prop :=
  ∀ p ∈ places, ∃ row ∈ s.put, row.key = some p.key

variable {p : JoinPackrow τ μ}

theorem partners_omitted (seen : Seen s places)
    (omitted : (roughColumns j.otherCondExist s.put p.columns true).1 = true) (i : Nat) :
    j.partners places (p.rows.zipIdx i) = [] := by
  obtain ⟨column, mem, omits⟩ := omits_of_roughColumns omitted
  rw [partners, joined, flatMap_eq_nil_iff]
  rintro ⟨m, n⟩ isRow
  rw [map_eq_nil_iff, filter_eq_nil_iff]
  intro place isPlace fits
  rw [JoinerHash.fits, Bool.and_eq_true, decide_eq_true_iff] at fits
  obtain ⟨row, isPut, isKey⟩ := seen place isPlace
  have inRows : m ∈ p.rows := fst_mem_of_mem_zipIdx isRow
  exact p.omits_sound column mem s.put omits m inRows row isPut place.key fits.1 isKey

theorem applied_submitPackrow (building : j.tips.countOnly = false) (r : Nat)
    (rows : List (JoinerRow μ)) :
    ∀ i t, Applied j t (j.submitPackrow r rows i t)
      (j.built ((rows.zipIdx i).map fun m => (t.tuples r, some m.1.tuple)))
      ((rows.zipIdx i).map fun _ => r) ((rows.zipIdx i).map (·.2)) := by
  induction rows with
  | nil =>
    intro i t
    exact Scanned.refl t
  | cons m rows ih =>
    intro i t
    have step := applied_submitPartner (j := j) m.tuple i r t
    rw [building, if_neg Bool.false_ne_true] at step
    have rest := ih (i + 1) (j.resetMatched (j.submitJoinedTuple m.tuple t r) i)
    rw [step.tuples] at rest
    have both := step.trans rest
    rw [← j.built_append] at both
    exact both

theorem partners_uniform {rows : List (JoinerRow μ × Nat)} (noOther : j.otherCond = [])
    (constant : ∀ m ∈ rows, m.1.key = some key) :
    j.partners places rows = rows.flatMap fun m => (keyed places key).map (·, m) := by
  rw [partners, joined]
  refine flatMap_congr fun m mem => ?_
  refine congrArg (map (·, m)) (filter_congr fun p _ => ?_)
  rw [fits, constant m mem, noOther]
  simp [eq_comm]

theorem Stored.matchUniform (stored : Stored sized s places) (building : j.tips.countOnly = false)
    (noOther : j.otherCond = []) (constant : ∀ m ∈ p.rows, m.key = some p.constantKey) (i : Nat) :
    ∃ s', j.matchUniform p i s = some ((j.partners places (p.rows.zipIdx i)).length, s') ∧
      Scanned j s s' (j.partners places (p.rows.zipIdx i)) := by
  obtain ⟨rows, found, perm⟩ := stored.lookup p.constantKey
  have each : ∀ t r, t.tuples = s.tuples →
      Applied j t (j.submitPackrow r p.rows i t)
        (j.built ((p.rows.zipIdx i).map fun m => (s.tuples r, some m.1.tuple)))
        ((p.rows.zipIdx i).map fun _ => r) ((p.rows.zipIdx i).map (·.2)) := by
    intro t r same
    have step := applied_submitPackrow building r p.rows i t
    rwa [same] at step
  have applied := Applied.foldl s.tuples each rows s rfl
  -- the same pairs, place by place
  obtain ⟨pairs, isPairs⟩ : ∃ pairs, (keyed places p.constantKey).flatMap (fun place =>
    (p.rows.zipIdx i).map (place, ·)) = pairs := ⟨_, rfl⟩
  have pairsPerm : pairs.Perm (j.partners places (p.rows.zipIdx i)) := by
    rw [partners_uniform noOther fun m mem =>
      constant m.1 (fst_mem_of_mem_zipIdx mem), ← isPairs]
    exact pairs_perm _ _
  have overPlaces : ∀ {γ : Type} (f : Option τ → Nat → JoinerRow μ × Nat → γ),
      (rows.flatMap fun r => (p.rows.zipIdx i).map (f (s.tuples r) r)).Perm
        (pairs.map fun pair => f (some pair.1.tuple) pair.1.row pair.2) := by
    intro γ f
    rw [← isPairs, map_flatMap]
    refine (perm.flatMap_right _).trans (Perm.of_eq ?_)
    rw [flatMap_map]
    refine flatMap_congr fun place mem => ?_
    rw [map_map, stored.tuples place (mem_of_keyed mem)]
    rfl
  have count := (overPlaces fun _ _ _ => ()).length_eq
  rw [length_map, pairsPerm.length_eq, length_flatMap] at count
  simp only [length_zipIdx, map_const', length_replicate,
    sum_replicate_nat] at count
  rw [JoinerHash.matchUniform, found]
  dsimp only
  rw [building, count]
  refine ⟨_, rfl, Scanned.perm (applied.congr ?_ ?_ ?_) pairsPerm⟩
  · rw [j.built_flatMap]
    exact j.built_perm (overPlaces fun tuple _ m => (tuple, some m.1.tuple))
  · exact fun r => (overPlaces fun _ r _ => r).mem_iff
  · exact fun n => (overPlaces fun _ _ m => m.2).mem_iff

theorem matchPackrows_scanned (tuples : j.withoutTuples = false)
    (unlimited : j.tips.limit = none) (packrows : List (JoinPackrow τ μ)) :
    ∀ i n s, Stored sized s places → Seen s places →
      ∃ s', j.matchPackrows packrows i n s =
          some (n + (j.partners places ((packrows.flatMap JoinPackrow.rows).zipIdx i)).length, s') ∧
        Scanned j s s' (j.partners places ((packrows.flatMap JoinPackrow.rows).zipIdx i)) := by
  induction packrows with
  | nil =>
    intro i n s _ _
    exact ⟨s, rfl, Scanned.refl s⟩
  | cons p packrows ih =>
    intro i n s stored seen
    have parts : j.partners places (((p :: packrows).flatMap JoinPackrow.rows).zipIdx i) =
        j.partners places (p.rows.zipIdx i) ++
          j.partners places ((packrows.flatMap JoinPackrow.rows).zipIdx (i + p.rows.length)) := by
      rw [flatMap_cons, zipIdx_append, partners_append]
    rw [matchPackrows, parts, length_append]
    dsimp only
    by_cases omitted : (roughColumns j.otherCondExist s.put p.columns true).1 = true
    · rw [if_pos omitted, partners_omitted seen omitted, length_nil,
        zero_add]
      exact ih (i + p.rows.length) n s stored seen
    · rw [if_neg omitted]
      -- the rest of the scan from the state after this packrow
      have continue' : ∀ s₁, Scanned j s s₁ (j.partners places (p.rows.zipIdx i)) →
          ∃ s', j.matchPackrows packrows (i + p.rows.length)
              (n + (j.partners places (p.rows.zipIdx i)).length) s₁ =
              some (n + ((j.partners places (p.rows.zipIdx i)).length +
                (j.partners places ((packrows.flatMap JoinPackrow.rows).zipIdx
                  (i + p.rows.length))).length), s') ∧
            Scanned j s s' (j.partners places (p.rows.zipIdx i) ++
              j.partners places ((packrows.flatMap JoinPackrow.rows).zipIdx
                (i + p.rows.length))) := by
        intro s₁ scanned
        have seen₁ : Seen s₁ places := by
          rw [Seen, scanned.put]
          exact seen
        obtain ⟨s', result, scanned'⟩ := ih (i + p.rows.length)
          (n + (j.partners places (p.rows.zipIdx i)).length) s₁ (stored.of_applied scanned) seen₁
        exact ⟨s', by rw [result, add_assoc], scanned.trans scanned'⟩
      by_cases uniform : (roughColumns j.otherCondExist s.put p.columns true).2 = true
      · obtain ⟨-, constant⟩ := constant_of_roughColumns (Bool.eq_false_of_not_eq_true omitted)
          uniform
        obtain ⟨column, mem⟩ := exists_mem_of_ne_nil _ p.columns_ne
        have noOther : j.otherCond = [] := by
          have none' := (constant column mem).1
          rw [otherCondExist] at none'
          simpa using none'
        have building : j.tips.countOnly = false := by
          rw [withoutTuples, (constant column mem).1] at tuples
          simpa using tuples
        obtain ⟨s₁, found, scanned⟩ := stored.matchUniform building noOther
          (p.constant_sound fun column mem => (constant column mem).2) i
        rw [if_pos uniform, found]
        exact continue' s₁ scanned
      · obtain ⟨s₁, found, scanned⟩ := matchRows_scanned tuples unlimited p.rows i n s stored
        rw [if_neg uniform, found]
        exact continue' s₁ scanned

end

end Brighthouse.Core
