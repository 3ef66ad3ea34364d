import Brighthouse.Core.MIIteratorSpec

/-!
# Walks of an iterator of a multiindex

An iterator whose packrows have known sizes walks through the packrows of the odometer,
one choice of packs after the other.
-/

set_option autoImplicit false

namespace Brighthouse.Core

open Library.Odometer GroupIterator MIIterator List Option Place

variable {σ τ : Type} [GroupIterator σ τ]

namespace MIIterator

def advance (m : MIIterator σ τ) : Nat → MIIterator σ τ
  | 0 => m
  | n + 1 => m.increment.advance n

def moved (m : MIIterator σ τ) (it : List (GroupCursor σ τ)) (valid : Bool) : MIIterator σ τ :=
  { m with it := it, valid := valid, packSizeLeft := m.packSizeLeft - 1, nextPackStarted := false }

theorem advance_add (m : MIIterator σ τ) (a b : Nat) :
    m.advance (a + b) = (m.advance a).advance b := by
  induction a generalizing m with
  | zero => rw [zero_add]; rfl
  | succ a ih => rw [Nat.succ_add]; exact ih m.increment

end MIIterator

namespace GroupContract

variable (contract : GroupContract σ τ)

structure AtPlaces (m : MIIterator σ τ) (ps : List (Place τ)) : Prop where
  valid : m.valid = true
  cursors : List.Forall₂ contract.At m.it ps
  filter : m.oneFilter = true → ∃ c, m.it = [c] ∧ contract.isFilter c.it = true

/-- The iterator has just come to the packrow of `ps`. -/
structure Entered (m : MIIterator σ τ) (ps : List (Place τ)) : Prop extends
    AtPlaces contract m ps where
  whole : ∀ p ∈ ps, p.left = p.pack
  size : m.packSizeLeft = safeProduct (ps.map fun p => p.pack.length)
  started : m.nextPackStarted = true

/-- The iterator is inside of a packrow and knows how much of it is left. -/
structure Counts (m : MIIterator σ τ) (started : Bool) (ps : List (Place τ)) : Prop extends
    AtPlaces contract m ps where
  size : m.packSizeLeft = (tuplesLeft ps).length
  started : m.nextPackStarted = started

variable {contract} {m : MIIterator σ τ} {ps qs : List (Place τ)} {started : Bool}

/-- The sizes of the packs fit a signed word and their product is known. -/
def Known (packrow : List (List τ)) : Prop :=
  (∀ pack ∈ packrow, pack.length < 2 ^ 63) ∧ safeProduct (packrow.map List.length) ≠ nullValue64

theorem Entered.counts (entered : contract.Entered m ps) (known : Known (ps.map pack)) :
    contract.Counts m true ps where
  toAtPlaces := entered.toAtPlaces
  size := by
    have sizes : (ps.map fun p => p.pack.length) = (ps.map pack).map length := map_map.symm
    have fits : ∀ n ∈ (ps.map pack).map length, n < 2 ^ 63 := by
      intro n inside
      obtain ⟨pack, mem, rfl⟩ := mem_map.mp inside
      exact known.1 pack mem
    rw [tuplesLeft_started entered.whole, length_choices, entered.size, sizes,
      safeProduct_eq fits known.2]
  started := entered.started

theorem AtPlaces.tuplesLeft_eq (at_ps : contract.AtPlaces m ps) :
    tuplesLeft ps =
      (m.it.map fun c => current c.it) :: ((stepInside ps).map tuplesLeft).getD [] :=
  tuplesLeft_eq_cons (shown_of_at at_ps.cursors)

theorem tuplesLeft_pos {cs : List (GroupCursor σ τ)} (at_ps : List.Forall₂ contract.At cs ps) :
    0 < (tuplesLeft ps).length := by
  rw [tuplesLeft_eq_cons (shown_of_at at_ps)]
  exact Nat.zero_lt_succ _

/-! ## Steps of the group iterators -/

variable {c : GroupCursor σ τ} {p : Place τ}

theorem filter_increment (filter : contract.isFilter c.it = true) (here : contract.At c p) :
    match (stepInside [p]).or (stepPacks [p.restarted]) with
    | some qs => ∃ q, qs = [q] ∧ contract.Stands (increment c.it) q
    | none => isValid (increment c.it) = false := by
  obtain ⟨packs, pack, left, later⟩ := p
  rcases left with _ | ⟨x, _ | ⟨y, left⟩⟩
  · exact absurd (contract.current_of_stands here.1) (by simp)
  · cases later with
    | nil => exact contract.increment_last filter here.1
    | cons pack' later => exact ⟨_, rfl, contract.increment_pack filter here.1⟩
  · exact ⟨_, rfl, contract.increment_more filter here.1⟩

/-! ## Steps of the iterator -/

section
variable (counts : contract.Counts m started ps)
include counts

theorem Counts.size_inside (step : stepInside ps = some qs) :
    m.packSizeLeft = (tuplesLeft qs).length + 1 := by
  rw [counts.size, counts.tuplesLeft_eq, step]
  rfl

theorem Counts.size_last (step : stepInside ps = none) : m.packSizeLeft = 1 := by
  rw [counts.size, counts.tuplesLeft_eq, step]
  rfl

theorem Counts.size_ne_null : m.packSizeLeft ≠ nullValue64 := by
  have null : nullValue64 < 0 := by decide
  have size := counts.size
  omega

end

variable (at_ps : contract.AtPlaces m ps)
include at_ps

theorem AtPlaces.single (filter : m.oneFilter = true) :
    ∃ c p, m.it = [c] ∧ ps = [p] ∧ contract.isFilter c.it = true ∧ contract.At c p := by
  obtain ⟨c, single, isFilter⟩ := at_ps.filter filter
  have cursors := at_ps.cursors
  rw [single] at cursors
  obtain ⟨p, ps', here, others, rfl⟩ := forall₂_cons_left_iff.mp cursors
  cases others
  exact ⟨c, p, single, rfl, isFilter, here⟩

theorem AtPlaces.increment_eq (known : m.packSizeLeft ≠ nullValue64) :
    ∃ it valid, m.increment = (if m.packSizeLeft - 1 = 0 then
        (m.moved it valid).initNextPackrow else m.moved it valid) ∧
      match (stepInside ps).or (stepPacks (ps.map restarted)) with
      | some qs => contract.AtPlaces (m.moved it valid) qs
      | none => valid = false := by
  rw [MIIterator.increment]
  by_cases filter : m.oneFilter = true
  · obtain ⟨c, p, single, rfl, isFilter, here⟩ := at_ps.single filter
    have next := filter_increment isFilter here
    rw [if_pos filter, filterIncrement, single, map_singleton]
    generalize (stepInside [p]).or (stepPacks [p.restarted]) = found at next ⊢
    cases found with
    | some qs =>
      obtain ⟨q, rfl, stands⟩ := next
      dsimp only
      rw [contract.isValid_of_stands stands, if_pos rfl]
      exact ⟨_, _, rfl, rfl, .cons (at_fill stands) .nil,
        fun _ => ⟨_, rfl, (contract.isFilter_increment c.it).trans isFilter⟩⟩
    | none =>
      dsimp only at next ⊢
      rw [next, if_neg Bool.false_ne_true]
      refine ⟨[{ c with it := increment c.it }], false, ?_, rfl⟩
      rw [initNextPackrow, MIIterator.moved, if_neg Bool.false_ne_true, ite_self]
  · obtain ⟨flag, inside⟩ := nextInsidePacks_of_at at_ps.cursors
    rw [if_neg filter, generalIncrement, flag]
    cases step : stepInside ps with
    | some qs =>
      rw [step, getD_some] at inside
      rw [isSome_some, if_pos rfl]
      dsimp only
      rw [if_neg known]
      exact ⟨_, _, rfl, at_ps.valid, inside, fun isFilter => absurd isFilter filter⟩
    | none =>
      rw [step, getD_none] at inside
      obtain ⟨moved, cursors⟩ := nextPackrows_of_at true inside
      rw [isSome_none, if_neg Bool.false_ne_true]
      dsimp only
      rw [if_neg known, at_ps.valid, Bool.true_and]
      refine ⟨_, _, rfl, ?_⟩
      rw [none_or, moved]
      cases next : stepPacks (ps.map restarted) with
      | some qs => exact ⟨rfl, cursors qs next, fun isFilter => absurd isFilter filter⟩
      | none => rfl

omit at_ps

theorem Counts.increment_inside (counts : contract.Counts m started ps)
    (step : stepInside ps = some qs) : contract.Counts m.increment false qs := by
  obtain ⟨it, valid, same, at_qs⟩ := counts.increment_eq counts.size_ne_null
  have size := counts.size_inside step
  rw [step, some_or] at at_qs
  have positive := tuplesLeft_pos at_qs.cursors
  rw [same, if_neg (by omega)]
  exact ⟨at_qs, by rw [MIIterator.moved, size, Int.add_sub_cancel], rfl⟩

theorem stepPacks_whole (whole : ∀ p ∈ ps, p.left = p.pack) (step : stepPacks ps = some qs) :
    ∀ q ∈ qs, q.left = q.pack := by
  induction ps generalizing qs with
  | nil => exact nomatch step
  | cons p ps ih =>
    have others : ∀ p ∈ ps, p.left = p.pack := fun p inside => whole p (mem_cons_of_mem _ inside)
    rw [stepPacks] at step
    cases later : p.later with
    | cons pack packs =>
      rw [later] at step
      obtain rfl := some.inj step
      rintro q (_ | ⟨_, inside⟩)
      · rfl
      · exact others q inside
    | nil =>
      rw [later] at step
      obtain ⟨rest, next, rfl⟩ := map_eq_some_iff.mp step
      rintro q (_ | ⟨_, inside⟩)
      · rw [rewound]
        split
        · exact whole p mem_cons_self
        · rfl
      · exact ih others next q inside

/-- What `InitNextPackrow` leaves when all groups are at the beginning of their packs. -/
theorem entered_of_init (at_ps : contract.AtPlaces m ps) (whole : ∀ p ∈ ps, p.left = p.pack) :
    contract.Entered m.initNextPackrow ps := by
  have sizes : (ps.map fun p => p.left.length) = ps.map fun p => p.pack.length :=
    map_congr_left fun p inside => by rw [whole p inside]
  rw [initNextPackrow, if_pos at_ps.valid]
  exact
    { valid := at_ps.valid
      cursors := at_ps.cursors
      filter := at_ps.filter
      whole := whole
      size := (packrowSize_of_at at_ps.cursors).trans (congrArg safeProduct sizes)
      started := rfl }

section
variable (counts : contract.Counts m started ps) (step : stepInside ps = none)
include counts step

theorem Counts.increment_packrow (next : stepPacks (ps.map restarted) = some qs) :
    contract.Entered m.increment qs := by
  obtain ⟨it, valid, same, at_qs⟩ := counts.increment_eq counts.size_ne_null
  rw [step, none_or, next] at at_qs
  rw [same, counts.size_last step, if_pos (by rfl)]
  refine entered_of_init at_qs (stepPacks_whole (fun p inside => ?_) next)
  obtain ⟨q, _, rfl⟩ := mem_map.mp inside
  rfl

theorem Counts.increment_end (last : stepPacks (ps.map restarted) = none) :
    m.increment.valid = false := by
  obtain ⟨it, valid, same, invalid⟩ := counts.increment_eq counts.size_ne_null
  rw [step, none_or, last] at invalid
  rw [same, counts.size_last step, if_pos (by rfl), invalid]
  rfl

end

include at_ps

theorem AtPlaces.nextPackrow_more (next : stepPacks ps = some qs)
    (whole : ∀ q ∈ qs, q.left = q.pack) : contract.Entered m.nextPackrow qs := by
  obtain ⟨moved, cursors⟩ := nextPackrows_of_at false at_ps.cursors
  rw [next] at moved
  rw [MIIterator.nextPackrow, if_pos at_ps.valid]
  dsimp only
  rw [moved, isSome_some]
  refine entered_of_init
    { valid := at_ps.valid, cursors := cursors qs next, filter := fun isFilter => ?_ } whole
  obtain ⟨c, p, single, rfl, filter, here⟩ := at_ps.single isFilter
  obtain ⟨packs, pack, left, later⟩ := p
  cases later with
  | nil => exact nomatch next
  | cons pack' later =>
    refine ⟨fillCurrentPos (nextPackrow c.it), ?_, ?_⟩
    · rw [single, nextPackrows, contract.isValid_of_stands (contract.nextPackrow_more here.1)]
      rfl
    · exact (contract.isFilter_nextPackrow c.it).trans filter

theorem AtPlaces.nextPackrow_end (last : stepPacks ps = none) :
    m.nextPackrow.valid = false := by
  obtain ⟨moved, _⟩ := nextPackrows_of_at false at_ps.cursors
  rw [last] at moved
  rw [MIIterator.nextPackrow, if_pos at_ps.valid]
  dsimp only
  rw [moved]
  rfl

omit at_ps

theorem Entered.nextPackrow_more (entered : contract.Entered m ps) (next : stepPacks ps = some qs) :
    contract.Entered m.nextPackrow qs :=
  entered.toAtPlaces.nextPackrow_more next (stepPacks_whole entered.whole next)

/-! ## Runs -/

theorem stepInside_restarted (step : stepInside ps = some qs) :
    qs.map restarted = ps.map restarted := by
  induction ps generalizing qs with
  | nil => exact nomatch step
  | cons p ps ih =>
    obtain ⟨packs, pack, left, later⟩ := p
    rcases left with _ | ⟨x, _ | ⟨y, left⟩⟩
    case cons.cons =>
      obtain rfl := some.inj step
      rfl
    all_goals
      obtain ⟨rest, inside, rfl⟩ := map_eq_some_iff.mp step
      rw [map_cons, ih inside]
      rfl

theorem AtPlaces.curPos_eq (at_ps : contract.AtPlaces m ps) {t : List τ} {left : List (List τ)}
    (split : tuplesLeft ps = t :: left) : m.curPos = t.map some := by
  rw [at_ps.tuplesLeft_eq, cons.injEq] at split
  rw [curPos, curPos_of_at at_ps.cursors, split.1]

theorem Counts.run_inside (counts : contract.Counts m started ps) {seen left : List (List τ)}
    {t : List τ} (split : tuplesLeft ps = seen ++ t :: left) :
    ∃ qs, contract.Counts (m.advance seen.length) (started && seen.isEmpty) qs ∧
      tuplesLeft qs = t :: left := by
  induction seen generalizing m started ps with
  | nil =>
    rw [isEmpty_nil, Bool.and_true]
    exact ⟨ps, counts, split⟩
  | cons first seen ih =>
    rw [counts.tuplesLeft_eq, cons_append, cons.injEq] at split
    cases step : stepInside ps with
    | none =>
      rw [step] at split
      exact absurd split.2 (by simp)
    | some next =>
      rw [step] at split
      rw [isEmpty_cons, Bool.and_false]
      exact ih (counts.increment_inside step) split.2

theorem Counts.run (counts : contract.Counts m started ps) :
    match stepPacks (ps.map restarted) with
    | some qs => contract.Entered (m.advance (tuplesLeft ps).length) qs
    | none => (m.advance (tuplesLeft ps).length).valid = false := by
  generalize left : tuplesLeft ps = tuples
  induction tuples generalizing m started ps with
  | nil => exact absurd (counts.tuplesLeft_eq.symm.trans left) (by simp)
  | cons t tuples ih =>
    rw [counts.tuplesLeft_eq, cons.injEq] at left
    cases step : stepInside ps with
    | some next =>
      rw [step] at left
      have run := ih (counts.increment_inside step) left.2
      rwa [stepInside_restarted step] at run
    | none =>
      rw [step] at left
      obtain rfl : [] = tuples := left.2
      cases next : stepPacks (ps.map restarted) with
      | some qs => exact counts.increment_packrow step next
      | none => exact counts.increment_end step next

theorem restarted_of_whole (whole : ∀ p ∈ ps, p.left = p.pack) : ps.map restarted = ps := by
  refine (map_congr_left fun p inside => ?_).trans (map_id ps)
  obtain ⟨packs, pack, left, later⟩ := p
  obtain rfl : left = pack := whole _ inside
  rfl

variable (entered : contract.Entered m ps)
include entered

theorem Entered.packrowsLeft_eq :
    packrowsLeft ps = ps.map pack :: ((stepPacks ps).map packrowsLeft).getD [] :=
  packrowsLeft_eq_cons (packs_ne_nil_of_at entered.cursors)

theorem Entered.run {before after : List (List (List τ))}
    {packrow : List (List τ)} (split : packrowsLeft ps = before ++ packrow :: after)
    (known : ∀ packrow ∈ before, Known packrow) :
    ∃ qs, contract.Entered (m.advance ((before.flatMap choices).length)) qs ∧
      packrowsLeft qs = packrow :: after := by
  induction before generalizing m ps with
  | nil => exact ⟨ps, entered, split⟩
  | cons first before ih =>
    rw [entered.packrowsLeft_eq, cons_append, cons.injEq] at split
    have counts := entered.counts (split.1 ▸ known first mem_cons_self)
    cases step : stepPacks ps with
    | none =>
      rw [step] at split
      exact absurd split.2 (by simp)
    | some next =>
      rw [step] at split
      have ran := counts.run
      rw [restarted_of_whole entered.whole, step] at ran
      obtain ⟨qs, reached, ahead⟩ := ih ran split.2 fun packrow inside =>
        known packrow (mem_cons_of_mem _ inside)
      refine ⟨qs, ?_, ahead⟩
      rw [flatMap_cons, length_append, ← split.1, ← tuplesLeft_started entered.whole, advance_add]
      exact reached

theorem Entered.run_end (known : ∀ packrow ∈ packrowsLeft ps, Known packrow) :
    (m.advance (((packrowsLeft ps).flatMap choices).length)).valid = false := by
  generalize ahead : packrowsLeft ps = packrows at known
  induction packrows generalizing m ps with
  | nil => exact absurd (entered.packrowsLeft_eq.symm.trans ahead) (by simp)
  | cons first packrows ih =>
    rw [entered.packrowsLeft_eq, cons.injEq] at ahead
    have counts := entered.counts (ahead.1 ▸ known first mem_cons_self)
    rw [flatMap_cons, length_append, ← ahead.1, ← tuplesLeft_started entered.whole, advance_add]
    have ran := counts.run
    rw [restarted_of_whole entered.whole] at ran
    cases step : stepPacks ps with
    | none =>
      rw [step] at ahead ran
      rw [← ahead.2]
      exact ran
    | some next =>
      rw [step] at ahead ran
      exact ih ran ahead.2 fun packrow inside => known packrow (mem_cons_of_mem _ inside)

end GroupContract

end Brighthouse.Core
