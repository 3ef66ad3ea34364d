import Brighthouse.Core.MIIteratorWalk

/-!
# What an iterator of a multiindex enumerates

`Enumerates` states what callers see of an iterator that walks through given packrows.
An iterator that has been rewound enumerates the packrows of its groups exactly when
`SafeMultiplication` knows the size of every packrow.  `Skip` then passes whole packrows
and comes to the tuple that as many `++` come to.
-/

set_option autoImplicit false

namespace Brighthouse.Core

open Library.Odometer Library.Word64 MIIterator List

variable {σ τ : Type} [GroupIterator σ τ] {before after : List (List (List τ))}

namespace MIIterator

/-- Advanced by `++` the iterator shows `tuples` one after the other and is then invalid. -/
structure Visits (m : MIIterator σ τ) (tuples : List (List τ)) : Prop where
  shows_tuple : ∀ seen t left, tuples = seen ++ t :: left →
    (m.advance seen.length).valid = true ∧ (m.advance seen.length).curPos = t.map some
  ends : (m.advance tuples.length).valid = false

/-- The iterator visits the tuples of `packrows`.  It announces the first tuple of every
packrow, it knows how many tuples of the packrow are left, the current one included, and
`NextPackrow` at the first tuple skips the packrow. -/
structure Enumerates (m : MIIterator σ τ) (packrows : List (List (List τ))) : Prop where
  visits : m.Visits packrows.flatten
  packrowStarted : ∀ before seen t left after, packrows = before ++ (seen ++ t :: left) :: after →
    ((m.advance (before.flatten.length + seen.length)).packrowStarted = true ↔ seen = [])
  getPackSizeLeft : ∀ before seen t left after, packrows = before ++ (seen ++ t :: left) :: after →
    (m.advance (before.flatten.length + seen.length)).getPackSizeLeft = (t :: left).length
  nextPackrow : ∀ before packrow after, packrows = before ++ packrow :: after →
    (m.advance before.flatten.length).nextPackrow.Visits after.flatten

theorem visits_nil {m : MIIterator σ τ} (ended : m.valid = false) : m.Visits [] where
  shows_tuple := fun seen t left none => absurd none (by simp)
  ends := ended

/-- `Skip` comes to an end and leaves the iterator where so many `++` do. -/
def SkipsAs (m : MIIterator σ τ) (n : Nat) : Prop :=
  ∃ turns m', m.skip turns n = some m' ∧ m'.valid = (m.advance n).valid ∧
    (m'.valid = true → m'.curPos = (m.advance n).curPos)

variable {m : MIIterator σ τ} {n : Nat}

theorem not_skipsAs_of_unknown (valid : m.valid = true) (unknown : m.packSizeLeft = nullValue64)
    (last : m.nextPackrow.valid = false) (inside : (m.advance n).valid = true) : ¬m.SkipsAs n := by
  rintro ⟨turns, m', skipped, same, -⟩
  obtain ⟨⟨passed, stop⟩, run, rfl⟩ := Option.map_eq_some_iff.mp skipped
  have next : wrap64 (0 + m.packSizeLeft) < n := by
    have negative : wrap64 (0 + nullValue64) < 0 := by decide
    rw [unknown]
    omega
  rcases turns with _ | _ | turns
  · cases run
  · rw [skipPackrows, if_pos ⟨valid, next⟩] at run
    cases run
  · rw [skipPackrows, if_pos ⟨valid, next⟩, skipPackrows, if_neg (by simp [last])] at run
    cases run
    dsimp only at same
    rw [inside] at same
    generalize ((n : Int) - wrap64 (0 + m.packSizeLeft)).toNat = left at same
    cases left <;> simp [skipTuples, last] at same

theorem skipTuples_eq (valid : ∀ i < n, (m.advance i).valid = true) :
    m.skipTuples n = m.advance n := by
  induction n generalizing m with
  | zero => rfl
  | succ n ih =>
    rw [skipTuples, if_pos (by exact valid 0 n.succ_pos)]
    exact ih fun i less => valid (i + 1) (Nat.succ_lt_succ less)

end MIIterator

theorem flatten_eq_append_cons {α : Type} {rows : List (List α)} {seen left : List α} {t : α}
    (split : rows.flatten = seen ++ t :: left) :
    ∃ before inner rest after, rows = before ++ (inner ++ t :: rest) :: after ∧
      seen = before.flatten ++ inner := by
  rcases flatten_eq_append_iff.mp split with ⟨before, ahead, rfl, rfl, start⟩ |
    ⟨before, inner, u, rest, after, same, passed, start⟩
  · obtain ⟨empty, rest, after, rfl, none, _⟩ := flatten_eq_cons_iff.mp start.symm
    refine ⟨before ++ empty, [], rest, after, by simp, ?_⟩
    rw [flatten_append, flatten_eq_nil_iff.mpr none, append_nil, append_nil]
  · obtain ⟨rfl, _⟩ := cons.inj start
    exact ⟨before, inner, rest, after, same, passed⟩

namespace GroupContract

variable {contract : GroupContract σ τ} {m : MIIterator σ τ} {ps : List (Place τ)}

section
variable (entered : contract.Entered m ps) (known : ∀ packrow ∈ packrowsLeft ps, Known packrow)
include entered known

theorem Entered.run_rows {row : List (List τ)}
    (split : (packrowsLeft ps).map choices = before ++ row :: after) :
    ∃ qs packrow later, contract.Entered (m.advance before.flatten.length) qs ∧ Known packrow ∧
      packrowsLeft qs = packrow :: later ∧ row = choices packrow ∧ after = later.map choices ∧
      ∀ packrow ∈ later, Known packrow := by
  obtain ⟨passed, ahead, same, rfl, rest⟩ := map_eq_append_iff.mp split
  obtain ⟨packrow, later, rfl, rfl, rfl⟩ := map_eq_cons_iff.mp rest
  rw [same] at known
  obtain ⟨qs, reached, left⟩ := entered.run same fun packrow inside =>
    known packrow (mem_append_left _ inside)
  exact ⟨qs, packrow, later, reached,
    known packrow (mem_append_right _ mem_cons_self), left, rfl, rfl, fun other inside =>
    known other (mem_append_right _ (mem_cons_of_mem _ inside))⟩

theorem Entered.run_tuples {seen left : List (List τ)}
    {t : List τ} (split : (packrowsLeft ps).map choices = before ++ (seen ++ t :: left) :: after) :
    ∃ qs, contract.Counts (m.advance (before.flatten.length + seen.length)) seen.isEmpty qs ∧
      tuplesLeft qs = t :: left := by
  obtain ⟨qs, packrow, later, reached, isKnown, ahead, same, _⟩ := entered.run_rows known split
  rw [reached.packrowsLeft_eq, cons.injEq] at ahead
  rw [← ahead.1] at same isKnown
  rw [← tuplesLeft_started reached.whole] at same
  rw [advance_add]
  exact (reached.counts isKnown).run_inside same.symm

theorem Entered.visits :
    m.Visits ((packrowsLeft ps).map choices).flatten where
  shows_tuple := by
    intro seen t left split
    obtain ⟨before, inner, rest, after, same, rfl⟩ := flatten_eq_append_cons split
    obtain ⟨qs, counts, here⟩ := entered.run_tuples known same
    rw [length_append]
    exact ⟨counts.valid, counts.curPos_eq here⟩
  ends := by
    exact entered.run_end known

theorem Entered.enumerates :
    m.Enumerates ((packrowsLeft ps).map choices) where
  visits := entered.visits known
  packrowStarted := by
    intro before seen t left after split
    obtain ⟨qs, counts, here⟩ := entered.run_tuples known split
    rw [packrowStarted, counts.started, List.isEmpty_iff]
  getPackSizeLeft := by
    intro before seen t left after split
    obtain ⟨qs, counts, here⟩ := entered.run_tuples known split
    rw [getPackSizeLeft, counts.size, here]
  nextPackrow := by
    intro before row after split
    obtain ⟨qs, packrow, later, reached, _, ahead, _, rfl, knownLater⟩ :=
      entered.run_rows known split
    rw [reached.packrowsLeft_eq, cons.injEq] at ahead
    cases step : stepPacks qs with
    | none =>
      rw [step] at ahead
      rw [← ahead.2]
      exact visits_nil (reached.toAtPlaces.nextPackrow_end step)
    | some next =>
      rw [step] at ahead
      rw [← ahead.2] at knownLater ⊢
      exact (reached.nextPackrow_more step).visits knownLater

end

/-! ## Skipping -/

/-- The packrows that the first loop of `Skip` compares with the offset `n` have known sizes,
and the number of tuples up to the end of each of them fits a signed word. -/
def Measured (n : Nat) : Nat → List (List (List τ)) → Prop
  | _, [] => True
  | skipped, packrow :: packrows =>
    let next := skipped + (choices packrow).length
    Known packrow ∧ next < 2 ^ 63 ∧ (next < n → Measured n next packrows)

section
variable {m' : MIIterator σ τ} (entered : contract.Entered m ps)
  (known : Known (ps.map Place.pack))
include entered known

theorem Entered.advance_inside {i : Nat} (inside : i < (choices (ps.map Place.pack)).length) :
    (m.advance i).valid = true ∧
      (m.advance i).curPos = (choices (ps.map Place.pack))[i].map some := by
  have split : tuplesLeft ps = (choices (ps.map Place.pack)).take i ++
      (choices (ps.map Place.pack))[i] :: (choices (ps.map Place.pack)).drop (i + 1) := by
    rw [tuplesLeft_started entered.whole, getElem_cons_drop, take_append_drop]
  obtain ⟨qs, counts, here⟩ := (entered.counts known).run_inside split
  rw [length_take_of_le inside.le] at counts
  exact ⟨counts.valid, counts.curPos_eq here⟩

theorem Entered.advance_packrow :
    match stepPacks ps with
    | some qs => contract.Entered (m.advance (choices (ps.map Place.pack)).length) qs
    | none => (m.advance (choices (ps.map Place.pack)).length).valid = false := by
  have ran := (entered.counts known).run
  rwa [restarted_of_whole entered.whole, tuplesLeft_started entered.whole] at ran

theorem Entered.advance_agrees (entered' : contract.Entered m' ps) {i : Nat}
    (le : i ≤ (choices (ps.map Place.pack)).length) :
    (m'.advance i).valid = (m.advance i).valid ∧
      ((m'.advance i).valid = true → (m'.advance i).curPos = (m.advance i).curPos) := by
  rcases lt_or_eq_of_le le with inside | rfl
  · obtain ⟨valid, shown⟩ := entered.advance_inside known inside
    obtain ⟨valid', shown'⟩ := entered'.advance_inside known inside
    exact ⟨valid'.trans valid.symm, fun _ => shown'.trans shown.symm⟩
  · have next := entered.advance_packrow known
    have next' := entered'.advance_packrow known
    cases step : stepPacks ps with
    | none =>
      rw [step] at next next'
      exact ⟨next'.trans next.symm, fun valid => absurd (next'.symm.trans valid) (by simp)⟩
    | some qs =>
      rw [step] at next next'
      refine ⟨next'.valid.trans next.valid.symm, fun _ => ?_⟩
      have shown := tuplesLeft_eq_cons (shown_of_at next.cursors)
      rw [next'.curPos_eq shown, next.curPos_eq shown]

end

/-- Both iterators have come to the packrow of `ps` after `skipped` tuples.  `Skip` goes on with
the second one and comes to the tuple that `++` comes to with the first one. -/
theorem Entered.skip_agrees {m' : MIIterator σ τ} (entered : contract.Entered m ps)
    (entered' : contract.Entered m' ps) {skipped n : Nat} (le : skipped ≤ n)
    (measured : Measured n skipped (packrowsLeft ps))
    (enough : n ≤ skipped + ((packrowsLeft ps).map choices).flatten.length) :
    ∃ turns passed m'', skipPackrows n turns skipped m' = some (passed, m'') ∧
      (m''.skipTuples (n - passed).toNat).valid = (m.advance (n - skipped)).valid ∧
      ((m''.skipTuples (n - passed).toNat).valid = true →
        (m''.skipTuples (n - passed).toNat).curPos = (m.advance (n - skipped)).curPos) := by
  -- The induction is on the packrows ahead; each turn of the loop passes one of them.
  generalize ahead : packrowsLeft ps = packrows at measured enough
  induction packrows generalizing m m' ps skipped with
  | nil => exact absurd (entered.packrowsLeft_eq.symm.trans ahead) (by simp)
  | cons first packrows ih =>
    rw [entered.packrowsLeft_eq, cons.injEq] at ahead
    obtain ⟨rfl, rest⟩ := ahead
    obtain ⟨known, fits, later⟩ := measured
    have size := (entered'.counts known).size
    rw [tuplesLeft_started entered'.whole] at size
    rw [map_cons, flatten_cons, length_append] at enough
    have next : wrap64 (skipped + m'.packSizeLeft) =
        (skipped + (choices (ps.map Place.pack)).length : Nat) := by
      rw [size, ← Int.natCast_add, wrap64_of_isInt64 ⟨by omega, by omega⟩]
    by_cases passes : skipped + (choices (ps.map Place.pack)).length < n
    · have ran := entered.advance_packrow known
      cases step : stepPacks ps with
      | none =>
        rw [step] at rest
        obtain rfl : [] = packrows := rest
        rw [map_nil, flatten_nil, length_nil] at enough
        omega
      | some qs =>
        rw [step] at rest ran
        obtain ⟨turns, passed, m'', run, same⟩ := ih ran (entered'.nextPackrow_more step)
          passes.le rest (later passes) (by omega)
        have left : n - skipped = (choices (ps.map Place.pack)).length +
            (n - (skipped + (choices (ps.map Place.pack)).length)) := by omega
        rw [left, advance_add]
        refine ⟨turns + 1, passed, m'', ?_, same⟩
        rw [skipPackrows, next, if_pos ⟨entered'.valid, by omega⟩]
        exact run
    · have inside : n - skipped ≤ (choices (ps.map Place.pack)).length := by omega
      have left : ((n : Int) - skipped).toNat = n - skipped := by omega
      refine ⟨1, skipped, m', ?_, ?_⟩
      · rw [skipPackrows, next, if_neg fun both => passes (by omega)]
      · rw [left, skipTuples_eq fun i less =>
          (entered'.advance_inside known (Nat.lt_of_lt_of_le less inside)).1]
        exact entered.advance_agrees known entered' inside

theorem Entered.known_of_enumerates (entered : contract.Entered m ps)
    (enumerates : m.Enumerates ((packrowsLeft ps).map choices))
    (fits : ∀ packrow ∈ packrowsLeft ps, ∀ pack ∈ packrow, pack.length < 2 ^ 63)
    (split : packrowsLeft ps = before ++ after) : ∀ packrow ∈ before, Known packrow := by
  induction before using reverseRecOn generalizing after with
  | nil => exact fun packrow inside => absurd inside not_mem_nil
  | append_singleton before packrow ih =>
    rw [append_assoc, singleton_append] at split
    have knownBefore := ih split
    have inAhead : packrow ∈ packrowsLeft ps := by
      rw [split]
      exact mem_append_right _ mem_cons_self
    suffices known : Known packrow by
      intro other inside
      rcases mem_append.mp inside with inBefore | inLast
      · exact knownBefore other inBefore
      · exact mem_singleton.mp inLast ▸ known
    refine ⟨fits packrow inAhead, fun unknown => ?_⟩
    obtain ⟨qs, reached, ahead⟩ := entered.run split knownBefore
    rw [reached.packrowsLeft_eq, cons.injEq] at ahead
    have tuples : choices packrow = tuplesLeft qs := by
      rw [tuplesLeft_started reached.whole, ahead.1]
    rw [reached.tuplesLeft_eq] at tuples
    have size := enumerates.getPackSizeLeft (before.map choices) [] _ _ (after.map choices) (by
      rw [split, map_append, map_cons, tuples]
      rfl)
    have sizes : (qs.map fun p => p.pack.length) = packrow.map length := by
      rw [← ahead.1, map_map]
      rfl
    have null : nullValue64 < 0 := by decide
    rw [← flatMap_def, length_nil, add_zero, getPackSizeLeft, reached.size, sizes] at size
    omega

/-! ## Rewound iterators -/

/-- The iterator walks through `groups`, each of them given by its packs. -/
structure Over (contract : GroupContract σ τ) (m : MIIterator σ τ)
    (groups : List (List (List τ))) : Prop where
  of : List.Forall₂ contract.Of groups (m.it.map GroupCursor.it)
  filter : m.oneFilter = true → ∃ c, m.it = [c] ∧ contract.isFilter c.it = true

variable {groups : List (List (List τ))}

theorem packrowsLeft_start (nonempty : [] ∉ groups) :
    packrowsLeft (groups.map startPlace) = choices groups := by
  have whole : (groups.map startPlace).map Place.outer =
      groups.map fun packs => (packs, packs) := by
    rw [map_map]
    refine map_congr_left fun packs inside => ?_
    obtain ⟨pack, later, rfl⟩ := exists_cons_of_ne_nil fun empty =>
      nonempty (empty ▸ inside)
    rfl
  rw [packrowsLeft, whole, ahead_whole]

theorem startPlace_whole : ∀ p ∈ groups.map startPlace, p.left = p.pack := by
  intro p inside
  obtain ⟨packs, _, rfl⟩ := mem_map.mp inside
  cases packs <;> rfl

variable (groupsOf : contract.Over m groups)
include groupsOf

theorem Over.rewind_nonempty (some : groups ≠ [])
    (nonempty : [] ∉ groups) : contract.Entered m.rewind (groups.map startPlace) := by
  obtain ⟨valid, cursors⟩ := rewindGroups_of_ne_nil groupsOf.of nonempty
  have notEmpty : m.it.isEmpty = false := by
    rw [isEmpty_eq_false_iff]
    intro none
    have lengths := groupsOf.of.length_eq
    rw [none] at lengths
    exact some (length_eq_zero_iff.mp lengths)
  rw [rewind, notEmpty, if_neg Bool.false_ne_true]
  dsimp only
  rw [valid, if_pos rfl]
  refine entered_of_init { valid := rfl, cursors := cursors, filter := fun isFilter => ?_ }
    startPlace_whole
  obtain ⟨c, single, filter⟩ := groupsOf.filter isFilter
  rw [single, rewindGroups] at valid ⊢
  cases isValid : GroupIterator.isValid (GroupIterator.rewind c.it) with
  | false =>
    rw [isValid] at valid
    exact absurd valid Bool.false_ne_true
  | true => exact ⟨_, rfl, (contract.isFilter_rewind c.it).trans filter⟩

theorem Over.rewind_empty (empty : groups = [] ∨ [] ∈ groups) :
    m.rewind.valid = false := by
  rw [rewind]
  split
  · rfl
  · rename_i some
    rcases empty with none | empty
    · have lengths := groupsOf.of.length_eq
      rw [none, length_map] at lengths
      exact absurd (isEmpty_iff.mpr (length_eq_zero_iff.mp lengths.symm)) some
    · dsimp only
      rw [rewindGroups_of_nil groupsOf.of empty]
      rfl

omit groupsOf

def packrowsOf (groups : List (List (List τ))) : List (List (List τ)) :=
  if groups.isEmpty then [] else (choices groups).map choices

theorem packrowsOf_of_empty (empty : groups = [] ∨ [] ∈ groups) : packrowsOf groups = [] := by
  rw [packrowsOf]
  rcases empty with rfl | inside
  · rfl
  · rw [choices_of_mem_nil inside, map_nil, ite_self]

theorem packrowsOf_start (some : groups ≠ []) (nonempty : [] ∉ groups) :
    packrowsOf groups = (packrowsLeft (groups.map startPlace)).map choices := by
  rw [packrowsOf, if_neg (fun none => some (isEmpty_iff.mp none)), packrowsLeft_start nonempty]

include groupsOf

theorem Over.rewind_enumerates
    (fits : ∀ packrow ∈ choices groups, ∀ pack ∈ packrow, pack.length < 2 ^ 63) :
    m.rewind.Enumerates (packrowsOf groups) ↔
      ∀ packrow ∈ choices groups, safeProduct (packrow.map length) ≠ nullValue64 := by
  by_cases empty : groups = [] ∨ [] ∈ groups
  · have invalid := groupsOf.rewind_empty empty
    rw [packrowsOf_of_empty empty]
    refine ⟨fun _ packrow inside => ?_, fun _ => ⟨visits_nil invalid, by simp, by simp, by simp⟩⟩
    rcases empty with rfl | empty
    · obtain rfl := mem_singleton.mp inside
      have one : safeProduct [] ≠ nullValue64 := by decide
      exact one
    · rw [choices_of_mem_nil empty] at inside
      exact absurd inside not_mem_nil
  · rw [not_or] at empty
    have entered := groupsOf.rewind_nonempty empty.1 empty.2
    rw [← packrowsLeft_start empty.2] at fits ⊢
    rw [packrowsOf_start empty.1 empty.2]
    constructor
    · intro enumerates packrow inside
      exact (entered.known_of_enumerates enumerates fits (append_nil _).symm packrow inside).2
    · intro known
      exact entered.enumerates fun packrow inside => ⟨fits packrow inside, known packrow inside⟩

theorem Over.skipsAs {n : Nat} (measured : Measured n 0 (choices groups))
    (le : n ≤ (packrowsOf groups).flatten.length) : m.rewind.SkipsAs n := by
  by_cases empty : groups = [] ∨ [] ∈ groups
  · have invalid := groupsOf.rewind_empty empty
    rw [packrowsOf_of_empty empty] at le
    obtain rfl := Nat.eq_zero_of_le_zero le
    exact ⟨1, m.rewind, by simp [skip, skipPackrows, invalid, skipTuples], rfl,
      fun _ => rfl⟩
  · rw [not_or] at empty
    have entered := groupsOf.rewind_nonempty empty.1 empty.2
    rw [packrowsOf_start empty.1 empty.2] at le
    rw [← packrowsLeft_start empty.2] at measured
    obtain ⟨turns, passed, m', run, same⟩ :=
      entered.skip_agrees entered (Nat.zero_le n) measured (by rwa [zero_add])
    exact ⟨turns, _, congrArg (Option.map _) run, same⟩

end GroupContract

end Brighthouse.Core
