import Brighthouse.Core.CommonDefinitions

/-!
# Data pack nodes

The counters of a `DPN` and the test for packs without values.  `Counts` says when
they are right for the rows of a pack, of whatever type its values are.
-/

set_option autoImplicit false

namespace Brighthouse.Core

open Library

/-- `noObjs` is one less than the number of rows. -/
structure Dpn where
  fileNullsOnly : Bool
  noNulls : Nat
  noObjs : Nat

/-- The rows of a pack, with a null row if the caller may add some. -/
def rowsWith {α : Type} (rows : List (Option α)) (additionalNulls : Bool) : Set (Option α) :=
  {row | row ∈ rows ∨ additionalNulls = true ∧ row = none}

@[simp]
theorem some_mem_rowsWith {α : Type} {rows : List (Option α)} {additionalNulls : Bool} {a : α} :
    some a ∈ rowsWith rows additionalNulls ↔ some a ∈ rows := by
  simp [rowsWith]

theorem sound_rowsWith {α : Type} {rows : List (Option α)} {answer : RoughAnswer} {p : α → Prop}
    {nulls negated additionalNulls : Bool}
    (noNull : nulls = false → none ∉ rowsWith rows additionalNulls)
    (answers : answer.Sound {x | some x ∈ rows} p) :
    ((answer.negateIf negated).withNulls nulls).Sound (rowsWith rows additionalNulls)
      (RoughAnswer.Holds p negated) :=
  RoughAnswer.sound_withNulls noNull
    (fun isNone x mem => answers.none_sound isNone x (some_mem_rowsWith.mp mem))
    fun isAll x mem => answers.all_sound isAll x (some_mem_rowsWith.mp mem)

namespace Dpn

def nullsOnly (dpn : Dpn) : Bool :=
  dpn.fileNullsOnly || (dpn.noNulls + 2 ^ 32 - 1) % 2 ^ 32 == dpn.noObjs

theorem nullsOnly_of_file {dpn : Dpn} (file : dpn.fileNullsOnly = true) : dpn.nullsOnly = true := by
  rw [nullsOnly, file]
  rfl

structure Counts {α : Type} [DecidableEq α] (dpn : Dpn) (rows : List (Option α)) : Prop where
  count : rows.length = dpn.noObjs + 1
  size : rows.length ≤ 2 ^ 16
  nulls : dpn.noNulls = rows.count none
  file : dpn.fileNullsOnly = true → ∀ row ∈ rows, row = none

variable {α : Type} [DecidableEq α] {dpn : Dpn} {rows : List (Option α)} {additionalNulls : Bool}

theorem Counts.nullsOnly_iff (counts : Counts dpn rows) :
    dpn.nullsOnly = true ↔ ∀ row ∈ rows, row = none := by
  have countEq := counts.count
  have size := counts.size
  have nulls := counts.nulls
  have countLe : rows.count none ≤ rows.length := List.count_le_length
  have allNull : rows.count none = rows.length ↔ ∀ row ∈ rows, row = none := by
    rw [List.count_eq_length]
    constructor
    · intro every row mem
      exact (every row mem).symm
    · intro every row mem
      exact (every row mem).symm
  have wrap : (dpn.noNulls + 2 ^ 32 - 1) % 2 ^ 32 = dpn.noObjs ↔
      rows.count none = rows.length := by omega
  rw [nullsOnly, Bool.or_eq_true, beq_iff_eq, wrap, allNull]
  constructor
  · rintro (file | every)
    · exact counts.file file
    · exact every
  · exact Or.inr

theorem mayHaveNulls_iff : (dpn.noNulls != 0 || additionalNulls) = true ↔
    dpn.noNulls ≠ 0 ∨ additionalNulls = true := by
  simp

theorem Counts.noNull_rowsWith (counts : Counts dpn rows)
    (flag : (dpn.noNulls != 0 || additionalNulls) = false) :
    none ∉ rowsWith rows additionalNulls := by
  rw [Bool.or_eq_false_iff, bne_eq_false_iff_eq, counts.nulls, List.count_eq_zero] at flag
  rintro (mem | ⟨added, _⟩)
  · exact flag.1 mem
  · rw [flag.2] at added
    cases added

theorem Counts.sound_nullsOnly (counts : Counts dpn rows) (onlyNulls : dpn.nullsOnly = true)
    {p : α → Prop} {negated : Bool} :
    RoughAnswer.none.Sound (rowsWith rows additionalNulls) (RoughAnswer.Holds p negated) := by
  refine RoughAnswer.sound_none_iff.mpr ?_
  rintro row (mem | ⟨_, rfl⟩)
  · rw [counts.nullsOnly_iff.mp onlyNulls row mem]
    exact not_false
  · exact not_false

end Dpn

end Brighthouse.Core
