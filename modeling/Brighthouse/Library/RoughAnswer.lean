import Mathlib

/-!
# Rough answers

A rough answer says about a set of rows that none, possibly some, or all of them
satisfy a predicate.  `none` and `all` are commitments, `some` commits to nothing.
-/

set_option autoImplicit false

namespace Brighthouse.Library

inductive RoughAnswer where
  | none
  | some
  | all
  deriving DecidableEq, Repr

namespace RoughAnswer

variable {α : Type} {answer : RoughAnswer} {rows : Set α} {p q : α → Prop}

/-- The answer keeps its commitments on `rows`. -/
structure Sound (answer : RoughAnswer) (rows : Set α) (p : α → Prop) : Prop where
  none_sound : answer = .none → ∀ row ∈ rows, ¬p row
  all_sound : answer = .all → ∀ row ∈ rows, p row

theorem sound_some : Sound .some rows p := ⟨by simp, by simp⟩

theorem sound_none_iff : Sound .none rows p ↔ ∀ row ∈ rows, ¬p row := by
  constructor
  · intro sound
    exact sound.none_sound rfl
  · intro noRow
    exact ⟨fun _ => noRow, by simp⟩

theorem sound_all_iff : Sound .all rows p ↔ ∀ row ∈ rows, p row := by
  constructor
  · intro sound
    exact sound.all_sound rfl
  · intro allRows
    exact ⟨by simp, fun _ => allRows⟩

/-! ## Negated conditions and null rows -/

def negateIf (negated : Bool) : RoughAnswer → RoughAnswer
  | .none => if negated then .all else .none
  | .some => .some
  | .all => if negated then .none else .all

/-- No condition holds on all rows when some of them may be null. -/
def withNulls (nulls : Bool) : RoughAnswer → RoughAnswer
  | .none => .none
  | .some => .some
  | .all => if nulls then .some else .all

variable {nulls : Bool}

theorem Sound.withNulls (sound : Sound answer rows p) : Sound (withNulls nulls answer) rows p := by
  cases answer with
  | none => exact sound
  | some => exact sound_some
  | all =>
    cases nulls with
    | true => exact sound_some
    | false => exact sound

def Holds (p : α → Prop) (negated : Bool) : Option α → Prop
  | .none => False
  | .some a => if negated then ¬p a else p a

section
variable {rows : Set (Option α)} {negated : Bool} (noNull : nulls = false → Option.none ∉ rows)
include noNull

/-- What an answer about the values must satisfy to become a sound answer about the
rows.  With null rows in sight an answer that turns into `all` commits to nothing. -/
theorem sound_withNulls_iff :
    Sound (withNulls nulls (negateIf negated answer)) rows (Holds p negated) ↔
      (answer = .none → negated = true ∧ nulls = true ∨ ∀ a, Option.some a ∈ rows → ¬p a) ∧
      (answer = .all → negated = false ∧ nulls = true ∨ ∀ a, Option.some a ∈ rows → p a) := by
  have allRows : ∀ q : Option α → Prop, nulls = false →
      ((∀ row ∈ rows, q row) ↔ ∀ a, Option.some a ∈ rows → q (Option.some a)) := by
    intro q full
    constructor
    · intro every a mem
      exact every _ mem
    · intro every row mem
      cases row with
      | none => exact absurd mem (noNull full)
      | some a => exact every a mem
  have noRow : (∀ row ∈ rows, ¬Holds p negated row) ↔
      ∀ a, Option.some a ∈ rows → ¬Holds p negated (Option.some a) := by
    constructor
    · intro every a mem
      exact every _ mem
    · intro every row mem
      cases row with
      | none => exact not_false
      | some a => exact every a mem
  cases answer with
  | some => simp [negateIf, withNulls, sound_some]
  | none =>
    cases negated with
    | false => simpa [negateIf, withNulls, sound_none_iff, Holds] using noRow
    | true =>
      cases nulls with
      | false => simpa [negateIf, withNulls, sound_all_iff, Holds] using allRows _ rfl
      | true => simp [negateIf, withNulls, sound_some]
  | all =>
    cases negated with
    | false =>
      cases nulls with
      | false => simpa [negateIf, withNulls, sound_all_iff, Holds] using allRows _ rfl
      | true => simp [negateIf, withNulls, sound_some]
    | true => simpa [negateIf, withNulls, sound_none_iff, Holds] using noRow

theorem sound_withNulls (none_sound : answer = .none → ∀ a, Option.some a ∈ rows → ¬p a)
    (all_sound : answer = .all → ∀ a, Option.some a ∈ rows → p a) :
    Sound (withNulls nulls (negateIf negated answer)) rows (Holds p negated) :=
  (sound_withNulls_iff noNull).mpr
    ⟨fun isNone => Or.inr (none_sound isNone), fun isAll => Or.inr (all_sound isAll)⟩

end

theorem Sound.congr (sound : Sound answer rows p) (same : ∀ row ∈ rows, p row ↔ q row) :
    Sound answer rows q := by
  refine ⟨?_, ?_⟩
  · intro isNone row mem holds
    exact sound.none_sound isNone row mem ((same row mem).mpr holds)
  · intro isAll row mem
    exact (same row mem).mp (sound.all_sound isAll row mem)

end RoughAnswer

end Brighthouse.Library
