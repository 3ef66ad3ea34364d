import Mathlib

/-!
# Wildcard patterns

A pattern is a list of tokens: a literal symbol, a place for exactly one symbol,
or a place for any number of symbols.  A piece of a pattern without `many` consumes
one symbol for each of its tokens; this is what makes a search that takes the first
fitting place of every such piece complete.
-/

set_option autoImplicit false

namespace Brighthouse.Library.Wildcard

open List

inductive Token (α : Type) where
  | lit (c : α)
  | one
  | many
  deriving DecidableEq, Repr

variable {α : Type} {t read : List α}

inductive Matches : List (Token α) → List α → Prop
  | nil : Matches [] []
  | lit {c pattern s} (rest : Matches pattern s) :
      Matches (.lit c :: pattern) (c :: s)
  | one {c pattern s} (rest : Matches pattern s) :
      Matches (.one :: pattern) (c :: s)
  | many {taken pattern s} (rest : Matches pattern s) :
      Matches (.many :: pattern) (taken ++ s)

variable {s : List α}

theorem matches_nil_iff : Matches [] s ↔ s = [] := by
  constructor
  · intro matched
    cases matched
    rfl
  · rintro rfl
    exact Matches.nil

theorem matches_append {first second : List (Token α)} (head : Matches first s)
    (tail : Matches second t) : Matches (first ++ second) (s ++ t) := by
  induction head with
  | nil => exact tail
  | lit rest ih => exact Matches.lit ih
  | one rest ih => exact Matches.one ih
  | many rest ih =>
    rw [append_assoc]
    exact Matches.many ih

/-! ## Places for any number of symbols -/

variable {pattern : List (Token α)}

theorem matches_many_iff : Matches (.many :: pattern) s ↔ ∃ t, t <:+ s ∧ Matches pattern t := by
  constructor
  · intro matched
    cases matched with
    | @many taken _ t rest => exact ⟨t, suffix_append taken t, rest⟩
  · rintro ⟨t, ⟨taken, rfl⟩, rest⟩
    exact Matches.many rest

theorem matches_many_of_suffix (ending : t <:+ s)
    (matched : Matches (.many :: pattern) t) : Matches (.many :: pattern) s := by
  obtain ⟨u, inner, rest⟩ := matches_many_iff.mp matched
  exact matches_many_iff.mpr ⟨u, inner.trans ending, rest⟩

theorem matches_many_cons {c : α} :
    Matches (.many :: pattern) (c :: s) ↔
      Matches pattern (c :: s) ∨ Matches (.many :: pattern) s := by
  simp only [matches_many_iff, suffix_cons_iff]
  constructor
  · rintro ⟨t, rfl | ending, rest⟩
    · exact .inl rest
    · exact .inr ⟨t, ending, rest⟩
  · rintro (rest | ⟨t, ending, rest⟩)
    · exact ⟨c :: s, .inl rfl, rest⟩
    · exact ⟨t, .inr ending, rest⟩

theorem matches_many_many :
    Matches (.many :: .many :: pattern) s ↔ Matches (.many :: pattern) s := by
  constructor
  · intro matched
    obtain ⟨t, ending, rest⟩ := matches_many_iff.mp matched
    exact matches_many_of_suffix ending rest
  · intro matched
    exact matches_many_iff.mpr ⟨s, suffix_refl s, matched⟩

theorem matches_many_alone (s : List α) : Matches [.many] s :=
  matches_many_iff.mpr ⟨[], nil_suffix, Matches.nil⟩

/-! ## The symbols a pattern needs -/

def width : List (Token α) → Nat
  | [] => 0
  | .many :: pattern => width pattern
  | _ :: pattern => width pattern + 1

theorem width_append (first second : List (Token α)) :
    width (first ++ second) = width first + width second := by
  induction first with
  | nil => simp [width]
  | cons token first ih => cases token <;> simp [width] <;> omega

theorem width_le_length (matched : Matches pattern s) : width pattern ≤ s.length := by
  induction matched with
  | nil => simp [width]
  | lit rest ih => simpa [width] using ih
  | one rest ih => simpa [width] using ih
  | many rest ih =>
    rw [width, length_append]
    omega

theorem matches_of_width_zero (none : width pattern = 0) : Matches pattern [] := by
  induction pattern with
  | nil => exact Matches.nil
  | cons token pattern ih =>
    cases token with
    | lit c => simp [width] at none
    | one => simp [width] at none
    | many => exact matches_many_iff.mpr ⟨[], suffix_refl [], ih none⟩

theorem matches_of_many (none : width pattern = 0) (nonempty : pattern ≠ []) (s : List α) :
    Matches pattern s := by
  cases pattern with
  | nil => exact absurd rfl nonempty
  | cons token pattern =>
    cases token with
    | many => exact matches_many_iff.mpr ⟨[], nil_suffix, matches_of_width_zero none⟩
    | _ => simp [width] at none

theorem exists_matches_width (c : α) (pattern : List (Token α)) :
    ∃ s, Matches pattern s ∧ s.length = width pattern := by
  induction pattern with
  | nil => exact ⟨[], .nil, rfl⟩
  | cons token pattern ih =>
    obtain ⟨s, matched, length⟩ := ih
    cases token with
    | lit d => exact ⟨d :: s, .lit matched, congrArg (· + 1) length⟩
    | one => exact ⟨c :: s, .one matched, congrArg (· + 1) length⟩
    | many => exact ⟨s, matches_many_iff.mpr ⟨s, suffix_refl s, matched⟩, length⟩

theorem matches_empty_iff : Matches pattern [] ↔ width pattern = 0 := by
  constructor
  · intro matched
    have bound := width_le_length matched
    simpa using bound
  · exact matches_of_width_zero

/-! ## Pieces without `many` -/

variable {piece : List (Token α)}

theorem width_fixed (fixed : .many ∉ piece) : width piece = piece.length := by
  induction piece with
  | nil => rfl
  | cons token piece ih =>
    rw [mem_cons, not_or] at fixed
    cases token with
    | lit c => simp [width, ih fixed.2]
    | one => simp [width, ih fixed.2]
    | many => exact absurd rfl fixed.1

theorem matches_fixed_append {rest : List (Token α)} (fixed : .many ∉ piece) :
    ∀ {s : List α}, Matches (piece ++ rest) s →
      ∃ read tail, s = read ++ tail ∧ read.length = piece.length ∧ Matches rest tail := by
  induction piece with
  | nil =>
    intro s matched
    exact ⟨[], s, rfl, rfl, matched⟩
  | cons token piece ih =>
    intro s matched
    rw [mem_cons, not_or] at fixed
    cases matched with
    | lit matched =>
      obtain ⟨read, tail, rfl, length, matched⟩ := ih fixed.2 matched
      exact ⟨_ :: read, tail, rfl, by simp [length], matched⟩
    | one matched =>
      obtain ⟨read, tail, rfl, length, matched⟩ := ih fixed.2 matched
      exact ⟨_ :: read, tail, rfl, by simp [length], matched⟩
    | many matched => exact absurd rfl fixed.1

/-- The first place where a piece fits is as good as any later one, because
`many` comes next. -/
theorem matches_first_place (rest : List (Token α)) (tail : List α)
    (fixed : .many ∉ piece) (fits : Matches piece read) (length : read.length = piece.length) :
    Matches (.many :: (piece ++ .many :: rest)) (read ++ tail) ↔ Matches (.many :: rest) tail := by
  constructor
  · intro matched
    obtain ⟨t, ending, matched⟩ := matches_many_iff.mp matched
    obtain ⟨read', tail', rfl, length', matched⟩ := matches_fixed_append fixed matched
    have inner : tail' <:+ read ++ tail := (suffix_append read' tail').trans ending
    have short : tail'.length ≤ tail.length := by
      have bound := ending.length_le
      simp only [length_append] at bound
      omega
    exact matches_many_of_suffix
      (suffix_of_suffix_length_le inner (suffix_append read tail) short) matched
  · intro matched
    exact matches_many_iff.mpr ⟨_, suffix_refl _, matches_append fits matched⟩

theorem matches_exhausted (rest : List (Token α)) (fixed : .many ∉ piece)
    (fits : Matches piece read) (length : read.length = piece.length) :
    Matches (.many :: (piece ++ rest)) read ↔ width rest = 0 := by
  constructor
  · intro matched
    have bound := width_le_length matched
    rw [width, width_append, width_fixed fixed] at bound
    omega
  · intro none
    have whole := matches_append fits (matches_of_width_zero none)
    rw [append_nil] at whole
    exact matches_many_iff.mpr ⟨read, suffix_refl read, whole⟩

end Brighthouse.Library.Wildcard
