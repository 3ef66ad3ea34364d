import Brighthouse.Library.Bytes
import Brighthouse.Library.Wildcard

/-!
# Text values

The part of `types/RCBString.cpp` that compares text with pack bounds, and the
meaning of LIKE patterns.
-/

set_option autoImplicit false

namespace Brighthouse.Types.BString

open Library Library.Wildcard List

/-- A text that is not null and not too long for `RCBString(val, len)`; `len` is a `uint`. -/
structure RCBString where
  bytes : Bytes
  short : bytes.length < 2 ^ 16

/-- `RCBString(val, len)` for a positive `len` stores `(ushort)len`, the other constructors cut
nothing off. -/
def ofBuffer (val : Bytes) (len : Nat) : Bytes := val.take (len % 2 ^ 16)

theorem ofBuffer_of_lt {val : Bytes} {len : Nat} (small : len < 2 ^ 16) :
    ofBuffer val len = val.take len := by
  rw [ofBuffer, Nat.mod_eq_of_lt small]

/-! ## Comparison with pack bounds -/

/-- `txt_min` ends before its trailing zero bytes. -/
def trimZeros (txtMin : Bytes) : Bytes := txtMin.rdropWhile (· == 0)

def geLoop : Bytes → Bytes → Bool
  | _, [] => true
  | [], _ :: _ => false
  | c :: s, m :: min => if c < m then false else if c > m then true else geLoop s min

def greaterEqThanMin (s txtMin : Bytes) : Bool := geLoop s (trimZeros txtMin)

def lessEqThanMax : Bytes → Bytes → Bool
  | [], _ => true
  | _ :: _, [] => true
  | c :: s, m :: max => if c > m then false else if c < m then true else lessEqThanMax s max

theorem geLoop_iff (s min : Bytes) : geLoop s min = true ↔ min ≤ s := by
  fun_induction geLoop s min with
  | case1 s => simp
  | case2 m min =>
    simp only [Bool.false_eq_true, false_iff]
    intro le
    cases Bytes.eq_nil_of_le_nil le
  | case3 c s m min lt =>
    simp only [Bool.false_eq_true, Bytes.cons_le_cons_iff, false_iff]
    rintro (gt | ⟨rfl, _⟩)
    · exact absurd gt (not_lt.mpr lt.le)
    · exact absurd lt (lt_irrefl _)
  | case4 c s m min _ gt =>
    simp only [Bytes.cons_le_cons_iff, true_iff]
    exact .inl gt
  | case5 c s m min notLt notGt ih =>
    have same : c = m := le_antisymm (not_lt.mp notGt) (not_lt.mp notLt)
    subst same
    simp [ih, Bytes.cons_le_cons_iff]

theorem greaterEqThanMin_iff (s txtMin : Bytes) :
    greaterEqThanMin s txtMin = true ↔ trimZeros txtMin ≤ s := geLoop_iff s _

theorem lessEqThanMax_iff (s txtMax : Bytes) :
    lessEqThanMax s txtMax = true ↔ s.take txtMax.length ≤ txtMax := by
  fun_induction lessEqThanMax s txtMax with
  | case1 max => simp
  | case2 c s => simp
  | case3 c s m max gt =>
    simp only [Bool.false_eq_true, length_cons, take_succ_cons, Bytes.cons_le_cons_iff, false_iff]
    rintro (lt | ⟨rfl, _⟩)
    · exact absurd gt (not_lt.mpr lt.le)
    · exact absurd gt (lt_irrefl _)
  | case4 c s m max _ lt =>
    simp only [length_cons, take_succ_cons, Bytes.cons_le_cons_iff, true_iff]
    exact .inl lt
  | case5 c s m max notGt notLt ih =>
    have same : c = m := le_antisymm (not_lt.mp notGt) (not_lt.mp notLt)
    subst same
    simp [ih, Bytes.cons_le_cons_iff]

theorem prefix_trimZeros {common txtMin : Bytes} (initial : common <+: txtMin)
    (nonZero : ∀ c ∈ common, c ≠ 0) : common <+: trimZeros txtMin := by
  obtain ⟨rest, rfl⟩ := initial
  induction rest using reverseRecOn with
  | nil =>
    rw [append_nil, trimZeros]
    have untouched : common.rdropWhile (· == 0) = common := by
      rw [rdropWhile_eq_self_iff]
      intro nonempty
      simpa using nonZero _ (getLast_mem nonempty)
    exact untouched.symm ▸ prefix_refl common
  | append_singleton rest last ih =>
    rw [trimZeros, ← append_assoc, rdropWhile_concat]
    split
    · exact ih
    · rw [append_assoc]
      exact prefix_append _ _

theorem trimZeros_append_replicate (s : Bytes) (n : Nat) :
    trimZeros (s ++ replicate n 0) = trimZeros s := by
  induction n with
  | zero => simp
  | succ n ih =>
    rw [replicate_succ', ← append_assoc, trimZeros, rdropWhile_concat_pos _ _ _ rfl]
    exact ih

/-! ## Patterns -/

def percent : Byte := 37
def underscore : Byte := 95

def plainToken (c : Byte) : Token Byte :=
  if c = percent then .many else if c = underscore then .one else .lit c

/-- `c d` is an escape sequence: the escape character counts only in front of itself
or a wildcard. -/
def Escapes (esc c d : Byte) : Prop := c = esc ∧ (d = esc ∨ d = underscore ∨ d = percent)

instance (esc c d : Byte) : Decidable (Escapes esc c d) := inferInstanceAs (Decidable (_ ∧ _))

def tokens (esc : Byte) : Bytes → List (Token Byte)
  | [] => []
  | [c] => [plainToken c]
  | c :: d :: rest =>
    if Escapes esc c d then .lit d :: tokens esc rest else plainToken c :: tokens esc (d :: rest)

/-- `s LIKE pattern ESCAPE esc` -/
def Like (pattern : Bytes) (esc : Byte) (s : Bytes) : Prop := Matches (tokens esc pattern) s

theorem tokens_cons {esc c : Byte} (plain : c ≠ esc) (rest : Bytes) :
    tokens esc (c :: rest) = plainToken c :: tokens esc rest := by
  cases rest with
  | nil => rfl
  | cons d rest => exact if_neg fun escape => plain escape.1

/-- No escape sequence starts among the first `n` characters. -/
def NoEscapeBefore (esc : Byte) (pattern : Bytes) (n : Nat) : Prop :=
  ∀ i < n, ∀ c d, pattern[i]? = some c → pattern[i + 1]? = some d → ¬Escapes esc c d

theorem noEscapeBefore_of_not_mem {esc : Byte} {pattern : Bytes} {n : Nat}
    (absent : esc ∉ pattern.take n) : NoEscapeBefore esc pattern n := by
  rintro i small c d first _ ⟨rfl, _⟩
  exact absent (mem_of_getElem? (by rw [getElem?_take_of_lt small]; exact first))

theorem tokens_append {esc : Byte} : ∀ (n : Nat) (pattern : Bytes),
    NoEscapeBefore esc pattern n → n ≤ pattern.length →
    tokens esc pattern = (pattern.take n).map plainToken ++ tokens esc (pattern.drop n) := by
  intro n
  induction n with
  | zero =>
    intro pattern _ _
    simp
  | succ n ih =>
    intro pattern plain long
    cases pattern with
    | nil => simp at long
    | cons c rest =>
      have restPlain : NoEscapeBefore esc rest n := by
        intro i small a b first second
        exact plain (i + 1) (by omega) a b first second
      have first : tokens esc (c :: rest) = plainToken c :: tokens esc rest := by
        cases rest with
        | nil => rfl
        | cons d rest => exact if_neg (plain 0 (by omega) c d rfl rfl)
      rw [first, ih rest restPlain (by simpa using long), take_succ_cons,
        drop_succ_cons, map_cons, cons_append]

/-- `text` fits a piece of a pattern in which only `_` is a wildcard. -/
def Fits (piece text : Bytes) : Prop := List.Forall₂ (fun c d => c = underscore ∨ c = d) piece text

instance (piece text : Bytes) : Decidable (Fits piece text) :=
  inferInstanceAs (Decidable (List.Forall₂ _ _ _))

/-- A piece without `%` consumes one character of the text for each of its own. -/
theorem matches_plain_append {rest : List (Token Byte)} : ∀ (piece s : Bytes),
    percent ∉ piece →
    (Matches (piece.map plainToken ++ rest) s ↔
      ∃ text tail, s = text ++ tail ∧ Fits piece text ∧ Matches rest tail) := by
  intro piece
  induction piece with
  | nil =>
    intro s _
    constructor
    · intro matched
      exact ⟨[], s, rfl, Forall₂.nil, matched⟩
    · rintro ⟨text, tail, rfl, fits, matched⟩
      cases fits
      exact matched
  | cons c piece ih =>
    intro s noPercent
    rw [mem_cons, not_or] at noPercent
    obtain ⟨notPercent, noPercent⟩ := noPercent
    rw [map_cons, cons_append, plainToken, if_neg (Ne.symm notPercent)]
    constructor
    · intro matched
      by_cases wild : c = underscore
      · rw [if_pos wild] at matched
        cases matched with
        | one matched =>
          obtain ⟨text, tail, rfl, fits, matched⟩ := (ih _ noPercent).mp matched
          exact ⟨_ :: text, tail, rfl, Forall₂.cons (.inl wild) fits, matched⟩
      · rw [if_neg wild] at matched
        cases matched with
        | lit matched =>
          obtain ⟨text, tail, rfl, fits, matched⟩ := (ih _ noPercent).mp matched
          exact ⟨c :: text, tail, rfl, Forall₂.cons (.inr rfl) fits, matched⟩
    · rintro ⟨text, tail, rfl, fits, matched⟩
      cases fits with
      | @cons _ d _ text first fits =>
        have restMatched := (ih (text ++ tail) noPercent).mpr ⟨text, tail, rfl, fits, matched⟩
        by_cases wild : c = underscore
        · rw [if_pos wild]
          exact Matches.one restMatched
        · rw [if_neg wild]
          rcases first with isWild | rfl
          · exact absurd isWild wild
          · exact Matches.lit restMatched

theorem fits_literal {piece text : Bytes} (noWild : underscore ∉ piece) :
    Fits piece text ↔ piece = text := by
  constructor
  · intro fits
    induction fits with
    | nil => rfl
    | cons first rest ih =>
      rw [mem_cons, not_or] at noWild
      rcases first with isWild | rfl
      · exact absurd isWild.symm noWild.1
      · rw [ih noWild.2]
  · rintro rfl
    induction piece with
    | nil => exact Forall₂.nil
    | cons c rest ih =>
      rw [mem_cons, not_or] at noWild
      exact Forall₂.cons (.inr rfl) (ih noWild.2)

end Brighthouse.Types.BString
