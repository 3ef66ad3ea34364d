import Brighthouse.Core.CMapSound
import Brighthouse.Core.TextPack

/-!
# Rough check of LIKE

The branch of `RCAttr::RoughCheck` for `O_LIKE` and `O_NOT_LIKE` on a text column
with a binary collation.
-/

set_option autoImplicit false

namespace Brighthouse.Core

open Library Library.Wildcard Types.BString List

variable {n : Nat}

/-! ## The check -/

variable (dpn : TextDpn) (pat : Bytes)

/-- `"ab_cd_e%f"` has 7. -/
def patternPrefix : Nat := (pat.takeWhile (· != percent)).length

/-- `"ab_cd_e%f"` has 2. -/
def patternFixedPrefix : Nat :=
  (pat.takeWhile fun c => c != percent && c != underscore).length

def likeFromBounds (column : TextColumn) (dpn : TextDpn) (pat : Bytes) : RSValue :=
  let fixedPrefix := patternFixedPrefix pat
  let packPrefix := dpn.getPrefix.length
  let res : RSValue :=
    if fixedPrefix > 0 ∧ lessEqThanMax (ofBuffer pat fixedPrefix) dpn.localMax = false then .none
    else .some
  let res := if fixedPrefix > dpn.getActualSize column.precision then .none else res
  -- special case: "xyz%" and the pack prefix is at least 3
  if res = .some ∧ packPrefix > 0 ∧ fixedPrefix ≤ packPrefix ∧ fixedPrefix + 1 = pat.length ∧
      pat[fixedPrefix]? = some percent then
    if pat.take fixedPrefix = dpn.localMin.take fixedPrefix then .all else .none
  else res

/-- The character map is shifted by the pack prefix. -/
def patternForCMap : Bytes :=
  let packPrefix := dpn.getPrefix.length
  if patternPrefix pat > packPrefix then ofBuffer (pat.drop packPrefix) (pat.length - packPrefix)
  else ofBuffer (pat.drop (patternPrefix pat)) (pat.length - patternPrefix pat)

def likeAnswer (column : TextColumn) (dpn : TextDpn) (pat : Bytes) (esc : Byte) : RSValue :=
  let res := likeFromBounds column dpn pat
  if res = .some ∧ min (patternPrefix pat) dpn.getPrefix.length < pat.length then
    if patternForCMap dpn pat ≠ [percent] then
      match column.cmap with
      | some map => map.isLike (patternForCMap dpn pat) column.pack esc
      | none => res
    else .all
  else res

def roughCheckLike (column : TextColumn) (dpn : TextDpn) (pattern : RCBString) (esc : Byte)
    (notLike additionalNulls : Bool) : RSValue :=
  if dpn.nullsOnly then .none
  else
    ((likeAnswer column dpn pattern.bytes esc).negateIf notLike).withNulls
      (dpn.noNulls != 0 || additionalNulls)

/-! ## The parts of a pattern -/

theorem patternPrefix_le (pat : Bytes) : patternPrefix pat ≤ pat.length :=
  (takeWhile_sublist _).length_le

theorem percent_not_mem_take {pat : Bytes} (le : n ≤ patternPrefix pat) : percent ∉ pat.take n := by
  intro mem
  have := Bytes.take_takeWhile le percent mem
  simp at this

theorem literal_of_mem_take {pat : Bytes} (le : n ≤ patternFixedPrefix pat) {c : Byte}
    (mem : c ∈ pat.take n) : c ≠ percent ∧ c ≠ underscore := by
  simpa using Bytes.take_takeWhile le c mem

theorem drop_patternPrefix {pat : Bytes} (lt : patternPrefix pat < pat.length) :
    ∃ rest, pat.drop (patternPrefix pat) = percent :: rest := by
  obtain ⟨c, rest, dropEq, stop⟩ := Bytes.drop_takeWhile lt
  have isPercent : c = percent := by simpa using stop
  exact ⟨rest, isPercent ▸ dropEq⟩

theorem patternFixedPrefix_le (pat : Bytes) : patternFixedPrefix pat ≤ patternPrefix pat := by
  by_contra longer
  have lt : patternPrefix pat < pat.length :=
    lt_of_lt_of_le (not_le.mp longer) (takeWhile_sublist _).length_le
  obtain ⟨rest, dropEq⟩ := drop_patternPrefix lt
  have mem : percent ∈ pat.take (patternFixedPrefix pat) := by
    refine mem_of_getElem? (i := patternPrefix pat) ?_
    rw [getElem?_take_of_lt (not_le.mp longer), ← head?_drop, dropEq, head?_cons]
  exact (literal_of_mem_take (le_refl _) mem).1 rfl

section Pattern

variable {pat : Bytes} {esc : Byte} {s : Bytes}

theorem like_iff_plain (plain : NoEscapeBefore esc pat n) (le : n ≤ patternPrefix pat) :
    Like pat esc s ↔
      ∃ text tail, s = text ++ tail ∧ Fits (pat.take n) text ∧ Like (pat.drop n) esc tail := by
  rw [Like, tokens_append n pat plain (le_trans le (patternPrefix_le pat)),
    matches_plain_append _ _ (percent_not_mem_take le)]
  rfl

theorem like_fixedPrefix (plain : NoEscapeBefore esc pat (patternFixedPrefix pat))
    (like : Like pat esc s) : pat.take (patternFixedPrefix pat) <+: s := by
  obtain ⟨text, tail, rfl, fits, _⟩ := (like_iff_plain plain (patternFixedPrefix_le pat)).mp like
  have noWild : underscore ∉ pat.take (patternFixedPrefix pat) := by
    intro mem
    exact (literal_of_mem_take (le_refl _) mem).2 rfl
  rw [(fits_literal noWild).mp fits]
  exact prefix_append _ _

theorem like_percent (tail : Bytes) : Like [percent] esc tail := by
  have all : Matches [Token.many] (tail ++ []) := Matches.many Matches.nil
  rw [append_nil] at all
  exact all

end Pattern

/-! ## The answer from the bounds -/

/-- The fixed part of the pattern is above the pack maximum or longer than every text. -/
def ExcludedByBounds (column : TextColumn) (dpn : TextDpn) (pat : Bytes) : Prop :=
  lessEqThanMax (pat.take (patternFixedPrefix pat)) dpn.localMax = false ∨
    patternFixedPrefix pat > dpn.getActualSize column.precision

def LiteralPrefix : Prop :=
  dpn.getPrefix.length > 0 ∧ patternFixedPrefix pat ≤ dpn.getPrefix.length ∧
    patternFixedPrefix pat + 1 = pat.length ∧ pat[patternFixedPrefix pat]? = some percent

section Bounds

variable {column : TextColumn} {dpn : TextDpn} {rows : List (Option Bytes)} {pattern : RCBString}
  {esc : Byte}

theorem likeFromBounds_cases (column : TextColumn) (dpn : TextDpn) (pattern : RCBString) :
    (ExcludedByBounds column dpn pattern.bytes ∧
        likeFromBounds column dpn pattern.bytes = .none) ∨
      (¬ExcludedByBounds column dpn pattern.bytes ∧ LiteralPrefix dpn pattern.bytes ∧
        likeFromBounds column dpn pattern.bytes =
          if pattern.bytes.take (patternFixedPrefix pattern.bytes) =
              dpn.localMin.take (patternFixedPrefix pattern.bytes) then .all else .none) ∨
      (¬ExcludedByBounds column dpn pattern.bytes ∧ ¬LiteralPrefix dpn pattern.bytes ∧
        likeFromBounds column dpn pattern.bytes = .some) := by
  obtain ⟨pat, short⟩ := pattern
  have fixedLe := le_trans (patternFixedPrefix_le pat) (patternPrefix_le pat)
  have noTruncation : ofBuffer pat (patternFixedPrefix pat) = pat.take (patternFixedPrefix pat) :=
    ofBuffer_of_lt (lt_of_le_of_lt fixedLe short)
  have empty : patternFixedPrefix pat = 0 →
      lessEqThanMax (pat.take (patternFixedPrefix pat)) dpn.localMax = true := by
    intro zero
    rw [zero, take_zero, lessEqThanMax]
  unfold likeFromBounds
  simp only [noTruncation]
  by_cases excluded : ExcludedByBounds column dpn pat
  · left
    refine ⟨excluded, ?_⟩
    rcases excluded with aboveMax | tooLong
    · have pos : patternFixedPrefix pat > 0 := by
        by_contra zero
        rw [empty (by omega)] at aboveMax
        cases aboveMax
      have isAbove := And.intro pos aboveMax
      rw [if_pos isAbove, ite_self, if_neg (by simp)]
    · rw [if_pos tooLong, if_neg (by simp)]
  · right
    have belowMax : ¬(patternFixedPrefix pat > 0 ∧
        lessEqThanMax (pat.take (patternFixedPrefix pat)) dpn.localMax = false) := by
      rintro ⟨_, aboveMax⟩
      exact excluded (.inl aboveMax)
    have notLong : ¬patternFixedPrefix pat > dpn.getActualSize column.precision := by
      intro tooLong
      exact excluded (.inr tooLong)
    rw [if_neg belowMax, if_neg notLong]
    by_cases special : LiteralPrefix dpn pat
    · exact .inl ⟨excluded, special, if_pos ⟨rfl, special⟩⟩
    · refine .inr ⟨excluded, special, if_neg ?_⟩
      rintro ⟨_, isSpecial⟩
      exact special isSpecial

section
variable (described : dpn.Describes column.precision rows)
include described

theorem excluded_sound (plain : NoEscapeBefore esc pattern.bytes (patternFixedPrefix pattern.bytes))
    (excluded : ExcludedByBounds column dpn pattern.bytes) {s : Bytes} (mem : some s ∈ rows) :
    ¬Like pattern.bytes esc s := by
  intro like
  have initial := like_fixedPrefix plain like
  rcases excluded with aboveMax | tooLong
  · have below := (lessEqThanMax_iff _ _).mp (described.below_max s mem)
    have piece : (pattern.bytes.take (patternFixedPrefix pattern.bytes)).take dpn.localMax.length ≤
        dpn.localMax :=
      le_trans (Bytes.take_le_take (Bytes.le_of_prefix initial) _) below
    rw [(lessEqThanMax_iff _ _).mpr piece] at aboveMax
    cases aboveMax
  · have lengthLe := described.length_le s mem
    have pieceLe := initial.length_le
    have fixedLe := le_trans (patternFixedPrefix_le pattern.bytes) (patternPrefix_le pattern.bytes)
    rw [length_take] at pieceLe
    omega

theorem plainPrefix_like_iff (plain : NoEscapeBefore esc pattern.bytes n)
    (le : n ≤ patternPrefix pattern.bytes) (dropEq : pattern.bytes.drop n = [percent])
    (inPrefix : n ≤ dpn.getPrefix.length) {s : Bytes} (mem : some s ∈ rows) :
    Like pattern.bytes esc s ↔ Fits (pattern.bytes.take n) (dpn.getPrefix.take n) := by
  have pieceLength : (pattern.bytes.take n).length = n :=
    length_take_of_le (le_trans le (patternPrefix_le _))
  rw [like_iff_plain plain le, dropEq, ← described.take_row mem inPrefix]
  constructor
  · rintro ⟨text, tail, rfl, fits, _⟩
    have textLength : text.length = n := by rw [← fits.length_eq, pieceLength]
    rw [take_append_of_le_length textLength.ge, take_of_length_le textLength.le]
    exact fits
  · intro fits
    exact ⟨s.take n, s.drop n, (take_append_drop n s).symm, fits, like_percent _⟩

theorem literalPrefix_like_iff
    (plain : NoEscapeBefore esc pattern.bytes (patternFixedPrefix pattern.bytes))
    (special : LiteralPrefix dpn pattern.bytes) {s : Bytes} (mem : some s ∈ rows) :
    Like pattern.bytes esc s ↔
      pattern.bytes.take (patternFixedPrefix pattern.bytes) =
        dpn.localMin.take (patternFixedPrefix pattern.bytes) := by
  obtain ⟨_, inPrefix, oneMore, isPercent⟩ := special
  have dropEq : pattern.bytes.drop (patternFixedPrefix pattern.bytes) = [percent] := by
    obtain ⟨c, single⟩ := length_eq_one_iff.mp
      (by rw [length_drop]; omega :
        (pattern.bytes.drop (patternFixedPrefix pattern.bytes)).length = 1)
    have first : (pattern.bytes.drop (patternFixedPrefix pattern.bytes)).head? =
        pattern.bytes[patternFixedPrefix pattern.bytes]? := head?_drop
    rw [single, isPercent, head?_cons, Option.some.injEq] at first
    rw [single, first]
  have noWild : underscore ∉ pattern.bytes.take (patternFixedPrefix pattern.bytes) := by
    intro wild
    exact (literal_of_mem_take (le_refl _) wild).2 rfl
  have sameStart : dpn.getPrefix.take (patternFixedPrefix pattern.bytes) =
      dpn.localMin.take (patternFixedPrefix pattern.bytes) := by
    obtain ⟨rest, minEq⟩ := dpn.getPrefix_prefix_min
    rw [← minEq, take_append_of_le_length inPrefix]
  rw [plainPrefix_like_iff described plain (patternFixedPrefix_le _) dropEq inPrefix mem,
    fits_literal noWild, sameStart]

end

end Bounds

/-! ## The answer from the character map -/

/-- The pattern is `w%` where `w` has a wildcard `_` but is no longer than the pack
prefix. -/
def WildPrefix : Prop :=
  patternPrefix pat + 1 = pat.length ∧ patternPrefix pat ≤ dpn.getPrefix.length ∧
    patternFixedPrefix pat < patternPrefix pat

section Answer

variable {column : TextColumn} {dpn : TextDpn} {rows : List (Option Bytes)} {pattern : RCBString}
  {esc : Byte}

theorem patternForCMap_eq (dpn : TextDpn) (pattern : RCBString) :
    patternForCMap dpn pattern.bytes =
      pattern.bytes.drop (min (patternPrefix pattern.bytes) dpn.getPrefix.length) := by
  have short := pattern.short
  unfold patternForCMap
  by_cases longer : patternPrefix pattern.bytes > dpn.getPrefix.length
  · rw [if_pos longer, min_eq_right longer.le, ofBuffer_of_lt (by omega),
      take_of_length_le (by rw [length_drop])]
  · rw [if_neg longer, min_eq_left (not_lt.mp longer), ofBuffer_of_lt (by omega),
      take_of_length_le (by rw [length_drop])]

/-- The character map is only asked about a pattern whose plain part is longer than
the pack prefix, or it is asked about a pattern that starts with `%`. -/
theorem likeAnswer_cases (column : TextColumn) (dpn : TextDpn) (pattern : RCBString) (esc : Byte) :
    likeAnswer column dpn pattern.bytes esc = likeFromBounds column dpn pattern.bytes ∨
      likeFromBounds column dpn pattern.bytes = .some ∧
        (patternPrefix pattern.bytes > dpn.getPrefix.length ∧
            (∃ map, column.cmap = some map ∧ likeAnswer column dpn pattern.bytes esc =
              map.isLike (pattern.bytes.drop dpn.getPrefix.length) column.pack esc) ∨
          patternPrefix pattern.bytes ≤ dpn.getPrefix.length ∧
            pattern.bytes.drop (patternPrefix pattern.bytes) = [percent] ∧
            likeAnswer column dpn pattern.bytes esc = .all) := by
  unfold likeAnswer
  by_cases asked : likeFromBounds column dpn pattern.bytes = .some ∧
      min (patternPrefix pattern.bytes) dpn.getPrefix.length < pattern.bytes.length
  · simp only [if_pos asked, patternForCMap_eq]
    obtain ⟨isSome, notAll⟩ := asked
    by_cases longer : patternPrefix pattern.bytes > dpn.getPrefix.length
    · rw [min_eq_right longer.le] at notAll ⊢
      have notPercent : pattern.bytes.drop dpn.getPrefix.length ≠ [percent] := by
        intro dropEq
        refine percent_not_mem_take (le_refl (patternPrefix pattern.bytes)) ?_
        refine mem_of_getElem? (i := dpn.getPrefix.length) ?_
        rw [getElem?_take_of_lt longer, ← head?_drop, dropEq, head?_cons]
      rw [if_pos notPercent]
      cases found : column.cmap with
      | none => exact .inl rfl
      | some map => exact .inr ⟨isSome, .inl ⟨longer, map, rfl, rfl⟩⟩
    · rw [min_eq_left (not_lt.mp longer)] at notAll ⊢
      obtain ⟨rest, dropEq⟩ := drop_patternPrefix notAll
      rw [dropEq]
      by_cases onlyPercent : rest = []
      · rw [onlyPercent]
        exact .inr ⟨isSome, .inr ⟨not_lt.mp longer, rfl, by simp⟩⟩
      · left
        rw [if_pos (by simpa using onlyPercent)]
        cases found : column.cmap with
        | none => rfl
        | some map =>
          -- the scan stops at a leading `%`
          rw [isSome]
          dsimp only
          rw [CMap.isLike, CMap.isLikeFrom, if_pos (Or.inl rfl), ite_self]
  · exact .inl (if_neg asked)

/-- The part of the pattern that decides about the answer and is read without regard to the
escape character. -/
def literalRead (column : TextColumn) (dpn : TextDpn) (pat : Bytes) : Nat :=
  if likeFromBounds column dpn pat ≠ .some then patternFixedPrefix pat
  else if min (patternPrefix pat) dpn.getPrefix.length < pat.length ∧
      (column.cmap.isSome ∨ patternForCMap dpn pat = [percent]) then
    min (patternPrefix pat) dpn.getPrefix.length
  else 0

variable {pat s : Bytes}

theorem literalRead_bounds (decided : likeFromBounds column dpn pat ≠ .some) :
    literalRead column dpn pat = patternFixedPrefix pat := if_pos decided

theorem literalRead_map (isSome : likeFromBounds column dpn pat = .some)
    (more : min (patternPrefix pat) dpn.getPrefix.length < pat.length)
    (asked : column.cmap.isSome ∨ patternForCMap dpn pat = [percent]) :
    literalRead column dpn pat = min (patternPrefix pat) dpn.getPrefix.length := by
  rw [literalRead, if_neg (not_not.mpr isSome), if_pos ⟨more, asked⟩]

theorem likeAnswer_none_sound (described : dpn.Describes column.precision rows)
    (filled : CMapFilled column dpn rows)
    (plain : NoEscapeBefore esc pattern.bytes (literalRead column dpn pattern.bytes))
    (isNone : likeAnswer column dpn pattern.bytes esc = .none) (mem : some s ∈ rows) :
    ¬Like pattern.bytes esc s := by
  rcases likeAnswer_cases column dpn pattern esc with
    same | ⟨isSome, ⟨longer, map, found, answer⟩ | last⟩
  · rw [same] at isNone
    rw [literalRead_bounds (by rw [isNone]; simp)] at plain
    rcases likeFromBounds_cases column dpn pattern with ⟨excluded, _⟩ | ⟨_, special, answer⟩ | last
    · exact excluded_sound described plain excluded mem
    · rw [answer] at isNone
      split at isNone
      · cases isNone
      · rename_i differs
        rw [literalPrefix_like_iff described plain special mem]
        exact differs
    · rw [last.2.2] at isNone
      cases isNone
  · -- The map speaks about the texts and the pattern without the pack prefix.
    rw [answer] at isNone
    obtain ⟨m, rfl⟩ := filled map found
    have isMin := min_eq_right longer.le
    rw [literalRead_map isSome (by rw [isMin]; exact longer.trans_le (patternPrefix_le _))
      (.inl (by rw [found]; rfl)), isMin] at plain
    intro like
    obtain ⟨text, tail, rfl, fits, restLike⟩ := (like_iff_plain plain longer.le).mp like
    have textLength : text.length = dpn.getPrefix.length := by
      rw [← fits.length_eq, length_take_of_le]
      exact le_trans longer.le (patternPrefix_le _)
    have stripped : tail ∈ strippedTexts dpn rows := by
      rw [strippedTexts, mem_filterMap]
      exact ⟨some (text ++ tail), mem, by simp [← textLength]⟩
    exact CMap.isLike_sound m column.pack _ _ esc isNone tail stripped restLike
  · rw [last.2.2] at isNone
    cases isNone

theorem likeAnswer_all (described : dpn.Describes column.precision rows)
    (plain : NoEscapeBefore esc pattern.bytes (literalRead column dpn pattern.bytes))
    (isAll : likeAnswer column dpn pattern.bytes esc = .all) :
    (∀ s, some s ∈ rows → Like pattern.bytes esc s) ∨
      WildPrefix dpn pattern.bytes ∧
        lessEqThanMax (pattern.bytes.take (patternFixedPrefix pattern.bytes)) dpn.localMax =
          true := by
  have bounds := likeFromBounds_cases column dpn pattern
  rcases likeAnswer_cases column dpn pattern esc with
    same | ⟨isSome, ⟨_, map, _, answer⟩ | ⟨inPrefix, dropEq, _⟩⟩
  · rw [same] at isAll
    rw [literalRead_bounds (by rw [isAll]; simp)] at plain
    rcases bounds with ⟨_, answer⟩ | ⟨_, special, answer⟩ | ⟨_, _, answer⟩
    · rw [answer] at isAll
      cases isAll
    · rw [answer] at isAll
      split at isAll
      · rename_i agrees
        left
        intro s mem
        exact (literalPrefix_like_iff described plain special mem).mpr agrees
      · cases isAll
    · rw [answer] at isAll
      cases isAll
  · rw [answer] at isAll
    exact absurd isAll (map.isLikeFrom_ne_all _ _ _ _)
  · have notBounds : ¬ExcludedByBounds column dpn pattern.bytes ∧
        ¬LiteralPrefix dpn pattern.bytes := by
      rcases bounds with ⟨_, answer⟩ | ⟨_, _, answer⟩ | ⟨notExcluded, notSpecial, _⟩
      · rw [answer] at isSome
        cases isSome
      · rw [answer] at isSome
        split at isSome <;> cases isSome
      · exact ⟨notExcluded, notSpecial⟩
    have oneMore : patternPrefix pattern.bytes + 1 = pattern.bytes.length := by
      have := congrArg length dropEq
      rw [length_drop, length_singleton] at this
      omega
    rcases lt_or_eq_of_le (patternFixedPrefix_le pattern.bytes) with wild | literal
    · refine .inr ⟨⟨oneMore, inPrefix, wild⟩, ?_⟩
      rw [← Bool.not_eq_false]
      intro aboveMax
      exact notBounds.1 (.inl aboveMax)
    · -- A literal before the `%` leaves only the pattern `%` on a pack without a prefix.
      have noPrefix : patternPrefix pattern.bytes = 0 := by
        by_contra pos
        refine notBounds.2 ⟨by omega, by omega, by omega, ?_⟩
        rw [literal, ← head?_drop, dropEq, head?_cons]
      rw [noPrefix, drop_zero] at dropEq
      left
      intro s _
      rw [dropEq]
      exact like_percent s

theorem wildPrefix_drop (oneMore : patternPrefix pat + 1 = pat.length) :
    pat.drop (patternPrefix pat) = [percent] := by
  obtain ⟨rest, dropEq⟩ := drop_patternPrefix (by omega : patternPrefix pat < _)
  have := congrArg length dropEq
  rw [length_drop, length_cons] at this
  rw [dropEq, length_eq_zero_iff.mp (by omega : rest.length = 0)]

theorem likeFromBounds_wildPrefix (described : dpn.Describes column.precision rows)
    (wild : WildPrefix dpn pattern.bytes)
    (belowMax : lessEqThanMax (pattern.bytes.take (patternFixedPrefix pattern.bytes))
      dpn.localMax = true) (mem : some s ∈ rows) :
    likeFromBounds column dpn pattern.bytes = .some := by
  obtain ⟨oneMore, inPrefix, shorter⟩ := wild
  have prefixLe := (described.prefix_row mem).length_le
  have lengthLe := described.length_le s mem
  rcases likeFromBounds_cases column dpn pattern with
    ⟨aboveMax | tooLong, _⟩ | ⟨_, ⟨_, _, length, _⟩, _⟩ | last
  · rw [belowMax] at aboveMax
    cases aboveMax
  · omega
  · omega
  · exact last.2.2

theorem likeAnswer_wildPrefix (isSome : likeFromBounds column dpn pattern.bytes = .some)
    (wild : WildPrefix dpn pattern.bytes) :
    likeAnswer column dpn pattern.bytes esc = .all := by
  obtain ⟨oneMore, inPrefix, shorter⟩ := wild
  unfold likeAnswer
  simp only [patternForCMap_eq, min_eq_left inPrefix, wildPrefix_drop oneMore]
  rw [if_pos ⟨isSome, by omega⟩, if_neg (by simp)]

theorem literalRead_wildPrefix (isSome : likeFromBounds column dpn pattern.bytes = .some)
    (wild : WildPrefix dpn pattern.bytes) :
    literalRead column dpn pattern.bytes = patternPrefix pattern.bytes := by
  obtain ⟨oneMore, inPrefix, shorter⟩ := wild
  have isMin := min_eq_left inPrefix
  rw [literalRead_map isSome (by omega), isMin]
  exact .inr (by rw [patternForCMap_eq, isMin, wildPrefix_drop oneMore])

end Answer

/-! ## Soundness -/

/-- When a pattern with wildcards before its only `%` reaches the pack prefix, it fits
the prefix, or its answer is dropped because of nulls. -/
def WildPrefixFits (rows : List (Option Bytes)) (pat : Bytes)
    (notLike additionalNulls : Bool) : Prop :=
  (∃ s, some s ∈ rows) → WildPrefix dpn pat →
    lessEqThanMax (pat.take (patternFixedPrefix pat)) dpn.localMax = true →
    (notLike = false ∧ (dpn.noNulls ≠ 0 ∨ additionalNulls = true)) ∨
      Fits (pat.take (patternPrefix pat)) (dpn.getPrefix.take (patternPrefix pat))

end Brighthouse.Core
