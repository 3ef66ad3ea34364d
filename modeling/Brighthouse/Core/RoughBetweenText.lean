import Brighthouse.Core.CMapSound
import Brighthouse.Core.TextPack

/-!
# Rough check of BETWEEN on text

The branch of `RCAttr::RoughCheck` for `O_BETWEEN` and `O_NOT_BETWEEN` on a text
column with a binary collation.  A null bound does not restrict, and `sharp`
excludes the bounds themselves.
-/

set_option autoImplicit false

namespace Brighthouse.Core

open Library Types.BString List Option Bytes CMap

variable {v t : Bytes}

/-! ## The check -/

/-- It is the value length in case of equality. -/
def commonLength : Bytes → Bytes → Nat
  | a :: s, b :: t => if a = b then commonLength s t + 1 else 0
  | _, _ => 0

def valPrefix : Option Bytes → Option Bytes → Nat
  | some vmin, some vmax => commonLength vmin vmax
  | _, _ => 0

variable (column : TextColumn) (dpn : TextDpn) (vmin vmax : Option Bytes)

def betweenFromBounds : RSValue :=
  if valPrefix vmin vmax > dpn.getActualSize column.precision then .none
  else if vmax.any (fun v => !greaterEqThanMin v dpn.localMin) ||
      vmin.any (fun v => !lessEqThanMax v dpn.localMax) then .none
  else if vmin.all (fun v => !greaterEqThanMin v dpn.localMin) &&
      vmax.all (fun v => !lessEqThanMax v dpn.localMax) then .all
  -- exact case for short texts
  else if dpn.getPrefix.length = dpn.getActualSize column.precision ∧ vmin.isSome ∧
      vmin = vmax then
    if vmin.all (fun v => greaterEqThanMin v dpn.localMin && lessEqThanMax v dpn.localMin) then .all
    else .none
  else .some

/-- The bounds are shifted by the pack prefix before the character map is asked. -/
def betweenAnswer (sharp : Bool) : RSValue :=
  let res := betweenFromBounds column dpn vmin vmax
  let packPrefix := dpn.getPrefix.length
  if res = .some ∧ packPrefix ≤ (vmin.getD []).length ∧ packPrefix ≤ (vmax.getD []).length then
    match column.cmap with
    | some map =>
      let res := map.isValue (vmin.map (List.drop packPrefix)) (vmax.map (List.drop packPrefix))
        column.pack
      if sharp = true ∧ res = .all then .some else res
    | none => res
  else res

def roughCheckBetweenText (sharp notBetween additionalNulls : Bool) : RSValue :=
  if dpn.nullsOnly then .none
  else if vmin.isNone && vmax.isNone then .none
  else
    ((betweenAnswer column dpn vmin vmax sharp).negateIf notBetween).withNulls
      (dpn.noNulls != 0 || additionalNulls)

/-- The condition on a text as `EvaluatePack_BetweenString` evaluates it. -/
def InBounds (sharp : Bool) (s : Bytes) : Prop :=
  (∀ lo ∈ vmin, if sharp then lo < s else lo ≤ s) ∧ ∀ hi ∈ vmax, if sharp then s < hi else s ≤ hi

/-! ## The condition -/

section Condition

variable {vmin vmax : Option Bytes} {sharp : Bool} {s : Bytes}

theorem InBounds.between (inBounds : InBounds vmin vmax sharp s) : Between vmin vmax s := by
  obtain ⟨lower, upper⟩ := inBounds
  cases sharp with
  | false => exact ⟨lower, upper⟩
  | true => exact ⟨fun lo bound => (lower lo bound).le, fun hi bound => (upper hi bound).le⟩

theorem inBounds_of_strict (lower : ∀ lo ∈ vmin, lo < s) (upper : ∀ hi ∈ vmax, s < hi) :
    InBounds vmin vmax sharp s := by
  cases sharp with
  | false => exact ⟨fun lo bound => (lower lo bound).le, fun hi bound => (upper hi bound).le⟩
  | true => exact ⟨lower, upper⟩

theorem inBounds_point : InBounds (some v) (some v) sharp s ↔ sharp = false ∧ s = v := by
  constructor
  · rintro ⟨lower, upper⟩
    cases sharp with
    | false => exact ⟨rfl, le_antisymm (upper v rfl) (lower v rfl)⟩
    | true => exact absurd (lower v rfl) (lt_asymm (upper v rfl))
  · rintro ⟨rfl, rfl⟩
    simp [InBounds]

theorem inBounds_shift {common : Bytes} (onMin : ∀ lo ∈ vmin, common <+: lo)
    (onMax : ∀ hi ∈ vmax, common <+: hi) :
    InBounds vmin vmax sharp (common ++ t) ↔
      InBounds (vmin.map (drop common.length)) (vmax.map (drop common.length)) sharp
        t := by
  have lower : (∀ lo ∈ vmin, if sharp then lo < common ++ t else lo ≤ common ++ t) ↔
      ∀ lo ∈ vmin.map (drop common.length), if sharp then lo < t else lo ≤ t := by
    cases vmin with
    | none => simp
    | some lo =>
      obtain ⟨rest, rfl⟩ := onMin lo rfl
      simp [append_le_append_iff, append_lt_append_iff]
  have upper : (∀ hi ∈ vmax, if sharp then common ++ t < hi else common ++ t ≤ hi) ↔
      ∀ hi ∈ vmax.map (drop common.length), if sharp then t < hi else t ≤ hi := by
    cases vmax with
    | none => simp
    | some hi =>
      obtain ⟨rest, rfl⟩ := onMax hi rfl
      simp [append_le_append_iff, append_lt_append_iff]
  exact and_congr lower upper

end Condition

/-! ## The answer from the bounds -/

theorem commonLength_spec (s t : Bytes) :
    ∃ common, common <+: s ∧ common <+: t ∧ common.length = commonLength s t := by
  fun_induction commonLength s t with
  | case1 s a t ih =>
    obtain ⟨common, inS, inT, length⟩ := ih
    exact ⟨a :: common, (prefix_cons_inj a).mpr inS, (prefix_cons_inj a).mpr inT,
      by rw [length_cons, length]⟩
  | case2 => exact ⟨[], nil_prefix, nil_prefix, rfl⟩
  | case3 => exact ⟨[], nil_prefix, nil_prefix, rfl⟩

theorem commonLength_self (s : Bytes) : commonLength s s = s.length := by
  induction s with
  | nil => rfl
  | cons a s ih => rw [commonLength, if_pos rfl, ih, length_cons]

/-- The common part of the bounds is longer than every text, or the pack ends before
the lower bound or starts behind the upper one. -/
def OutsideBounds : Prop :=
  valPrefix vmin vmax > dpn.getActualSize column.precision ∨
    (∃ hi ∈ vmax, greaterEqThanMin hi dpn.localMin = false) ∨
    ∃ lo ∈ vmin, lessEqThanMax lo dpn.localMax = false

def CoversPack : Prop :=
  (∀ lo ∈ vmin, greaterEqThanMin lo dpn.localMin = false) ∧
    ∀ hi ∈ vmax, lessEqThanMax hi dpn.localMax = false

section Bounds

variable {column : TextColumn} {dpn : TextDpn} {rows : List (Option Bytes)}
  {vmin vmax : Option Bytes} {sharp : Bool} {s : Bytes}

theorem betweenFromBounds_cases (column : TextColumn) (dpn : TextDpn) (vmin vmax : Option Bytes) :
    (OutsideBounds column dpn vmin vmax ∧ betweenFromBounds column dpn vmin vmax = .none) ∨
      (¬OutsideBounds column dpn vmin vmax ∧ CoversPack dpn vmin vmax ∧
        betweenFromBounds column dpn vmin vmax = .all) ∨
      (¬OutsideBounds column dpn vmin vmax ∧ ¬CoversPack dpn vmin vmax ∧
        dpn.getPrefix.length = dpn.getActualSize column.precision ∧
        ∃ v, vmin = some v ∧ vmax = some v ∧ betweenFromBounds column dpn vmin vmax =
          if greaterEqThanMin v dpn.localMin && lessEqThanMax v dpn.localMin then .all else .none) ∨
      (¬OutsideBounds column dpn vmin vmax ∧ ¬CoversPack dpn vmin vmax ∧
        ¬(dpn.getPrefix.length = dpn.getActualSize column.precision ∧ vmin.isSome ∧ vmin = vmax) ∧
        betweenFromBounds column dpn vmin vmax = .some) := by
  have outside : OutsideBounds column dpn vmin vmax ↔
      valPrefix vmin vmax > dpn.getActualSize column.precision ∨
        (vmax.any (fun v => !greaterEqThanMin v dpn.localMin) ||
          vmin.any (fun v => !lessEqThanMax v dpn.localMax)) = true := by
    simp [OutsideBounds, Option.any_eq_true]
  have covers : CoversPack dpn vmin vmax ↔
      (vmin.all (fun v => !greaterEqThanMin v dpn.localMin) &&
        vmax.all (fun v => !lessEqThanMax v dpn.localMax)) = true := by
    simp [CoversPack, Option.all_eq_true]
  unfold betweenFromBounds
  rw [outside, covers]
  by_cases long : valPrefix vmin vmax > dpn.getActualSize column.precision
  · exact .inl ⟨.inl long, if_pos long⟩
  rw [if_neg long]
  by_cases apart : (vmax.any (fun v => !greaterEqThanMin v dpn.localMin) ||
      vmin.any (fun v => !lessEqThanMax v dpn.localMax)) = true
  · exact .inl ⟨.inr apart, if_pos apart⟩
  rw [if_neg apart]
  right
  have inside := not_or.mpr ⟨long, apart⟩
  by_cases wide : (vmin.all (fun v => !greaterEqThanMin v dpn.localMin) &&
      vmax.all (fun v => !lessEqThanMax v dpn.localMax)) = true
  · exact .inl ⟨inside, wide, if_pos wide⟩
  rw [if_neg wide]
  right
  by_cases exact' : dpn.getPrefix.length = dpn.getActualSize column.precision ∧ vmin.isSome ∧
      vmin = vmax
  · left
    rw [if_pos exact']
    obtain ⟨size, isSome, rfl⟩ := exact'
    obtain ⟨v, rfl⟩ := isSome_iff_exists.mp isSome
    exact ⟨inside, wide, size, v, rfl, rfl, rfl⟩
  · exact .inr ⟨inside, wide, exact', if_neg exact'⟩

section
variable (described : dpn.Describes column.precision rows)
include described

theorem outsideBounds_sound (outside : OutsideBounds column dpn vmin vmax) (mem : some s ∈ rows) :
    ¬Between vmin vmax s := by
  rintro ⟨lower, upper⟩
  rcases outside with long | ⟨hi, bound, below⟩ | ⟨lo, bound, above⟩
  · cases vmin with
    | none => exact absurd long (Nat.not_lt_zero _)
    | some lo =>
      cases vmax with
      | none => exact absurd long (Nat.not_lt_zero _)
      | some hi =>
        obtain ⟨common, inMin, inMax, length⟩ := commonLength_spec lo hi
        have whole : s.take (max s.length common.length) = s := take_of_length_le (le_max_left _ _)
        have inRow : common <+: s :=
          prefix_of_between common inMin inMax (lower lo rfl)
            (by rw [whole]; exact upper hi rfl) (le_max_right s.length _)
        have commonLe := inRow.length_le
        have rowLe := described.length_le s mem
        have longer : commonLength lo hi > dpn.getActualSize column.precision := long
        omega
  · have above := (greaterEqThanMin_iff _ _).mp (described.above_min s mem)
    rw [(greaterEqThanMin_iff _ _).mpr (le_trans above (upper hi bound))] at below
    cases below
  · have below := (lessEqThanMax_iff _ _).mp (described.below_max s mem)
    rw [(lessEqThanMax_iff _ _).mpr (le_trans (take_le_take (lower lo bound) _) below)]
      at above
    cases above

theorem coversPack_sound (covers : CoversPack dpn vmin vmax) (mem : some s ∈ rows) :
    InBounds vmin vmax sharp s := by
  refine inBounds_of_strict ?_ ?_
  · intro lo bound
    by_contra notBelow
    have above := (greaterEqThanMin_iff _ _).mp (described.above_min s mem)
    have atLeast := (greaterEqThanMin_iff _ _).mpr (le_trans above (not_lt.mp notBelow))
    rw [covers.1 lo bound] at atLeast
    cases atLeast
  · intro hi bound
    by_contra notAbove
    have below := (lessEqThanMax_iff _ _).mp (described.below_max s mem)
    have atMost := (lessEqThanMax_iff _ _).mpr
      (le_trans (take_le_take (not_lt.mp notAbove) _) below)
    rw [covers.2 hi bound] at atMost
    cases atMost

theorem row_eq_getPrefix (size : dpn.getPrefix.length = dpn.getActualSize column.precision)
    (mem : some s ∈ rows) : s = dpn.getPrefix := by
  have lengthLe := described.length_le s mem
  exact ((described.prefix_row mem).eq_of_length_le (by omega)).symm

theorem trimmed_eq_getPrefix (mem : some dpn.getPrefix ∈ rows) :
    trimZeros dpn.localMin = dpn.getPrefix := by
  have above := (greaterEqThanMin_iff _ _).mp (described.above_min _ mem)
  exact le_antisymm above (Bytes.le_of_prefix dpn.getPrefix_prefix_trimmed)

end

theorem point_length_le (inside : ¬OutsideBounds column dpn (some v) (some v)) :
    v.length ≤ dpn.getActualSize column.precision := by
  by_contra long
  refine inside (Or.inl ?_)
  rw [valPrefix, commonLength_self]
  exact not_le.mp long

theorem exactPoint_iff (described : dpn.Describes column.precision rows)
    (size : dpn.getPrefix.length = dpn.getActualSize column.precision) (mem : some s ∈ rows)
    (short : v.length ≤ dpn.getActualSize column.precision) :
    (greaterEqThanMin v dpn.localMin && lessEqThanMax v dpn.localMin) = true ↔
      v = dpn.getPrefix := by
  rw [row_eq_getPrefix described size mem] at mem
  rw [Bool.and_eq_true, greaterEqThanMin_iff, lessEqThanMax_iff, trimmed_eq_getPrefix described mem]
  constructor
  · rintro ⟨above, below⟩
    have starts : dpn.getPrefix <+: v :=
      prefix_of_between _ (prefix_refl _) dpn.getPrefix_prefix_min above below
        (by rw [dpn.min_length]; exact dpn.getPrefix_length)
    exact (starts.eq_of_length_le (by omega)).symm
  · rintro rfl
    exact ⟨le_refl _, le_of_prefix (( take_prefix _ _).trans dpn.getPrefix_prefix_min)⟩

/-- No answer from the bounds is wrong, except for sharp bounds that are both the only
text of the pack. -/
def SharpPoint (column : TextColumn) (dpn : TextDpn) (vmin vmax : Option Bytes) (sharp : Bool) :
    Prop :=
  sharp = true ∧ dpn.getPrefix.length = dpn.getActualSize column.precision ∧
    vmin = some dpn.getPrefix ∧ vmax = some dpn.getPrefix

section
variable (described : dpn.Describes column.precision rows)
include described

theorem betweenFromBounds_none_sound (isNone : betweenFromBounds column dpn vmin vmax = .none)
    (mem : some s ∈ rows) : ¬InBounds vmin vmax sharp s := by
  intro inBounds
  rcases betweenFromBounds_cases column dpn vmin vmax with
    ⟨outside, _⟩ | ⟨_, _, answer⟩ | ⟨inside, _, size, v, rfl, rfl, answer⟩ | ⟨_, _, _, answer⟩
  · exact outsideBounds_sound described outside mem inBounds.between
  · rw [answer] at isNone
    cases isNone
  · have short := point_length_le inside
    have atPoint := (inBounds_point.mp inBounds).2
    have isPrefix := row_eq_getPrefix described size mem
    rw [answer, if_pos ((exactPoint_iff described size mem short).mpr (atPoint ▸ isPrefix))]
      at isNone
    cases isNone
  · rw [answer] at isNone
    cases isNone

theorem betweenFromBounds_all (isAll : betweenFromBounds column dpn vmin vmax = .all) :
    (∀ s, some s ∈ rows → InBounds vmin vmax sharp s) ∨
      SharpPoint column dpn vmin vmax sharp ∧ ∃ s, some s ∈ rows := by
  by_cases nonempty : ∃ s, some s ∈ rows
  · obtain ⟨s, mem⟩ := nonempty
    rcases betweenFromBounds_cases column dpn vmin vmax with
      ⟨_, answer⟩ | ⟨_, covers, _⟩ | ⟨inside, _, size, v, rfl, rfl, answer⟩ | ⟨_, _, _, answer⟩
    · rw [answer] at isAll
      cases isAll
    · left
      intro t inPack
      exact coversPack_sound described covers inPack
    · have short := point_length_le inside
      rw [answer] at isAll
      split at isAll
      · rename_i agrees
        have point := (exactPoint_iff described size mem short).mp agrees
        cases sharp with
        | false =>
          left
          intro t inPack
          rw [inBounds_point, row_eq_getPrefix described size inPack, point]
          exact ⟨rfl, rfl⟩
        | true => exact .inr ⟨⟨rfl, size, by rw [point], by rw [point]⟩, s, mem⟩
      · cases isAll
    · rw [answer] at isAll
      cases isAll
  · left
    intro s mem
    exact absurd ⟨s, mem⟩ nonempty

theorem betweenFromBounds_sharpPoint (point : SharpPoint column dpn vmin vmax sharp)
    (mem : some s ∈ rows) : betweenFromBounds column dpn vmin vmax = .all := by
  obtain ⟨_, size, rfl, rfl⟩ := point
  have agrees := (exactPoint_iff described size mem (size.le)).mpr rfl
  have inPack := row_eq_getPrefix described size mem ▸ mem
  rcases betweenFromBounds_cases column dpn (some dpn.getPrefix) (some dpn.getPrefix) with
    ⟨outside, _⟩ | ⟨_, _, answer⟩ | ⟨_, _, _, v, same, _, answer⟩ | ⟨_, _, notPoint, _⟩
  · exact absurd (inBounds_point.mpr ⟨rfl, rfl⟩ : InBounds _ _ false _).between
      (outsideBounds_sound described outside inPack)
  · exact answer
  · rw [answer, if_pos (some.inj same ▸ agrees)]
  · exact absurd ⟨size, rfl, rfl⟩ notPoint

end

end Bounds

/-! ## The answer from the character map -/

def OnPrefix : Prop :=
  (∀ lo ∈ vmin, dpn.getPrefix <+: lo) ∧ ∀ hi ∈ vmax, dpn.getPrefix <+: hi

/-- The map is asked, the bounds are shifted by the pack prefix, and a row inside the
bounds is not seen.  If both bounds start with the prefix, this is a row equal to the
prefix.  If one of them does not, it may be any row. -/
def RowHidden (rows : List (Option Bytes)) (vmin vmax : Option Bytes) (sharp : Bool) : Prop :=
  let packPrefix := dpn.getPrefix.length
  let texts := strippedTexts dpn rows
  let lo := vmin.map (List.drop packPrefix)
  let hi := vmax.map (List.drop packPrefix)
  ∃ map ∈ column.cmap, packPrefix ≤ (vmin.getD []).length ∧ packPrefix ≤ (vmax.getD []).length ∧
    ¬CoversPack dpn vmin vmax ∧
    (OnPrefix dpn vmin vmax ∧ EmptyMissed texts lo hi ∧
        (sharp = true → lo = none ∧ hi ≠ some []) ∨
      ¬OnPrefix dpn vmin vmax ∧ (∃ s, some s ∈ rows ∧ InBounds vmin vmax sharp s) ∧
        ¬Marked map.noPositions texts lo hi)

section Query

variable {texts : List Bytes} {lo hi : Option Bytes} {sharp : Bool} {noPositions : Nat}

theorem unmarked_iff :
    ((∃ t ∈ texts, InBounds lo hi sharp t) ∧ ¬Marked noPositions texts lo hi) ↔
      EmptyMissed texts lo hi ∧ (sharp = true → lo = none ∧ hi ≠ some []) := by
  constructor
  · rintro ⟨⟨t, mem, inBounds⟩, notMarked⟩
    have notPoint : ¬(lo.isSome ∧ lo = hi) := by
      rintro ⟨isSome, rfl⟩
      obtain ⟨v, rfl⟩ := isSome_iff_exists.mp isSome
      refine notMarked (.inl ⟨v, rfl, rfl, ?_⟩)
      intro i c _ at'
      exact ⟨t, mem, by rw [(inBounds_point.mp inBounds).2]; exact at'⟩
    have notFirst : ¬FirstSeen texts lo hi := by
      intro seen
      exact notMarked (.inr ⟨notPoint, seen⟩)
    have between := inBounds.between
    cases t with
    | cons c rest =>
      exact absurd ⟨c, rest, mem, first_le between.1, le_last between.2⟩ notFirst
    | nil =>
      have lowEmpty : lo.getD [] = [] := by
        cases lo with
        | none => rfl
        | some v => exact eq_nil_of_le_nil (between.1 v rfl)
      refine ⟨⟨mem, lowEmpty, notPoint, ?_⟩, ?_⟩
      · intro c rest inPack
        refine not_le.mp fun upper => notFirst ⟨c, rest, inPack, ?_, upper⟩
        rw [lowEmpty]
        exact Fin.zero_le c
      · rintro rfl
        refine ⟨?_, ?_⟩
        · cases lo with
          | none => rfl
          | some v => exact absurd (inBounds.1 v rfl) (not_lt_nil v)
        · rintro rfl
          exact absurd (inBounds.2 [] rfl) (not_lt_nil [])
  · rintro ⟨⟨mem, lowEmpty, notPoint, above⟩, strict⟩
    refine ⟨⟨[], mem, ?_⟩, ?_⟩
    · cases sharp with
      | false =>
        refine ⟨?_, fun v _ => nil_le v⟩
        rintro v rfl
        exact le_of_eq lowEmpty
      | true =>
        obtain ⟨rfl, notEmpty⟩ := strict rfl
        refine ⟨fun v absent => (not_mem_none v absent).elim, ?_⟩
        rintro v rfl
        exact lt_of_le_of_ne (nil_le v) fun same => notEmpty (by rw [← same])
    · rintro (⟨v, rfl, rfl, _⟩ | ⟨_, c, rest, inPack, _, upper⟩)
      · exact notPoint ⟨rfl, rfl⟩
      · exact absurd upper (not_le.mpr (above c rest inPack))

end Query

section Answer

variable {column : TextColumn} {dpn : TextDpn} {rows : List (Option Bytes)}
  {vmin vmax : Option Bytes} {sharp : Bool}

theorem isValue_ne_all (map : CMap) (lo hi : Option Bytes) (pack : Int) :
    map.isValue lo hi pack ≠ .all := by
  unfold isValue
  dsimp only
  split
  · split <;> simp
  · split <;> simp

theorem mem_strippedTexts (described : dpn.Describes column.precision rows) :
    t ∈ strippedTexts dpn rows ↔ some (dpn.getPrefix ++ t) ∈ rows := by
  rw [strippedTexts, mem_filterMap]
  constructor
  · rintro ⟨row, mem, stripped⟩
    obtain ⟨s, rfl, rfl⟩ := map_eq_some_iff.mp stripped
    obtain ⟨rest, rfl⟩ := described.prefix_row mem
    rw [drop_left]
    exact mem
  · intro mem
    exact ⟨_, mem, by rw [map_some, drop_left]⟩

theorem rowHidden_iff (described : dpn.Describes column.precision rows) :
    RowHidden column dpn rows vmin vmax sharp ↔
      ∃ map ∈ column.cmap, dpn.getPrefix.length ≤ (vmin.getD []).length ∧
        dpn.getPrefix.length ≤ (vmax.getD []).length ∧ ¬CoversPack dpn vmin vmax ∧
        (∃ s, some s ∈ rows ∧ InBounds vmin vmax sharp s) ∧
        ¬Marked map.noPositions (strippedTexts dpn rows)
          (vmin.map (drop dpn.getPrefix.length)) (vmax.map (drop dpn.getPrefix.length)) := by
  have shifted : OnPrefix dpn vmin vmax →
      ((∃ s, some s ∈ rows ∧ InBounds vmin vmax sharp s) ↔
        ∃ t ∈ strippedTexts dpn rows, InBounds (vmin.map (drop dpn.getPrefix.length))
          (vmax.map (drop dpn.getPrefix.length)) sharp t) := by
    rintro ⟨onMin, onMax⟩
    constructor
    · rintro ⟨s, mem, inBounds⟩
      obtain ⟨t, rfl⟩ := described.prefix_row mem
      exact ⟨t, (mem_strippedTexts described).mpr mem, (inBounds_shift onMin onMax).mp inBounds⟩
    · rintro ⟨t, mem, inBounds⟩
      exact ⟨_, (mem_strippedTexts described).mp mem, (inBounds_shift onMin onMax).mpr inBounds⟩
  refine exists_congr fun map => and_congr_right fun _ => and_congr_right fun _ =>
    and_congr_right fun _ => and_congr_right fun _ => ?_
  by_cases onPrefix : OnPrefix dpn vmin vmax
  · simp only [onPrefix, true_and, not_true, false_and, or_false]
    rw [shifted onPrefix]
    exact unmarked_iff.symm
  · simp only [onPrefix, false_and, not_false_eq_true, true_and, false_or]

theorem betweenAnswer_cases (column : TextColumn) (dpn : TextDpn) (vmin vmax : Option Bytes)
    (sharp : Bool) :
    betweenAnswer column dpn vmin vmax sharp = betweenFromBounds column dpn vmin vmax ∨
      betweenFromBounds column dpn vmin vmax = .some ∧
        ∃ map ∈ column.cmap, dpn.getPrefix.length ≤ (vmin.getD []).length ∧
          dpn.getPrefix.length ≤ (vmax.getD []).length ∧
          betweenAnswer column dpn vmin vmax sharp =
            map.isValue (vmin.map (drop dpn.getPrefix.length))
              (vmax.map (drop dpn.getPrefix.length)) column.pack := by
  unfold betweenAnswer
  by_cases asked : betweenFromBounds column dpn vmin vmax = .some ∧
      dpn.getPrefix.length ≤ (vmin.getD []).length ∧ dpn.getPrefix.length ≤ (vmax.getD []).length
  · simp only [if_pos asked]
    obtain ⟨isSome, minLong, maxLong⟩ := asked
    cases found : column.cmap with
    | none => exact .inl rfl
    | some map =>
      refine .inr ⟨isSome, map, rfl, minLong, maxLong, if_neg ?_⟩
      rintro ⟨_, isAll⟩
      exact isValue_ne_all _ _ _ _ isAll
  · exact .inl (if_neg asked)

section
variable (described : dpn.Describes column.precision rows)
include described

theorem betweenAnswer_none (filled : CMapFilled column dpn rows)
    (isNone : betweenAnswer column dpn vmin vmax sharp = .none) :
    (∀ s, some s ∈ rows → ¬InBounds vmin vmax sharp s) ∨
      RowHidden column dpn rows vmin vmax sharp := by
  rcases betweenAnswer_cases column dpn vmin vmax sharp with
    same | ⟨isSome, map, found, minLong, maxLong, answer⟩
  · rw [same] at isNone
    left
    intro s mem
    exact betweenFromBounds_none_sound described isNone mem
  · rw [answer] at isNone
    have notCovers : ¬CoversPack dpn vmin vmax := by
      rcases betweenFromBounds_cases column dpn vmin vmax with
        ⟨_, other⟩ | ⟨_, _, other⟩ | ⟨_, notCovers, _⟩ | ⟨_, notCovers, _⟩
      · rw [other] at isSome
        cases isSome
      · rw [other] at isSome
        cases isSome
      · exact notCovers
      · exact notCovers
    obtain ⟨m, rfl⟩ := filled map found
    rw [rowHidden_iff described]
    by_cases inside : ∃ s, some s ∈ rows ∧ InBounds vmin vmax sharp s
    · right
      refine ⟨_, found, minLong, maxLong, notCovers, inside, ?_⟩
      rw [fill_noPositions]
      rcases isValue_fill m column.pack (strippedTexts dpn rows)
          (vmin.map (drop dpn.getPrefix.length)) (vmax.map (drop dpn.getPrefix.length)) with
        ⟨other, _⟩ | ⟨_, notMarked⟩
      · rw [other] at isNone
        cases isNone
      · exact notMarked
    · left
      intro s mem inBounds
      exact inside ⟨s, mem, inBounds⟩

theorem betweenAnswer_rowHidden (filled : CMapFilled column dpn rows)
    (hidden : RowHidden column dpn rows vmin vmax sharp) :
    betweenAnswer column dpn vmin vmax sharp = .none ∧
      ∃ s, some s ∈ rows ∧ InBounds vmin vmax sharp s := by
  obtain ⟨map, found, minLong, maxLong, notCovers, ⟨s, mem, inBounds⟩, notMarked⟩ :=
    (rowHidden_iff described).mp hidden
  refine ⟨?_, s, mem, inBounds⟩
  obtain ⟨m, rfl⟩ := filled map found
  rw [fill_noPositions] at notMarked
  have notPoint : ¬(vmin.isSome ∧ vmin = vmax) := by
    rintro ⟨isSome, rfl⟩
    obtain ⟨v, rfl⟩ := isSome_iff_exists.mp isSome
    have atPoint := (inBounds_point.mp inBounds).2
    refine notMarked (.inl ⟨_, rfl, rfl, ?_⟩)
    intro i c _ at'
    obtain ⟨t, rowEq⟩ := described.prefix_row mem
    refine ⟨t, (mem_strippedTexts described).mpr (rowEq ▸ mem), ?_⟩
    rw [← atPoint, ← rowEq, drop_left] at at'
    exact at'
  have isSome : betweenFromBounds column dpn vmin vmax = .some := by
    rcases betweenFromBounds_cases column dpn vmin vmax with
      ⟨outside, _⟩ | ⟨_, covers, _⟩ | ⟨_, _, _, v, rfl, rfl, _⟩ | ⟨_, _, _, answer⟩
    · exact absurd inBounds.between (outsideBounds_sound described outside mem)
    · exact absurd covers notCovers
    · exact absurd ⟨rfl, rfl⟩ notPoint
    · exact answer
  have isNone : (m.fill column.pack (strippedTexts dpn rows)).isValue
      (vmin.map (drop dpn.getPrefix.length)) (vmax.map (drop dpn.getPrefix.length))
      column.pack = .none := by
    rcases isValue_fill m column.pack (strippedTexts dpn rows)
        (vmin.map (drop dpn.getPrefix.length)) (vmax.map (drop dpn.getPrefix.length)) with
      ⟨_, marked⟩ | ⟨answer, _⟩
    · exact absurd marked notMarked
    · exact answer
  unfold betweenAnswer
  rw [if_pos ⟨isSome, minLong, maxLong⟩, mem_def.mp found]
  simp only [isNone]
  rw [if_neg (by simp)]

theorem betweenAnswer_all (isAll : betweenAnswer column dpn vmin vmax sharp = .all) :
    (∀ s, some s ∈ rows → InBounds vmin vmax sharp s) ∨
      SharpPoint column dpn vmin vmax sharp ∧ ∃ s, some s ∈ rows := by
  rcases betweenAnswer_cases column dpn vmin vmax sharp with same | ⟨_, map, _, _, _, answer⟩
  · rw [same] at isAll
    exact betweenFromBounds_all described isAll
  · rw [answer] at isAll
    exact absurd isAll (isValue_ne_all _ _ _ _)

theorem betweenAnswer_sharpPoint (point : SharpPoint column dpn vmin vmax sharp) {s : Bytes}
    (mem : some s ∈ rows) : betweenAnswer column dpn vmin vmax sharp = .all := by
  have isAll := betweenFromBounds_sharpPoint described point mem
  rcases betweenAnswer_cases column dpn vmin vmax sharp with same | ⟨isSome, _⟩
  · rw [same, isAll]
  · rw [isAll] at isSome
    cases isSome

end

end Answer

/-! ## Soundness -/

theorem roughCheckBetweenText_sound_iff (column : TextColumn) (dpn : TextDpn)
    (rows : List (Option Bytes)) (vmin vmax : Option Bytes)
    (sharp notBetween additionalNulls : Bool)
    (described : dpn.Describes column.precision rows) (filled : CMapFilled column dpn rows)
    (bounded : vmin.isSome ∨ vmax.isSome) :
    (roughCheckBetweenText column dpn vmin vmax sharp notBetween additionalNulls).Sound
        (rowsWith rows additionalNulls)
        (RoughAnswer.Holds (InBounds vmin vmax sharp) notBetween) ↔
      (RowHidden column dpn rows vmin vmax sharp →
          notBetween = true ∧ (dpn.noNulls ≠ 0 ∨ additionalNulls = true)) ∧
        (SharpPoint column dpn vmin vmax sharp → (∃ s, some s ∈ rows) →
          notBetween = false ∧ (dpn.noNulls ≠ 0 ∨ additionalNulls = true)) := by
  unfold roughCheckBetweenText
  by_cases onlyNulls : dpn.nullsOnly = true
  · rw [if_pos onlyNulls]
    have noText : ∀ s, some s ∉ rows := by
      intro s member
      cases described.nullsOnly_iff.mp onlyNulls _ member
    refine iff_of_true (described.sound_nullsOnly onlyNulls) ⟨?_, ?_⟩
    · intro hidden
      obtain ⟨_, s, member, _⟩ := betweenAnswer_rowHidden described filled hidden
      exact absurd member (noText s)
    · rintro _ ⟨s, member⟩
      exact absurd member (noText s)
  · have notUnbounded : ¬(vmin.isNone && vmax.isNone) = true := by
      rcases bounded with isSome | isSome <;> simp [isSome_iff_ne_none.mp isSome]
    rw [if_neg onlyNulls, if_neg notUnbounded,
      RoughAnswer.sound_withNulls_iff (described.noNull_rowsWith)]
    simp only [some_mem_rowsWith, Dpn.mayHaveNulls_iff]
    refine and_congr ?_ ?_
    · constructor
      · intro noneSound hidden
        obtain ⟨isNone, s, member, inBounds⟩ := betweenAnswer_rowHidden described filled hidden
        rcases noneSound isNone with masked | noRow
        · exact masked
        · exact absurd inBounds (noRow s member)
      · intro masked isNone
        rcases betweenAnswer_none described filled isNone with noRow | hidden
        · exact Or.inr noRow
        · exact Or.inl (masked hidden)
    · constructor
      · rintro allSound point ⟨s, member⟩
        rcases allSound (betweenAnswer_sharpPoint described point member) with masked | every
        · exact masked
        · obtain ⟨rfl, _, rfl, rfl⟩ := point
          cases (inBounds_point.mp (every s member)).1
      · intro masked isAll
        rcases betweenAnswer_all described isAll with every | ⟨point, nonempty⟩
        · exact Or.inr every
        · exact Or.inl (masked point nonempty)

/-- `'abc' BETWEEN 'abb' AND 'abd'` on a pack with the single row `abc`. -/
theorem roughCheckBetweenText_abc :
    (roughCheckBetweenText ⟨10, none, 0⟩ (.ofText [97, 98, 99]) (some [97, 98, 98])
        (some [97, 98, 100]) false false false).Sound (rowsWith [some [97, 98, 99]] false)
      (RoughAnswer.Holds (InBounds (some [97, 98, 98]) (some [97, 98, 100]) false) false) := by
  refine (roughCheckBetweenText_sound_iff ⟨10, none, 0⟩ _ [some [97, 98, 99]] (some [97, 98, 98])
    (some [97, 98, 100]) false false false (TextDpn.ofText_describes (by decide)) ?_
    (Or.inl rfl)).mpr ⟨?_, ?_⟩
  · rintro map found
    cases found
  · rintro ⟨map, found, _⟩
    cases found
  · rintro ⟨sharp, _⟩
    cases sharp

/-- The lower bound `aaaaaaaaz` is below the pack, but the map is asked for texts that
start between its ninth character `z` and the `x` of the upper bound. -/
theorem roughCheckBetweenText_denies_upper_bound :
    (TextDpn.ofText [98, 98, 98, 98, 98, 98, 98, 98, 120]).Describes 10
        [some [98, 98, 98, 98, 98, 98, 98, 98, 120]] ∧
      roughCheckBetweenText
        ⟨10, some ((⟨64, by decide, fun _ => WordTable.cleared⟩ : CMap).fill 0
          (strippedTexts (.ofText [98, 98, 98, 98, 98, 98, 98, 98, 120])
            [some [98, 98, 98, 98, 98, 98, 98, 98, 120]])), 0⟩
        (.ofText [98, 98, 98, 98, 98, 98, 98, 98, 120])
        (some [97, 97, 97, 97, 97, 97, 97, 97, 122]) (some [98, 98, 98, 98, 98, 98, 98, 98, 120])
        false false false = .none ∧
      InBounds (some [97, 97, 97, 97, 97, 97, 97, 97, 122])
        (some [98, 98, 98, 98, 98, 98, 98, 98, 120]) false
        [98, 98, 98, 98, 98, 98, 98, 98, 120] := by
  refine ⟨TextDpn.ofText_describes (by decide), by decide, ?_⟩
  refine ⟨?_, ?_⟩
  · rintro lo ⟨⟩
    decide
  · rintro hi ⟨⟩
    decide

end Brighthouse.Core
