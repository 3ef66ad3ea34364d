import Brighthouse.Core.HistogramSound
import Brighthouse.Core.Pack
import Brighthouse.Core.RCNumCompare

/-!
# Rough check of numeric packs

The branches of `RCAttr::RoughCheck` for packs of 64-bit codes that are not floating
point numbers: conditions with constants, and comparisons with another column of
the same packrow.  Histogram answers are taken to be sound, and then so are the
answers of the check, except for the sets of integer columns, which may hold doubles.
-/

set_option autoImplicit false

namespace Brighthouse.Core

open Library Library.Binary64 Library.Word64 Histogram
open RoughAnswer (sound_all_iff sound_none_iff sound_some)

/-! ## Packs and columns -/

structure NumDpn extends Dpn where
  localMin : Int
  localMax : Int
  min_int64 : IsInt64 localMin
  max_int64 : IsInt64 localMax

structure NumDpn.Describes (dpn : NumDpn) (rows : List (Option Int)) : Prop
    extends Dpn.Counts dpn.toDpn rows where
  min_le : ∀ x, some x ∈ rows → dpn.localMin ≤ x
  le_max : ∀ x, some x ∈ rows → x ≤ dpn.localMax
  codes : ∀ x, some x ∈ rows → nullValue64 < x ∧ x < plusInf64

structure NumType where
  typeName : AttributeType
  notReal : typeName.isRealType = false
  scale : Nat
  isLookup : Bool

/-- `hist` is the histogram of the column if there is one that is up to date. -/
structure NumColumn extends NumType where
  hist : Option Hist
  pack : Int

/-! ## Sets of constants -/

inductive SetNum where
  | num (v : RCNum)
  | real (vd : ℚ)

namespace SetNum

def toReal : SetNum → ℚ
  | num v => round53 (round53 v.value / round53 (10 ^ v.scale))
  | real vd => vd

def compare : SetNum → SetNum → Int
  | num a, num b => a.compare b
  | a, b => if a.toReal > b.toReal then 1 else if a.toReal = b.toReal then 0 else -1

/-- `ToDecimal(0)`; a double with a fraction is no decimal of that scale. -/
def toDecimal : SetNum → Option Int
  | num v => some v.value
  | real vd =>
    if vd.den ≠ 1 then none
    else if 10 ^ 18 ≤ |vd| then some (vd.num.sign * (10 ^ 18 - 1)) else some vd.num

def units (dplaces : Nat) : SetNum → ℚ
  | num v => v.units dplaces
  | real vd => vd * 10 ^ dplaces

/-- What `ValueSet::Prepare` leaves: decimals of the scale of the column, for a lookup column
codes, and doubles for an integer column. -/
def Prepared (t : NumType) : SetNum → Prop
  | num v => v.scale = t.scale ∧ v.value ≠ nullValue64
  | real vd => t.typeName.isIntegerType = true ∧ t.isLookup = false ∧ t.scale = 0 ∧
    round53 vd = vd

/-- The fold in `Prepare`: a number replaces the bound unless it `loses`. -/
def bound (loses : Int → Bool) (values : List SetNum) : Option SetNum :=
  values.foldl (fun best v => if best.any fun b => loses (v.compare b) then best else some v) none

end SetNum

/-- The set of an `IN` list without nulls, in the order of the loop in `Prepare`. -/
structure ValueSet (t : NumType) where
  values : List SetNum
  prepared : ∀ v ∈ values, v.Prepared t

namespace ValueSet

variable {t : NumType} (set : ValueSet t)

def setMin : Option SetNum := SetNum.bound (0 < ·) set.values

def setMax : Option SetNum := SetNum.bound (· < 0) set.values

/-- The code `x` of an integer column is asked for as `RCNum(x, 0)`, a decimal, and `Contains`
prepares the set for decimals first. -/
def contains (x : Int) : Bool := set.values.any (·.toDecimal == some x)

/-- A value of the set is the number with code `x` in the column. -/
def Has (x : Int) : Prop := ∃ v ∈ set.values, v.units t.scale = x

end ValueSet

inductive NumCondition (t : NumType) where
  | isNull
  | notNull
  | between (v1 v2 : Int) (int64 : IsInt64 v1 ∧ IsInt64 v2) (negated : Bool)
  | inSet (set : ValueSet t) (negated : Bool)

/-! ## Conditions with constants -/

variable (column : NumColumn) (dpn : NumDpn)

def histAnswer (v1 v2 : Int) : RSValue :=
  match column.hist with
  | some hist => hist.isValue v1 v2 column.pack dpn.localMin dpn.localMax
  | none => .some

def roughCheckBetween (v1 v2 : Int) : RSValue :=
  let res : RSValue :=
    if v1 = plusInf64 ∨ v2 = minusInf64 then .none
    else if v1 > dpn.localMax ∨ v2 < dpn.localMin then .none
    else if v1 ≤ dpn.localMin ∧ v2 ≥ dpn.localMax then .all
    else if v1 > v2 then .none
    else histAnswer column dpn v1 v2
  res.withNulls (dpn.noNulls != 0)

/-- Infinities are replaced by the pack bounds. -/
def betweenAnswerNum (v1 v2 : Int) : RSValue :=
  roughCheckBetween column dpn (if v1 = minusInf64 then dpn.localMin else v1)
    (if v2 = plusInf64 then dpn.localMax else v2)

def setCode (t : NumType) : SetNum → Int × Bool
  | .num v => if t.isLookup then (v.value, false) else encodeValue64 t.scale v
  | .real vd => encodeReal64 t.scale vd

def inFromBounds (set : ValueSet column.toNumType) (v1 v2 : Int) : RSValue :=
  if v1 > dpn.localMax ∨ v2 < dpn.localMin then .none
  else if dpn.localMin = dpn.localMax then
    if set.contains dpn.localMin then .all else .none
  else
    let res := histAnswer column dpn v1 v2
    -- v1, v2 are just a boundary, not continuous interval
    if res = .all then .some else res

/-- The value of the set is possible in the pack.  A rounded value is not. -/
def suspected (v : SetNum) : Bool :=
  let code := setCode column.toNumType v
  !code.2 &&
    match column.hist with
    | none => code.1 ≤ dpn.localMax && code.1 ≥ dpn.localMin
    | some hist => hist.isValue code.1 code.1 column.pack dpn.localMin dpn.localMax != .none

def inAnswer (set : ValueSet column.toNumType) : RSValue :=
  match set.setMin, set.setMax with
  | some lo, some hi =>
    let res := inFromBounds column dpn set (setCode column.toNumType lo).1
      (setCode column.toNumType hi).1
    if res = .some ∧ set.values.length > 0 ∧ set.values.length < 64 then
      if set.values.any (suspected column dpn) then .some else .none
    else res
  -- cannot determine min/max
  | _, _ => .some

def roughCheckNum (additionalNulls : Bool) : NumCondition column.toNumType → RSValue
  | .isNull =>
    if dpn.nullsOnly then .all
    else if dpn.noNulls = 0 ∧ additionalNulls = false then .none
    else .some
  | .notNull =>
    if dpn.nullsOnly then .none
    else if dpn.noNulls = 0 ∧ additionalNulls = false then .all
    else .some
  | .between v1 v2 _ negated =>
    if dpn.nullsOnly then .none
    else ((betweenAnswerNum column dpn v1 v2).negateIf negated).withNulls
      (dpn.noNulls != 0 || additionalNulls)
  | .inSet set negated =>
    if dpn.nullsOnly then .none
    else ((inAnswer column dpn set).negateIf negated).withNulls
      (dpn.noNulls != 0 || additionalNulls)

def NumCondition.Satisfied {t : NumType} : NumCondition t → Option Int → Prop
  | .isNull => fun row => row = none
  | .notNull => fun row => row ≠ none
  | .between v1 v2 _ negated => RoughAnswer.Holds (fun x => v1 ≤ x ∧ x ≤ v2) negated
  | .inSet set negated => RoughAnswer.Holds set.Has negated

/-! ## Comparisons with another column -/

/-- `O_NOT_EQ`, `O_LESS_EQ` and `O_MORE_EQ` are treated as negations. -/
def CompareOp.negation (op : CompareOp) : Bool := op == .notEq || op == .lessEq || op == .moreEq

/-- Only `O_MORE`, `O_LESS` and `O_EQ` are analysed, the other operators are negated later. -/
def compareFromBounds (op : CompareOp) (v1min v1max v2min v2max : Int) : RSValue :=
  let res : RSValue := .some
  let res :=
    if v1min ≥ v2max then
      let res := if op = .less ∨ op = .moreEq then .none else res
      if v1min > v2max then
        let res := if op = .eq ∨ op = .notEq then .none else res
        if op = .more ∨ op = .lessEq then .all else res
      else res
    else res
  if v1max ≤ v2min then
    let res := if op = .more ∨ op = .lessEq then .none else res
    if v1max < v2min then
      let res := if op = .eq ∨ op = .notEq then .none else res
      if op = .less ∨ op = .moreEq then .all else res
    else res
  else res

/-- Both packs have the same number, and the histograms are asked whether they intersect. -/
def compareAnswer (sec : NumColumn) (secDpn : NumDpn) (op : CompareOp) : RSValue :=
  let res := compareFromBounds op dpn.localMin dpn.localMax secDpn.localMin secDpn.localMax
  if res = .some ∧ (op = .eq ∨ op = .notEq) then
    match column.hist, sec.hist with
    | some hist1, some hist2 =>
      if hist1.intersection column.pack dpn.localMin dpn.localMax hist2 column.pack
        secDpn.localMin secDpn.localMax = false then .none else res
    | _, _ => res
  else res

def roughCheckAttr (sec : NumColumn) (secDpn : NumDpn)
    (op : CompareOp) (additionalNulls : Bool) : RSValue :=
  if (column.typeName ≠ sec.typeName ∧
        ¬(column.typeName.isDateTimeType ∧ sec.typeName.isDateTimeType) ∧
        ¬(column.typeName.isIntegerType ∧ sec.typeName.isIntegerType)) ∨
      column.scale ≠ sec.scale ∨ column.isLookup ∨ sec.isLookup then .some
  else
    ((compareAnswer column dpn sec secDpn op).negateIf op.negation).withNulls
      (dpn.noNulls != 0 || secDpn.noNulls != 0 || additionalNulls)

def pairRows (rows secRows : List (Option Int)) : List (Option (Int × Int)) :=
  List.zipWith (Option.map₂ Prod.mk) rows secRows

def CompareOp.Satisfied (op : CompareOp) : Option (Int × Int) → Prop
  | none => False
  | some (x, y) => op.Compares x y

/-! ## Soundness of the answers about constants -/

/-- The histogram of the column answers soundly for the values of the pack. -/
def HistSound (rows : List (Option Int)) : Prop :=
  ∀ hist ∈ column.hist,
    AnswersSoundly hist column.pack rows.reduceOption dpn.localMin dpn.localMax

section Constants

variable {column : NumColumn} {dpn : NumDpn} {rows : List (Option Int)}

theorem histAnswer_sound (sound : HistSound column dpn rows) {v1 v2 : Int} (int1 : IsInt64 v1)
    (int2 : IsInt64 v2) (le : v1 ≤ v2) :
    (histAnswer column dpn v1 v2).Sound {x | some x ∈ rows} fun x => v1 ≤ x ∧ x ≤ v2 := by
  rw [histAnswer]
  split
  · rename_i hist found
    have answers := sound hist found v1 v2 int1 int2 le
    exact ⟨fun isNone x mem => answers.none_sound isNone x (List.reduceOption_mem_iff.mpr mem),
      fun isAll x mem => answers.all_sound isAll x (List.reduceOption_mem_iff.mpr mem)⟩
  · exact sound_some

section
variable (described : dpn.Describes rows) (sound : HistSound column dpn rows) {v1 v2 : Int}
  (int1 : IsInt64 v1) (int2 : IsInt64 v2)
include described sound int1 int2

theorem roughCheckBetween_sound :
    (roughCheckBetween column dpn v1 v2).Sound {x | some x ∈ rows} fun x => v1 ≤ x ∧ x ≤ v2 := by
  have inside : ∀ x, some x ∈ rows → minusInf64 < x ∧ x < plusInf64 ∧ dpn.localMin ≤ x ∧
      x ≤ dpn.localMax := by
    intro x mem
    obtain ⟨low, high⟩ := described.codes x mem
    rw [nullValue64] at low
    exact ⟨by omega, high, described.min_le x mem, described.le_max x mem⟩
  refine RoughAnswer.Sound.withNulls ?_
  split_ifs with infinite apart within reversed
  · refine sound_none_iff.mpr fun x mem => ?_
    have := inside x mem
    omega
  · refine sound_none_iff.mpr fun x mem => ?_
    have := inside x mem
    omega
  · refine sound_all_iff.mpr fun x mem => ?_
    have := inside x mem
    omega
  · exact sound_none_iff.mpr fun x _ => by omega
  · exact histAnswer_sound sound int1 int2 (not_lt.mp reversed)

end

theorem infinities_iff (described : dpn.Describes rows) (v1 v2 : Int) {x : Int}
    (mem : some x ∈ rows) :
    ((if v1 = minusInf64 then dpn.localMin else v1) ≤ x ∧
        x ≤ if v2 = plusInf64 then dpn.localMax else v2) ↔ v1 ≤ x ∧ x ≤ v2 := by
  have minLe := described.min_le x mem
  have leMax := described.le_max x mem
  have codes := described.codes x mem
  simp only [nullValue64] at codes
  split_ifs <;> omega

theorem isInt64_infinities (dpn : NumDpn) {v1 v2 : Int} (int64 : IsInt64 v1 ∧ IsInt64 v2) :
    IsInt64 (if v1 = minusInf64 then dpn.localMin else v1) ∧
      IsInt64 (if v2 = plusInf64 then dpn.localMax else v2) := by
  refine ⟨?_, ?_⟩
  · split
    · exact dpn.min_int64
    · exact int64.1
  · split
    · exact dpn.max_int64
    · exact int64.2

theorem isInt64_of_code {x : Int} (low : nullValue64 < x) (high : x < plusInf64) : IsInt64 x := by
  rw [nullValue64, minusInf64] at low
  rw [plusInf64] at high
  exact ⟨by omega, by omega⟩

theorem isInt64_setCode (t : NumType) (v : SetNum) : IsInt64 (setCode t v).1 := by
  cases v with
  | num v =>
    rw [setCode]
    split
    · exact v.int64
    · exact encodeValue64_isInt64 _ v
  | real vd => exact encodeReal64_isInt64 _ vd

theorem setCode_num {t : NumType} {v : RCNum} (same : v.scale = t.scale) :
    setCode t (.num v) = (v.value, false) := by
  rw [setCode, encodeValue64_of_same same, ite_self]

theorem units_num {t : NumType} {v : RCNum} (same : v.scale = t.scale) (x : Int) :
    (SetNum.num v).units t.scale = x ↔ v.value = x := by
  rw [SetNum.units, units_eq_iff, same, mul_left_inj' (by positivity)]

theorem setCode_of_units {t : NumType} {v : SetNum} (prepared : v.Prepared t) {x : Int}
    (low : nullValue64 < x) (high : x < plusInf64) (same : v.units t.scale = x) :
    setCode t v = (x, false) := by
  cases v with
  | num v => rw [setCode_num prepared.1, (units_num prepared.1 x).mp same]
  | real vd =>
    obtain ⟨-, -, zero, double⟩ := prepared
    rw [zero, SetNum.units, pow_zero, mul_one] at same
    rw [same] at double
    rw [setCode, zero, same]
    exact encodeReal64_intCast double (by rw [nullValue64] at low; omega) high

/-- The bounds enclose the codes in the set, and between them `Contains` is right. -/
def ValueSet.Reliable {t : NumType} (set : ValueSet t) : Prop :=
  ∀ lo ∈ set.setMin, ∀ hi ∈ set.setMax, ∀ x, nullValue64 < x → x < plusInf64 →
    (set.Has x ↔ (setCode t lo).1 ≤ x ∧ x ≤ (setCode t hi).1 ∧ set.contains x = true)

section In

variable {set : ValueSet column.toNumType} (described : dpn.Describes rows)
  (sound : HistSound column dpn rows)
include described sound

theorem inFromBounds_sound {v1 v2 : Int} (int1 : IsInt64 v1) (int2 : IsInt64 v2)
    (exact : ∀ x, some x ∈ rows → (set.Has x ↔ v1 ≤ x ∧ x ≤ v2 ∧ set.contains x = true)) :
    (inFromBounds column dpn set v1 v2).Sound {x | some x ∈ rows} set.Has := by
  have inside := fun x mem => And.intro (described.min_le x mem) (described.le_max x mem)
  unfold inFromBounds
  dsimp only
  split_ifs with apart uniform contains full
  · refine sound_none_iff.mpr fun x mem has => ?_
    have := inside x mem
    have := (exact x mem).mp has
    omega
  · refine sound_all_iff.mpr fun x mem => ?_
    obtain rfl : dpn.localMin = x := by have := inside x mem; omega
    exact (exact _ mem).mpr ⟨by omega, by omega, contains⟩
  · refine sound_none_iff.mpr fun x mem has => contains ?_
    obtain rfl : dpn.localMin = x := by have := inside x mem; omega
    exact ((exact _ mem).mp has).2.2
  · exact sound_some
  · refine ⟨fun isNone x mem has => ?_, fun isAll => absurd isAll full⟩
    obtain ⟨lower, upper, -⟩ := (exact x mem).mp has
    exact (histAnswer_sound sound int1 int2 (lower.trans upper)).none_sound isNone x mem
      ⟨lower, upper⟩

theorem suspected_of_mem {v : SetNum} (inSet : v ∈ set.values) {x : Int} (mem : some x ∈ rows)
    (same : v.units column.scale = x) : suspected column dpn v = true := by
  have minLe := described.min_le x mem
  have leMax := described.le_max x mem
  obtain ⟨low, high⟩ := described.codes x mem
  have int64 := isInt64_of_code low high
  have answers := histAnswer_sound sound int64 int64 le_rfl
  rw [histAnswer] at answers
  rw [suspected, setCode_of_units (set.prepared v inSet) low high same]
  cases found : column.hist with
  | none => simp [minLe, leMax]
  | some hist =>
    rw [found] at answers
    simp only [Bool.not_false, Bool.true_and, bne_iff_ne, ne_eq]
    exact fun isNone => answers.none_sound isNone x mem ⟨le_rfl, le_rfl⟩

theorem inAnswer_sound (reliable : set.Reliable) :
    (inAnswer column dpn set).Sound {x | some x ∈ rows} set.Has := by
  rw [inAnswer]
  split
  · rename_i lo hi isMin isMax
    dsimp only
    split_ifs with undecided suspect
    · exact sound_some
    · refine sound_none_iff.mpr fun x mem ⟨v, inSet, same⟩ => suspect ?_
      exact List.any_eq_true.mpr ⟨v, inSet, suspected_of_mem described sound inSet mem same⟩
    · refine inFromBounds_sound described sound (isInt64_setCode _ lo) (isInt64_setCode _ hi) ?_
      intro x mem
      obtain ⟨low, high⟩ := described.codes x mem
      exact reliable lo isMin hi isMax x low high
  · exact sound_some

end In

def NumCondition.Reliable {t : NumType} : NumCondition t → Prop
  | .inSet set _ => set.Reliable
  | _ => True

theorem roughCheckNum_sound_constant (described : dpn.Describes rows)
    (sound : HistSound column dpn rows) (additionalNulls : Bool)
    {cond : NumCondition column.toNumType} (reliable : cond.Reliable) :
    (roughCheckNum column dpn additionalNulls cond).Sound (rowsWith rows additionalNulls)
      cond.Satisfied := by
  have noNull : dpn.noNulls = 0 ∧ additionalNulls = false → none ∉ rowsWith rows additionalNulls :=
    fun full => described.noNull_rowsWith (by simp [full])
  cases cond with
  | isNull =>
    rw [roughCheckNum]
    split_ifs with onlyNulls full
    · refine sound_all_iff.mpr ?_
      rintro row (mem | ⟨_, isNull⟩)
      · exact described.nullsOnly_iff.mp onlyNulls row mem
      · exact isNull
    · refine sound_none_iff.mpr ?_
      rintro row mem rfl
      exact noNull full mem
    · exact sound_some
  | notNull =>
    rw [roughCheckNum]
    split_ifs with onlyNulls full
    · refine sound_none_iff.mpr ?_
      rintro row (mem | ⟨_, isNull⟩) notNull
      · exact notNull (described.nullsOnly_iff.mp onlyNulls row mem)
      · exact notNull isNull
    · refine sound_all_iff.mpr ?_
      rintro row mem rfl
      exact noNull full mem
    · exact sound_some
  | between v1 v2 int64 negated =>
    rw [roughCheckNum]
    split_ifs with onlyNulls
    · exact described.sound_nullsOnly onlyNulls
    · obtain ⟨int1, int2⟩ := isInt64_infinities dpn int64
      exact sound_rowsWith described.noNull_rowsWith <|
        (roughCheckBetween_sound described sound int1 int2).congr fun x mem =>
          infinities_iff described v1 v2 mem
  | inSet set negated =>
    rw [roughCheckNum]
    split_ifs with onlyNulls
    · exact described.sound_nullsOnly onlyNulls
    · exact sound_rowsWith described.noNull_rowsWith (inAnswer_sound described sound reliable)

end Constants

/-! ## Soundness of the answers about two columns -/

/-- The condition that is analysed for an operator or its negation. -/
def CompareOp.Base (op : CompareOp) (pair : Int × Int) : Prop :=
  match op with
  | .eq | .notEq => pair.1 = pair.2
  | .less | .moreEq => pair.1 < pair.2
  | .more | .lessEq => pair.1 > pair.2

theorem CompareOp.holds_iff (op : CompareOp) (row : Option (Int × Int)) :
    RoughAnswer.Holds op.Base op.negation row ↔ op.Satisfied row := by
  cases row with
  | none => rfl
  | some pair =>
    cases op <;>
      simp [RoughAnswer.Holds, CompareOp.Base, CompareOp.negation, CompareOp.Satisfied,
        CompareOp.Compares]

theorem compareFromBounds_sound (op : CompareOp) {v1min v1max v2min v2max x y : Int}
    (minLe : v1min ≤ x) (leMax : x ≤ v1max) (secMinLe : v2min ≤ y) (secLeMax : y ≤ v2max) :
    (compareFromBounds op v1min v1max v2min v2max = .none → ¬op.Base (x, y)) ∧
      (compareFromBounds op v1min v1max v2min v2max = .all → op.Base (x, y)) := by
  cases op <;> simp only [compareFromBounds, CompareOp.Base, reduceCtorEq, or_self, or_true,
    or_false, if_true, if_false] <;> refine ⟨?_, ?_⟩ <;> intro answer <;>
    split_ifs at answer <;> omega

/-- If the histograms deny an intersection, the packs have no common value. -/
def IntersectionSound (rows : List (Option Int))
    (sec : NumColumn) (secDpn : NumDpn) (secRows : List (Option Int)) : Prop :=
  ∀ hist1 ∈ column.hist, ∀ hist2 ∈ sec.hist,
    hist1.intersection column.pack dpn.localMin dpn.localMax hist2 column.pack secDpn.localMin
      secDpn.localMax = false →
    ∀ x, some x ∈ rows → some x ∉ secRows

section Columns

variable {column sec : NumColumn} {dpn secDpn : NumDpn} {rows secRows : List (Option Int)}

theorem mem_pairRows {row : Option (Int × Int)} (mem : row ∈ pairRows rows secRows) :
    ∃ a ∈ rows, ∃ b ∈ secRows, Option.map₂ Prod.mk a b = row := by
  unfold pairRows at mem
  obtain ⟨i, bound, rfl⟩ := List.getElem_of_mem mem
  rw [List.getElem_zipWith]
  exact ⟨_, List.getElem_mem _, _, List.getElem_mem _, rfl⟩

theorem some_mem_pairRows {pair : Int × Int} (mem : some pair ∈ pairRows rows secRows) :
    some pair.1 ∈ rows ∧ some pair.2 ∈ secRows := by
  obtain ⟨a, inRows, b, inSec, same⟩ := mem_pairRows mem
  obtain ⟨x, y, isX, isY, rfl⟩ := Option.map₂_eq_some_iff.mp same
  exact ⟨Option.mem_def.mp isX ▸ inRows, Option.mem_def.mp isY ▸ inSec⟩

section
variable (described : dpn.Describes rows) (secDescribed : secDpn.Describes secRows)
include described secDescribed

theorem compareAnswer_sound (sound : IntersectionSound column dpn rows sec secDpn secRows)
    (op : CompareOp) : (compareAnswer column dpn sec secDpn op).Sound
      {pair | some pair ∈ pairRows rows secRows} op.Base := by
  have bounds : ∀ pair, some pair ∈ pairRows rows secRows → _ := fun pair mem =>
    have ⟨inRows, inSec⟩ := some_mem_pairRows mem
    compareFromBounds_sound op (described.min_le _ inRows) (described.le_max _ inRows)
      (secDescribed.min_le _ inSec) (secDescribed.le_max _ inSec)
  have answers : RoughAnswer.Sound _ {pair | some pair ∈ pairRows rows secRows} op.Base :=
    ⟨fun isNone pair mem => (bounds pair mem).1 isNone,
      fun isAll pair mem => (bounds pair mem).2 isAll⟩
  unfold compareAnswer
  dsimp only
  split_ifs with undecided
  · split
    · rename_i hist1 hist2 found1 found2
      split_ifs with disjoint
      · refine sound_none_iff.mpr fun pair mem => ?_
        obtain ⟨inRows, inSec⟩ := some_mem_pairRows mem
        have different : pair.1 ≠ pair.2 := fun same =>
          sound hist1 found1 hist2 found2 disjoint _ inRows (same ▸ inSec)
        rcases undecided.2 with rfl | rfl <;> exact different
      · exact answers
    · exact answers
  · exact answers

theorem noNull_pairRows {additionalNulls : Bool}
    (flag : (dpn.noNulls != 0 || secDpn.noNulls != 0 || additionalNulls) = false) :
    none ∉ rowsWith (pairRows rows secRows) additionalNulls := by
  simp only [Bool.or_eq_false_iff, bne_eq_false_iff_eq] at flag
  obtain ⟨⟨noNulls, secNoNulls⟩, notAdded⟩ := flag
  have noNull : none ∉ rowsWith rows false := described.noNull_rowsWith (by simp [noNulls])
  have secNoNull : none ∉ rowsWith secRows false :=
    secDescribed.noNull_rowsWith (by simp [secNoNulls])
  rintro (mem | ⟨added, _⟩)
  · obtain ⟨a, inRows, b, inSec, same⟩ := mem_pairRows mem
    rcases Option.map₂_eq_none_iff.mp same with rfl | rfl
    · exact noNull (.inl inRows)
    · exact secNoNull (.inl inSec)
  · rw [notAdded] at added
    cases added

theorem roughCheckAttr_sound (sound : IntersectionSound column dpn rows sec secDpn secRows)
    (op : CompareOp) (additionalNulls : Bool) :
    (roughCheckAttr column dpn sec secDpn op additionalNulls).Sound
      (rowsWith (pairRows rows secRows) additionalNulls) op.Satisfied := by
  unfold roughCheckAttr
  split
  · exact sound_some
  · exact (sound_rowsWith (noNull_pairRows described secDescribed)
      (compareAnswer_sound described secDescribed sound op)).congr fun row _ => op.holds_iff row

end

end Columns

/-! ## Sets without doubles -/

section Fixed

variable {t : NumType}

theorem compare_num {a b : RCNum} (preparedA : (SetNum.num a).Prepared t)
    (preparedB : (SetNum.num b).Prepared t) :
    (0 < (SetNum.num a).compare (.num b) ↔ b.value < a.value) ∧
      ((SetNum.num a).compare (.num b) < 0 ↔ a.value < b.value) := by
  rw [SetNum.compare, RCNum.compare, if_neg (not_or.mpr ⟨preparedA.2, preparedB.2⟩),
    if_neg (not_not.mpr (preparedA.1.trans preparedB.1.symm))]
  split_ifs <;> omega

theorem bound_fixed (loses : Int → Bool) (le : Int → Int → Prop) [IsPreorder Int le]
    (decides : ∀ a b, (SetNum.num a).Prepared t → (SetNum.num b).Prepared t →
      loses ((SetNum.num a).compare (.num b)) = true ∧ le b.value a.value ∨
        loses ((SetNum.num a).compare (.num b)) = false ∧ le a.value b.value)
    {nums : List RCNum} (prepared : ∀ n ∈ nums, (SetNum.num n).Prepared t) :
    nums = [] ∨ ∃ m ∈ nums, SetNum.bound loses (nums.map .num) = some (.num m) ∧
      ∀ n ∈ nums, le m.value n.value := by
  rw [SetNum.bound, List.foldl_map]
  induction nums using List.reverseRecOn with
  | nil => exact .inl rfl
  | append_singleton nums v ih =>
    right
    rw [List.foldl_append]
    obtain rfl | ⟨m, inNums, best, extreme⟩ := ih fun n mem =>
      prepared n (List.mem_append_left _ mem)
    · exact ⟨v, by simp, rfl, by simp [refl_of le]⟩
    rw [best]
    rcases decides v m (prepared v (by simp)) (prepared m (List.mem_append_left _ inNums)) with
      ⟨lost, step⟩ | ⟨lost, step⟩
    · refine ⟨m, List.mem_append_left _ inNums, by simp [lost], ?_⟩
      simpa [or_imp, forall_and, step] using extreme
    · refine ⟨v, by simp, by simp [lost], fun n mem => ?_⟩
      rcases List.mem_append.mp mem with earlier | last
      · exact trans_of le step (extreme n earlier)
      · exact List.mem_singleton.mp last ▸ refl_of le _

theorem reliable_of_fixed {set : ValueSet t} (nums : List RCNum)
    (fixed : set.values = nums.map .num) : set.Reliable := by
  have prepared : ∀ n ∈ nums, (SetNum.num n).Prepared t := fun n mem =>
    set.prepared _ (fixed ▸ List.mem_map_of_mem mem)
  intro lo isMin hi isMax x _ _
  rw [ValueSet.setMin, fixed] at isMin
  rw [ValueSet.setMax, fixed] at isMax
  have has : set.Has x ↔ ∃ n ∈ nums, n.value = x := by
    simp only [ValueSet.Has, fixed, List.mem_map, exists_exists_and_eq_and]
    exact exists_congr fun n => and_congr_right fun mem => units_num (prepared n mem).1 x
  have contains : set.contains x = true ↔ ∃ n ∈ nums, n.value = x := by
    simp [ValueSet.contains, fixed, SetNum.toDecimal]
  obtain rfl | ⟨least, inMin, isLeast, below⟩ := bound_fixed (0 < ·) (· ≤ ·)
    (fun a b preparedA preparedB => by grind [compare_num preparedA preparedB]) prepared
  · cases isMin
  obtain rfl | ⟨greatest, inMax, isGreatest, above⟩ := bound_fixed (· < 0) (· ≥ ·)
    (fun a b preparedA preparedB => by grind [compare_num preparedA preparedB]) prepared
  · cases isMax
  cases isLeast.symm.trans isMin
  cases isGreatest.symm.trans isMax
  rw [has, contains, setCode_num (prepared _ inMin).1, setCode_num (prepared _ inMax).1]
  constructor
  · rintro ⟨n, mem, rfl⟩
    exact ⟨below n mem, above n mem, n, mem, rfl⟩
  · exact fun enclosed => enclosed.2.2

end Fixed

/-! ## All packs -/

theorem describes_uniform {x : Int} (low : nullValue64 < x) (high : x < plusInf64)
    (int64 : IsInt64 x) : NumDpn.Describes ⟨⟨false, 0, 0⟩, x, x, int64, int64⟩ [some x] :=
  ⟨⟨rfl, by simp, rfl, by simp⟩, by simp, by simp, by simp [low, high]⟩

/-- Packs of one value show whether a set is reliable. -/
theorem reliable_of_sound {t : NumType} {cond : NumCondition t}
    (sound : ∀ (dpn : NumDpn) (rows : List (Option Int)), dpn.Describes rows →
      (roughCheckNum ⟨t, none, 0⟩ dpn false cond).Sound (rowsWith rows false) cond.Satisfied) :
    cond.Reliable := by
  cases cond with
  | inSet set negated =>
    intro lo isMin hi isMax x low high
    have int64 := isInt64_of_code low high
    have described := describes_uniform low high int64
    have checked := sound _ _ described
    have answer : inAnswer ⟨t, none, 0⟩ ⟨⟨false, 0, 0⟩, x, x, int64, int64⟩ set =
        if (setCode t lo).1 ≤ x ∧ x ≤ (setCode t hi).1 ∧ set.contains x = true then .all
        else .none := by
      simp only [inAnswer, inFromBounds, Option.mem_def.mp isMin, Option.mem_def.mp isMax]
      grind
    rw [roughCheckNum, if_neg (by simp [Dpn.nullsOnly]), NumCondition.Satisfied,
      RoughAnswer.sound_withNulls_iff described.noNull_rowsWith, answer] at checked
    split at checked
    · rename_i enclosed
      exact iff_of_true (by simpa using checked.2 rfl) enclosed
    · rename_i apart
      exact iff_of_false (by simpa using checked.1 rfl) apart
  | _ => trivial

def bigInt : NumType := ⟨.bigInt, rfl, 0, false⟩

def threeToFive : NumDpn := ⟨⟨false, 1, 2⟩, 3, 5, by decide, by decide⟩

theorem describes_threeToFive : threeToFive.Describes [some 3, none, some 5] := by
  refine ⟨⟨rfl, by decide, rfl, by simp [threeToFive]⟩, ?_, ?_, ?_⟩ <;>
    simp [threeToFive, nullValue64, minusInf64, plusInf64]

def twoNumbers : ValueSet bigInt :=
  ⟨[.num ⟨7, 0, by decide⟩, .num ⟨3, 0, by decide⟩], by simp [SetNum.Prepared, bigInt]; decide⟩

def twoDoubles : ValueSet bigInt :=
  ⟨[.real 3, .real (2 ^ 63)], by simp [SetNum.Prepared, bigInt]; decide +kernel⟩

end Brighthouse.Core
