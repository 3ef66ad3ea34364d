import Brighthouse.Core.EncodeValue

/-!
# Encoding of numeric conditions

`ConditionEncoder::TransformOtherThanINsOnNumerics` for a fixed-point column and
decimal constants: a comparison of the column with constants becomes an interval
condition on its 64-bit codes.
-/

set_option autoImplicit false

namespace Brighthouse.Core

open Int

/-! ## The transformation -/

inductive Comparison where
  | compare (op : CompareOp) (c : RCNum)
  | between (negated : Bool) (c1 c2 : RCNum)

/-- A condition on codes: `O_FALSE`, `O_NOT_NULL`, `O_BETWEEN` or `O_NOT_BETWEEN`. -/
inductive CodeCondition where
  | isFalse
  | notNull
  | between (v1 v2 : Int)
  | notBetween (v1 v2 : Int)
  deriving DecidableEq, Repr

def adjustOp (op : CompareOp) (v1 : Int) : CompareOp :=
  let op := if op = .less ∧ v1 ≥ 0 then .lessEq else op
  let op := if op = .lessEq ∧ v1 < 0 then .less else op
  let op := if op = .more ∧ v1 < 0 then .moreEq else op
  if op = .moreEq ∧ v1 ≥ 0 then .more else op

/-- The interval of codes for an operator.  The second value is null before it is set. -/
def intervalOf (v1 : Int) : CompareOp → CodeCondition
  | .eq => .between v1 v1
  | .notEq => .notBetween v1 v1
  | .less => .between minusInf64 (if v1 > minusInf64 then v1 - 1 else nullValue64)
  | .more => .between (if v1 ≠ plusInf64 then v1 + 1 else v1) plusInf64
  | .lessEq => .between minusInf64 v1
  | .moreEq => .between v1 plusInf64

def encodeCompare (dplaces : Nat) (op : CompareOp) (c : RCNum) : CodeCondition :=
  let (v1, v1Rounded) := encodeValue64 dplaces c
  if v1Rounded ∧ op = .eq then .isFalse
  else if v1Rounded ∧ op = .notEq then .notNull
  else
    let op := if v1Rounded then adjustOp op v1 else op
    if v1 = nullValue64 then .isFalse else intervalOf v1 op

def lowerBound : Int × Bool → Int
  | (v1, v1Rounded) => if v1Rounded ∧ v1 ≥ 0 then v1 + 1 else v1

def upperBound : Int × Bool → Int
  | (v2, v2Rounded) => if v2Rounded ∧ v2 < 0 then v2 - 1 else v2

def encodeBetween (dplaces : Nat) (negated : Bool) (c1 c2 : RCNum) : CodeCondition :=
  let v1 := lowerBound (encodeValue64 dplaces c1)
  let v2 := upperBound (encodeValue64 dplaces c2)
  if v1 = nullValue64 ∨ negated = false ∧ v2 = nullValue64 then .isFalse
  else if negated then .notBetween v1 v2
  else .between v1 v2

def transformOtherThanINsOnNumerics (dplaces : Nat) : Comparison → CodeCondition
  | .compare op c => encodeCompare dplaces op c
  | .between negated c1 c2 => encodeBetween dplaces negated c1 c2

/-! ## Meaning of both conditions -/

def CodeCondition.Holds (x : Int) : CodeCondition → Prop
  | .isFalse => False
  | .notNull => True
  | .between v1 v2 => v1 ≤ x ∧ x ≤ v2
  | .notBetween v1 v2 => ¬(v1 ≤ x ∧ x ≤ v2)

instance (x : Int) (cond : CodeCondition) : Decidable (cond.Holds x) :=
  match cond with
  | .isFalse => inferInstanceAs (Decidable False)
  | .notNull => inferInstanceAs (Decidable True)
  | .between _ _ => inferInstanceAs (Decidable (_ ∧ _))
  | .notBetween _ _ => inferInstanceAs (Decidable ¬(_ ∧ _))

def RCNum.toRat (v : RCNum) : ℚ := v.value / 10 ^ v.scale

def Comparison.Holds (x : ℚ) : Comparison → Prop
  | .compare op c => op.Compares x c.toRat
  | .between negated c1 c2 =>
    if negated then ¬(c1.toRat ≤ x ∧ x ≤ c2.toRat) else c1.toRat ≤ x ∧ x ≤ c2.toRat

/-- A constant that is not null and whose encoding does not overflow. -/
structure Encodable (dplaces : Nat) (c : RCNum) : Prop where
  notNull : c.value ≠ nullValue64
  lower : minusInf64 ≤ c.units dplaces
  upper : c.units dplaces ≤ plusInf64

def Comparison.Encodable (dplaces : Nat) : Comparison → Prop
  | .compare _ c => Core.Encodable dplaces c
  | .between _ c1 c2 => Core.Encodable dplaces c1 ∧ Core.Encodable dplaces c2

/-! ## Codes, floors and ceilings -/

/-- Where the floor and the ceiling of a constant lie, seen from its code. -/
inductive CodePlace (c : ℚ) (code : Int) (rounded : Bool) : Prop
  | exact (flag : rounded = false) (floor : ⌊c⌋ = code) (ceil : ⌈c⌉ = code)
  | above (flag : rounded = true) (nonneg : 0 ≤ code) (floor : ⌊c⌋ = code) (ceil : ⌈c⌉ = code + 1)
  | below (flag : rounded = true) (nonpos : code ≤ 0) (floor : ⌊c⌋ = code - 1) (ceil : ⌈c⌉ = code)

theorem EncodedAs.codePlace {c : ℚ} {code : Int} {rounded : Bool}
    (encoded : EncodedAs c code rounded) (low : minusInf64 ≤ c) (high : c ≤ plusInf64) :
    CodePlace c code rounded := by
  cases encoded with
  | exact flag same =>
    refine .exact flag ?_ ?_
    · rw [same, floor_intCast]
    · rw [same, ceil_intCast]
  | above flag nonneg lower upper =>
    refine .above flag nonneg ?_ ?_
    · rw [floor_eq_iff]
      exact ⟨lower.le, upper⟩
    · rw [ceil_eq_iff]
      push_cast
      exact ⟨by linarith, upper.le⟩
  | below flag nonpos lower upper =>
    refine .below flag nonpos ?_ ?_
    · rw [floor_eq_iff]
      push_cast
      exact ⟨lower.le, by linarith⟩
    · rw [ceil_eq_iff]
      exact ⟨lower, upper.le⟩
  | tooLarge _ _ above => exact absurd high (not_le.mpr above)
  | tooSmall _ _ below => exact absurd low (not_le.mpr below)

section Constant

variable {dplaces : Nat} {c : RCNum}

theorem Encodable.codePlace (encodable : Encodable dplaces c) :
    CodePlace (c.units dplaces) (encodeValue64 dplaces c).1 (encodeValue64 dplaces c).2 :=
  (encodeValue64_encodedAs dplaces c).codePlace encodable.lower encodable.upper

theorem Encodable.code_ne_null (encodable : Encodable dplaces c) :
    (encodeValue64 dplaces c).1 ≠ nullValue64 := by
  intro isNull
  cases rounded : (encodeValue64 dplaces c).2 with
  | true =>
    have small := encodeValue64_rounded_small rounded
    rw [isNull, nullValue64, minusInf64] at small
    omega
  | false =>
    have encoded := encodeValue64_encodedAs dplaces c
    rw [isNull, rounded] at encoded
    cases encoded with
    | exact _ same => exact encodable.notNull (value_eq_null same)
    | above flag => cases flag
    | below flag => cases flag
    | tooLarge _ infinite => exact absurd infinite (by decide)
    | tooSmall _ infinite => exact absurd infinite (by decide)

theorem compares_iff (op : CompareOp) (x : Int) (q : ℚ) :
    op.Compares (x : ℚ) q ↔
      match op with
      | .eq => ⌈q⌉ ≤ x ∧ x ≤ ⌊q⌋
      | .notEq => ¬(⌈q⌉ ≤ x ∧ x ≤ ⌊q⌋)
      | .less => x < ⌈q⌉
      | .lessEq => x ≤ ⌊q⌋
      | .more => ⌊q⌋ < x
      | .moreEq => ⌈q⌉ ≤ x := by
  have same : (x : ℚ) = q ↔ ⌈q⌉ ≤ x ∧ x ≤ ⌊q⌋ := by
    rw [ceil_le, le_floor, le_antisymm_iff, and_comm]
  cases op with
  | eq => exact same
  | notEq => exact not_congr same
  | less => exact lt_ceil.symm
  | lessEq => exact le_floor.symm
  | more => exact floor_lt.symm
  | moreEq => exact ceil_le.symm

theorem toRat_le_iff (x : Int) : c.toRat ≤ (x : ℚ) / 10 ^ dplaces ↔ ⌈c.units dplaces⌉ ≤ x := by
  rw [le_div_iff₀ (by positivity), ceil_le]
  rfl

theorem le_toRat_iff (x : Int) : (x : ℚ) / 10 ^ dplaces ≤ c.toRat ↔ x ≤ ⌊c.units dplaces⌋ := by
  rw [div_le_iff₀ (by positivity), le_floor]
  rfl

theorem compares_toRat_iff (op : CompareOp) (x : Int) :
    op.Compares ((x : ℚ) / 10 ^ dplaces) c.toRat ↔ op.Compares (x : ℚ) (c.units dplaces) := by
  have pos : (0 : ℚ) < 10 ^ dplaces := by positivity
  cases op with
  | eq => exact div_eq_iff pos.ne'
  | notEq => exact not_congr (div_eq_iff pos.ne')
  | less => exact div_lt_iff₀ pos
  | lessEq => exact div_le_iff₀ pos
  | more => exact lt_div_iff₀ pos
  | moreEq => exact le_div_iff₀ pos

/-- The constant lies strictly between minus one and zero units of the column. -/
def BelowZero (dplaces : Nat) (c : RCNum) : Prop := -1 < c.units dplaces ∧ c.units dplaces < 0

theorem belowZero_iff : BelowZero dplaces c ↔ ⌊c.units dplaces⌋ = -1 ∧ ⌈c.units dplaces⌉ = 0 := by
  rw [floor_eq_iff, ceil_eq_iff]
  push_cast
  constructor
  · rintro ⟨lower, upper⟩
    exact ⟨⟨lower.le, by linarith⟩, by linarith, upper.le⟩
  · rintro ⟨⟨_, upper⟩, lower, _⟩
    exact ⟨by linarith, by linarith⟩

end Constant

/-! ## Where the encoding is exact -/

def IsCode (x : Int) : Prop := nullValue64 < x ∧ x < plusInf64

instance (x : Int) : Decidable (IsCode x) := inferInstanceAs (Decidable (_ ∧ _))

theorem intervalOf_holds (v1 : Int) (op : CompareOp) {x : Int} (code : IsCode x) :
    (intervalOf v1 op).Holds x ↔ op.Compares x v1 := by
  obtain ⟨lower, upper⟩ := code
  rw [nullValue64] at lower
  cases op <;> simp only [intervalOf, CodeCondition.Holds, CompareOp.Compares, nullValue64] <;>
    (try split) <;> omega

/-- For a rounded constant the adjusted operator is right, except for the code zero when
the constant lies between minus one and zero. -/
theorem adjustOp_right_iff {q : ℚ} {v1 : Int} (place : CodePlace q v1 true) {op : CompareOp}
    (inequality : op ≠ .eq ∧ op ≠ .notEq) (x : Int) :
    ((adjustOp op v1).Compares x v1 ↔ op.Compares (x : ℚ) q) ↔
      ¬((⌊q⌋ = -1 ∧ ⌈q⌉ = 0) ∧ x = 0) := by
  rw [compares_iff]
  cases place with
  | exact flag => cases flag
  | above _ nonneg floor ceil =>
    have negative := not_lt.mpr nonneg
    cases op <;> simp [adjustOp, CompareOp.Compares, nonneg, negative] at inequality ⊢ <;> omega
  | below _ nonpos floor ceil =>
    by_cases zero : v1 = 0
    · subst zero
      rw [ceil]
      cases op <;> simp [adjustOp, CompareOp.Compares] at inequality ⊢ <;> omega
    · have negative : v1 < 0 := by omega
      have nonneg := not_le.mpr negative
      cases op <;> simp [adjustOp, CompareOp.Compares, nonneg, negative] at inequality ⊢ <;> omega

theorem encodeCompare_exact_iff {dplaces : Nat} {c : RCNum} (encodable : Encodable dplaces c)
    (op : CompareOp) :
    (∀ x, IsCode x → ((encodeCompare dplaces op c).Holds x ↔
        op.Compares ((x : ℚ) / 10 ^ dplaces) c.toRat)) ↔
      op = .eq ∨ op = .notEq ∨ ¬BelowZero dplaces c := by
  have notNull := encodable.code_ne_null
  have place := encodable.codePlace
  simp only [encodeCompare, compares_toRat_iff, belowZero_iff]
  cases rounded : (encodeValue64 dplaces c).2 with
  | false =>
    rw [rounded] at place
    simp only [Bool.false_eq_true, false_and, if_false, if_neg notNull]
    cases place with
    | exact _ floor ceil =>
      refine iff_of_true ?_ (.inr (.inr (by omega)))
      intro x code
      rw [intervalOf_holds _ _ code, compares_iff]
      cases op <;> simp only [CompareOp.Compares] <;> omega
    | above flag => cases flag
    | below flag => cases flag
  | true =>
    rw [rounded] at place
    have fraction : ¬⌈c.units dplaces⌉ ≤ ⌊c.units dplaces⌋ := by
      cases place with
      | exact flag => cases flag
      | above _ _ floor ceil => omega
      | below _ _ floor ceil => omega
    simp only [true_and, if_true, if_neg notNull]
    by_cases isEq : op = .eq
    · subst isEq
      refine iff_of_true ?_ (.inl rfl)
      intro x _
      rw [compares_iff]
      exact iff_of_false id fun ⟨lower, upper⟩ => fraction (le_trans lower upper)
    by_cases isNotEq : op = .notEq
    · subst isNotEq
      refine iff_of_true ?_ (.inr (.inl rfl))
      intro x _
      rw [compares_iff]
      exact iff_of_true trivial fun ⟨lower, upper⟩ => fraction (le_trans lower upper)
    · rw [if_neg isEq, if_neg isNotEq]
      simp only [isEq, isNotEq, false_or]
      have right := adjustOp_right_iff place ⟨isEq, isNotEq⟩
      constructor
      · intro exact' inUnit
        have zero : IsCode 0 := by decide
        have atZero := exact' 0 zero
        rw [intervalOf_holds _ _ zero, right] at atZero
        exact atZero ⟨inUnit, rfl⟩
      · intro notInUnit x code
        rw [intervalOf_holds _ _ code, right]
        rintro ⟨inUnit, _⟩
        exact notInUnit inUnit

section Between

variable {dplaces : Nat} {c c1 c2 : RCNum}

theorem lowerBound_cases (encodable : Encodable dplaces c) :
    lowerBound (encodeValue64 dplaces c) ≠ nullValue64 ∧
      (¬BelowZero dplaces c ∧ lowerBound (encodeValue64 dplaces c) = ⌈c.units dplaces⌉ ∨
        BelowZero dplaces c ∧ lowerBound (encodeValue64 dplaces c) = ⌈c.units dplaces⌉ + 1) := by
  have notNull := encodable.code_ne_null
  have nullEq : nullValue64 = -2 ^ 63 + 1 := rfl
  rw [belowZero_iff, lowerBound]
  cases encodable.codePlace with
  | exact flag floor ceil =>
    simp only [flag, Bool.false_eq_true, false_and, if_false]
    omega
  | above flag nonneg floor ceil =>
    simp only [flag, true_and]
    omega
  | below flag nonpos floor ceil =>
    simp only [flag, true_and]
    split <;> omega

theorem upperBound_cases (encodable : Encodable dplaces c) :
    upperBound (encodeValue64 dplaces c) ≠ nullValue64 ∧
      (¬BelowZero dplaces c ∧ upperBound (encodeValue64 dplaces c) = ⌊c.units dplaces⌋ ∨
        BelowZero dplaces c ∧ upperBound (encodeValue64 dplaces c) = ⌊c.units dplaces⌋ + 1) := by
  have notNull := encodable.code_ne_null
  have small : (encodeValue64 dplaces c).2 = true → _ := encodeValue64_rounded_small
  have nullEq : nullValue64 = -2 ^ 63 + 1 := rfl
  rw [belowZero_iff, upperBound]
  cases encodable.codePlace with
  | exact flag floor ceil =>
    simp only [flag, Bool.false_eq_true, false_and, if_false]
    omega
  | above flag nonneg floor ceil =>
    omega
  | below flag nonpos floor ceil =>
    have := small flag
    simp only [flag, true_and]
    split <;> omega

theorem encodeBetween_exact_iff (first : Encodable dplaces c1) (second : Encodable dplaces c2)
    (negated : Bool) :
    (∀ x, IsCode x → ((encodeBetween dplaces negated c1 c2).Holds x ↔
        (Comparison.between negated c1 c2).Holds ((x : ℚ) / 10 ^ dplaces))) ↔
      ¬(BelowZero dplaces c1 ∧ 0 ≤ c2.units dplaces) ∧
        ¬(BelowZero dplaces c2 ∧ ¬BelowZero dplaces c1 ∧ c1.units dplaces ≤ 0) := by
  obtain ⟨lowerNotNull, lower⟩ := lowerBound_cases first
  obtain ⟨upperNotNull, upper⟩ := upperBound_cases second
  have secondNonneg : 0 ≤ c2.units dplaces ↔ 0 ≤ ⌊c2.units dplaces⌋ := floor_nonneg.symm
  have firstNonpos : c1.units dplaces ≤ 0 ↔ ⌈c1.units dplaces⌉ ≤ 0 := by
    rw [ceil_le, cast_zero]
  have bothHold : ∀ x, ((encodeBetween dplaces negated c1 c2).Holds x ↔
      (Comparison.between negated c1 c2).Holds ((x : ℚ) / 10 ^ dplaces)) ↔
        (lowerBound (encodeValue64 dplaces c1) ≤ x ∧ x ≤ upperBound (encodeValue64 dplaces c2) ↔
          ⌈c1.units dplaces⌉ ≤ x ∧ x ≤ ⌊c2.units dplaces⌋) := by
    intro x
    rw [encodeBetween, if_neg (by simp [lowerNotNull, upperNotNull])]
    cases negated with
    | false => simp [CodeCondition.Holds, Comparison.Holds, toRat_le_iff, le_toRat_iff]
    | true =>
      simp only [if_true, CodeCondition.Holds, Comparison.Holds, toRat_le_iff, le_toRat_iff,
        not_iff_not]
  simp only [bothHold, secondNonneg, firstNonpos]
  have zero : IsCode 0 := by decide
  rw [belowZero_iff, belowZero_iff] at *
  constructor
  · intro exact'
    have atZero := exact' 0 zero
    omega
  · intro condition x _
    omega

end Between

/-- No constant between minus one and zero units decides about the code zero: the sign of
such a constant is lost when it is cut off. -/
def Comparison.SignKept (dplaces : Nat) : Comparison → Prop
  | .compare op c => op = .eq ∨ op = .notEq ∨ ¬BelowZero dplaces c
  | .between _ c1 c2 =>
    ¬(BelowZero dplaces c1 ∧ 0 ≤ c2.units dplaces) ∧
      ¬(BelowZero dplaces c2 ∧ ¬BelowZero dplaces c1 ∧ c1.units dplaces ≤ 0)

theorem transform_exact_iff (dplaces : Nat) (comparison : Comparison)
    (encodable : comparison.Encodable dplaces) :
    (∀ x, IsCode x → ((transformOtherThanINsOnNumerics dplaces comparison).Holds x ↔
        comparison.Holds ((x : ℚ) / 10 ^ dplaces))) ↔
      comparison.SignKept dplaces := by
  cases comparison with
  | compare op c => exact encodeCompare_exact_iff encodable op
  | between negated c1 c2 => exact encodeBetween_exact_iff encodable.1 encodable.2 negated

/-- `x < 1.5` on an integer column, for the code `1`. -/
theorem transform_exact_less :
    (transformOtherThanINsOnNumerics 0 (.compare .less ⟨15, 1, by decide⟩)).Holds 1 ↔
      Comparison.Holds ((1 : Int) / 10 ^ 0 : ℚ) (.compare .less ⟨15, 1, by decide⟩) := by
  refine (transform_exact_iff 0 (.compare .less ⟨15, 1, by decide⟩) ?_).mpr ?_ 1 (by decide)
  · refine ⟨by decide, ?_, ?_⟩ <;> norm_num [RCNum.units, minusInf64, plusInf64]
  · refine Or.inr (Or.inr ?_)
    norm_num [BelowZero, RCNum.units]

/-- `x < -0.5` on an integer column becomes `x ≤ 0`, which holds for `0`. -/
theorem transform_keeps_zero :
    Encodable 0 ⟨-5, 1, by decide⟩ ∧ IsCode 0 ∧
      (transformOtherThanINsOnNumerics 0 (.compare .less ⟨-5, 1, by decide⟩)).Holds 0 ∧
      ¬Comparison.Holds ((0 : Int) / 10 ^ 0 : ℚ) (.compare .less ⟨-5, 1, by decide⟩) := by
  refine ⟨⟨by decide, ?_, ?_⟩, by decide, by decide, ?_⟩
  · norm_num [RCNum.units, minusInf64]
  · norm_num [RCNum.units, plusInf64]
  · norm_num [Comparison.Holds, CompareOp.Compares, RCNum.toRat]

end Brighthouse.Core
