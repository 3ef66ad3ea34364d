import Brighthouse.Core.ConditionEncoder

/-!
# Comparison of numbers

`RCNum::compare` for decimals with any scales and for dates.
-/

set_option autoImplicit false

namespace Brighthouse.Core

open Library.Word64

namespace RCNum

def compare (a b : RCNum) : Int :=
  if a.value = nullValue64 ∨ b.value = nullValue64 then 0
  else if a.scale ≠ b.scale then
    if a.value < 0 ∧ b.value ≥ 0 then -1
    else if a.value ≥ 0 ∧ b.value < 0 then 1
    else if a.scale < b.scale then
      let powerOfTen := wrap64 (10 ^ (b.scale - a.scale))
      let tmpv := wrap64 (b.value.tdiv powerOfTen)
      if a.value > tmpv then 1
      else if a.value < tmpv ∨ b.value.tmod powerOfTen > 0 then -1
      else if b.value.tmod powerOfTen < 0 then 1 else 0
    else
      let powerOfTen := wrap64 (10 ^ (a.scale - b.scale))
      let tmpv := wrap64 (a.value.tdiv powerOfTen)
      if tmpv < b.value then -1
      else if tmpv > b.value ∨ a.value.tmod powerOfTen > 0 then 1
      else if a.value.tmod powerOfTen < 0 then -1 else 0
  else if a.value > b.value then 1 else if a.value = b.value then 0 else -1

theorem compare_swap {a b : RCNum} (less : a.scale < b.scale) : b.compare a = -a.compare b := by
  simp only [compare, less.ne, less.ne', less, less.not_gt, ne_eq, not_false_eq_true, if_true,
    if_false]
  split_ifs <;> omega

def ComparesExactly (a b : RCNum) : Prop :=
  (a.compare b < 0 ↔ a.toRat < b.toRat) ∧ (0 < a.compare b ↔ b.toRat < a.toRat)

end RCNum

structure Decimal extends RCNum where
  notNull : value ≠ nullValue64
  scale_le : scale ≤ 18

namespace Decimal

/-- The quotient decides, and the remainder where the quotient is equal. -/
theorem compare_scaled {a b : Decimal} (less : a.scale < b.scale) :
    (a.compare b.toRCNum < 0 ↔ a.value * 10 ^ (b.scale - a.scale) < b.value) ∧
      (0 < a.compare b.toRCNum ↔ b.value < a.value * 10 ^ (b.scale - a.scale)) := by
  have small : (10 : Int) ^ (b.scale - a.scale) ≤ 10 ^ 18 :=
    pow_le_pow_right₀ (by decide) (by have := b.scale_le; omega)
  have positive : (0 : Int) < 10 ^ (b.scale - a.scale) := by positivity
  rw [RCNum.compare, if_neg (not_or.mpr ⟨a.notNull, b.notNull⟩), if_pos less.ne, if_pos less]
  dsimp only
  rw [wrap64_of_isInt64 (⟨by omega, by omega⟩ : IsInt64 (10 ^ (b.scale - a.scale)))]
  generalize (10 : Int) ^ (b.scale - a.scale) = p at positive
  rw [wrap64_of_isInt64 (isInt64_tdiv b.int64 positive)]
  have divided := Int.mul_tdiv_add_tmod b.value p
  have low := Int.lt_tmod_of_pos b.value positive
  have high := Int.tmod_lt_of_pos b.value positive
  generalize b.value.tdiv p = q, b.value.tmod p = r at divided low high
  have mono := fun (x y : Int) (le : x ≤ y) => Int.mul_le_mul_of_nonneg_right le positive.le
  have above := mono (q + 1) a.value
  have below := mono (a.value + 1) q
  have negative := mono (a.value + 1) 0
  have nonneg := mono 0 a.value
  have equal : a.value = q → a.value * p = q * p := fun same => by rw [same]
  rw [mul_comm] at divided
  simp only [add_mul, one_mul, zero_mul] at above below negative nonneg
  split_ifs <;> omega

theorem comparesExactly_of_le {a b : Decimal} (le : a.scale ≤ b.scale) :
    a.ComparesExactly b.toRCNum := by
  have positive : (0 : ℚ) < 10 ^ b.scale := by positivity
  have scaled : a.toRat = ((a.value * 10 ^ (b.scale - a.scale) : Int) : ℚ) / 10 ^ b.scale := by
    rw [RCNum.toRat, div_eq_div_iff (by positivity) positive.ne']
    push_cast
    rw [mul_assoc, ← pow_add, Nat.sub_add_cancel le]
  rw [RCNum.ComparesExactly, scaled, RCNum.toRat, div_lt_div_iff_of_pos_right positive,
    div_lt_div_iff_of_pos_right positive, Int.cast_lt, Int.cast_lt]
  rcases Nat.lt_or_eq_of_le le with less | same
  · exact compare_scaled less
  · rw [RCNum.compare, if_neg (not_or.mpr ⟨a.notNull, b.notNull⟩), if_neg (not_not.mpr same), same,
      Nat.sub_self, pow_zero, mul_one]
    split_ifs <;> omega

/-- The comparison is exact, and so a total preorder across the scales. -/
theorem compare_exact : (∀ a b : Decimal, a.ComparesExactly b.toRCNum) ∧
    Std.Total (fun a b : Decimal => a.compare b.toRCNum ≤ 0) ∧
    IsTrans Decimal fun a b => a.compare b.toRCNum ≤ 0 := by
  have exact : ∀ a b : Decimal, a.ComparesExactly b.toRCNum := by
    intro a b
    rcases le_or_gt a.scale b.scale with le | larger
    · exact comparesExactly_of_le le
    · obtain ⟨less, more⟩ := comparesExactly_of_le larger.le
      rw [RCNum.ComparesExactly, RCNum.compare_swap larger, ← less, ← more]
      omega
  have le_iff : ∀ a b : Decimal, a.compare b.toRCNum ≤ 0 ↔ a.toRat ≤ b.toRat := fun a b =>
    not_lt.symm.trans ((not_congr (exact a b).2).trans not_lt)
  refine ⟨exact, ⟨fun a b => ?_⟩, ⟨fun a b c => ?_⟩⟩
  · rw [le_iff, le_iff]
    exact le_total _ _
  · rw [le_iff, le_iff, le_iff]
    exact le_trans

end Decimal

/-- The value that stands for null is equal to every number. -/
theorem RCNum.compare_null_inexact :
    ¬∀ a b : RCNum, a.scale ≤ 18 → b.scale ≤ 18 → a.ComparesExactly b := by
  intro always
  have wrong := (always ⟨nullValue64, 0, by decide⟩ ⟨0, 0, by decide⟩ (by decide) (by decide)).1.mpr
    (by norm_num [toRat, nullValue64, minusInf64])
  exact absurd wrong (by decide)

/-! ## Dates and times -/

/-- A date or time that is not null.  Its fields are bits of the word, which is negated for a
negative time. -/
structure RCDateTime where
  attrType : AttributeType
  isDateTime : attrType.isDateTimeType = true
  dt : Int
  int64 : IsInt64 dt

namespace RCDateTime

variable (d : RCDateTime)

def sign : Int := if d.dt < 0 then -1 else 1

def field (shift width : Nat) : Int := d.dt.natAbs / 2 ^ shift % 2 ^ width

def year : Int := d.field 37 14 * d.sign

def month : Int := d.field 33 4 * d.sign

def day : Int := d.field 28 5 * d.sign

def hour : Int := Int.bmod (d.field 12 16) (2 ^ 16)

def minute : Int := d.field 6 6

def second : Int := d.field 0 6

def toInt64 : Int :=
  match d.attrType with
  | .year => d.dt / 2 ^ 37 % 2 ^ 14
  | .date => d.year * 10000 + d.month * 100 + d.day
  | .time =>
    let value := d.hour * 10000 + d.minute * 100 + d.second
    if d.sign = -1 then -value else value
  | _ => (d.year * 10000 + d.month * 100 + d.day) * 1000000 +
    (d.hour * 10000 + d.minute * 100 + d.second)

end RCDateTime

def RCNum.getIntPart (a : RCNum) : Int := a.value.tdiv (wrap64 (10 ^ a.scale))

/-- The difference of 64 bits is cut down to an `int`. -/
def RCNum.compareDate (a : RCNum) (d : RCDateTime) : Int :=
  Int.bmod (wrap64 (a.getIntPart - d.toInt64)) (2 ^ 32)

def RCDateTime.compareNum (d : RCDateTime) (a : RCNum) : Int :=
  if a.value = nullValue64 then 0 else Int.bmod (wrap64 (d.toInt64 - a.getIntPart)) (2 ^ 32)

namespace Decimal

/-- Both comparisons have the sign of the difference, seen from their own side. -/
def ComparesWith (n : Decimal) (d : RCDateTime) : Prop :=
  ((n.compareDate d < 0 ↔ n.value < d.toInt64) ∧ (0 < n.compareDate d ↔ d.toInt64 < n.value)) ∧
    (d.compareNum n.toRCNum < 0 ↔ d.toInt64 < n.value) ∧
      (0 < d.compareNum n.toRCNum ↔ n.value < d.toInt64)

/-- The low half of the difference decides. -/
theorem comparesWith_iff {n : Decimal} (integer : n.scale = 0) (d : RCDateTime) :
    n.ComparesWith d ↔
      (d.toInt64 < n.value →
        0 < (n.value - d.toInt64) % 2 ^ 32 ∧ (n.value - d.toInt64) % 2 ^ 32 < 2 ^ 31) ∧
      (n.value < d.toInt64 → 2 ^ 31 < (n.value - d.toInt64) % 2 ^ 32) := by
  have whole : n.getIntPart = n.value := by
    rw [RCNum.getIntPart, integer]
    exact Int.tdiv_one _
  have halves : 2 ^ 32 ∣ 2 ^ 64 := by decide
  rw [ComparesWith, RCNum.compareDate, RCDateTime.compareNum, if_neg n.notNull, whole, wrap64,
    wrap64,
    Int.bmod_bmod_of_dvd halves, Int.bmod_bmod_of_dvd halves, Int.bmod, Int.bmod]
  split_ifs <;> omega

/-- The 31st of December 2010. -/
def lastDay : RCDateTime :=
  ⟨.date, rfl, 2010 * 2 ^ 37 + 12 * 2 ^ 33 + 31 * 2 ^ 28, by decide⟩

theorem comparesWith_lastDay : lastDay.toInt64 = 20101231 ∧
    ComparesWith ⟨⟨20101230, 0, by decide⟩, by decide, by decide⟩ lastDay :=
  ⟨by decide, (comparesWith_iff rfl lastDay).mpr (by decide)⟩

def midnight : RCDateTime := ⟨.time, rfl, 0, by decide⟩

/-- The number `2 ^ 32` is equal to every date and time that is 0. -/
theorem compareDate_truncates :
    ¬∀ (n : Decimal) (d : RCDateTime), n.scale = 0 → n.ComparesWith d := by
  intro always
  have larger := (always ⟨⟨2 ^ 32, 0, by decide⟩, by decide, by decide⟩ midnight rfl).1.2
  exact absurd (larger.mpr (by decide)) (by decide)

end Decimal

end Brighthouse.Core
