import Brighthouse.Core.CommonDefinitions
import Brighthouse.Library.Binary64
import Brighthouse.Library.Word64

/-!
# Codes of numeric constants

`RCAttr::EncodeValue64` for a fixed-point column: a decimal number is brought to the scale
of the column, digits that do not fit are cut off toward zero, and a number that is too
large becomes an infinity.  A double is cast to a word.
-/

set_option autoImplicit false

namespace Brighthouse.Core

open Library.Binary64 Library.Word64

structure RCNum where
  value : Int
  scale : Nat
  int64 : IsInt64 value

def scaleUp : Nat → Int → Int
  | 0, vv => vv
  | turns + 1, vv =>
    if vv < minusInf64.tdiv 10 then minusInf64
    else if vv > plusInf64.tdiv 10 then plusInf64
    else scaleUp turns (vv * 10)

def scaleDown : Nat → Int → Bool → Int × Bool
  | 0, vv, rounded => (vv, rounded)
  | turns + 1, vv, rounded => scaleDown turns (vv.tdiv 10) (rounded || vv.tmod 10 != 0)

/-- The code in a column with `dplaces` decimal places and the flag `rounded`. -/
def encodeValue64 (dplaces : Nat) (v : RCNum) : Int × Bool :=
  if v.scale < dplaces then (scaleUp (dplaces - v.scale) v.value, false)
  else scaleDown (v.scale - dplaces) v.value false

/-- The cast of a double.  A number outside the range becomes the smallest word. -/
def castInt64 (vd : ℚ) : Int := if IsInt64 (truncate vd) then truncate vd else -2 ^ 63

/-- The branch for a double. -/
def encodeReal64 (dplaces : Nat) (vd : ℚ) : Int × Bool :=
  let vd := round53 (vd * round53 (10 ^ dplaces))
  if vd > round53 plusInf64 then (plusInf64, false)
  else if vd < round53 minusInf64 then (minusInf64, false)
  else (castInt64 vd, round53 (1 / 100) < |round53 (vd - round53 (castInt64 vd))|)

/-- The number in units of the last decimal place of a column. -/
def RCNum.units (v : RCNum) (dplaces : Nat) : ℚ := v.value / 10 ^ v.scale * 10 ^ dplaces

theorem units_eq_iff (v : RCNum) (dplaces : Nat) (x : Int) :
    v.units dplaces = x ↔ v.value * 10 ^ dplaces = x * 10 ^ v.scale := by
  have pos : (0 : ℚ) < 10 ^ v.scale := by positivity
  rw [RCNum.units, div_mul_eq_mul_div, div_eq_iff pos.ne']
  exact_mod_cast Iff.rfl

/-- How a code and its flag stand for a number `c` of units. -/
inductive EncodedAs (c : ℚ) (code : Int) (rounded : Bool) : Prop
  | exact (flag : rounded = false) (same : c = code)
  | above (flag : rounded = true) (nonneg : 0 ≤ code) (lower : (code : ℚ) < c)
      (upper : c < code + 1)
  | below (flag : rounded = true) (nonpos : code ≤ 0) (lower : (code : ℚ) - 1 < c)
      (upper : c < code)
  | tooLarge (flag : rounded = false) (infinite : code = plusInf64) (above : c > plusInf64)
  | tooSmall (flag : rounded = false) (infinite : code = minusInf64) (below : c < minusInf64)

theorem scaleUp_encodedAs (turns : Nat) {vv : Int} (int64 : IsInt64 vv) :
    IsInt64 (scaleUp turns vv) ∧ EncodedAs (vv * 10 ^ turns) (scaleUp turns vv) false := by
  induction turns generalizing vv with
  | zero => exact ⟨int64, .exact rfl (by simp [scaleUp])⟩
  | succ turns ih =>
    have pow : (1 : ℚ) ≤ 10 ^ turns := one_le_pow₀ (by norm_num)
    have minusTenth : minusInf64.tdiv 10 = -922337203685477580 := by decide
    have plusTenth : plusInf64.tdiv 10 = 922337203685477580 := by decide
    rw [scaleUp, minusTenth, plusTenth]
    by_cases small : vv < -922337203685477580
    · rw [if_pos small]
      have cast : (vv : ℚ) ≤ -922337203685477581 := by exact_mod_cast (by omega)
      refine ⟨by decide, .tooSmall rfl rfl ?_⟩
      have infinite : (minusInf64 : ℚ) = -9223372036854775808 := by
        rw [minusInf64]
        norm_num
      rw [pow_succ]
      nlinarith
    rw [if_neg small]
    by_cases large : vv > 922337203685477580
    · rw [if_pos large]
      have cast : (922337203685477581 : ℚ) ≤ vv := by exact_mod_cast (by omega)
      refine ⟨by decide, .tooLarge rfl rfl ?_⟩
      have infinite : (plusInf64 : ℚ) = 9223372036854775807 := by
        rw [plusInf64]
        norm_num
      rw [pow_succ]
      nlinarith
    · rw [if_neg large]
      have next := @ih (vv * 10) ⟨by omega, by omega⟩
      have same : ((vv * 10 : Int) : ℚ) * 10 ^ turns = vv * 10 ^ (turns + 1) := by
        push_cast
        ring
      rwa [same] at next

theorem tdiv_tdiv_of_nonneg {b : Int} (nonneg : 0 ≤ b) (a c : Int) :
    (a.tdiv b).tdiv c = a.tdiv (b * c) := by
  have forNonneg : ∀ n : Int, 0 ≤ n → (n.tdiv b).tdiv c = n.tdiv (b * c) := by
    intro n isNonneg
    rw [Int.tdiv_eq_ediv_of_nonneg isNonneg, Int.tdiv_eq_ediv_of_nonneg isNonneg,
      Int.tdiv_eq_ediv_of_nonneg (Int.ediv_nonneg isNonneg nonneg), Int.ediv_ediv_of_nonneg nonneg]
  rcases le_total 0 a with isNonneg | isNonpos
  · exact forNonneg a isNonneg
  · have mirrored := forNonneg (-a) (by omega)
    rw [Int.neg_tdiv, Int.neg_tdiv, Int.neg_tdiv] at mirrored
    exact neg_injective mirrored

theorem scaleDown_eq (turns : Nat) (vv : Int) (rounded : Bool) :
    (scaleDown turns vv rounded).1 = vv.tdiv (10 ^ turns) ∧
      ((scaleDown turns vv rounded).2 = true ↔ rounded = true ∨ ¬(10 ^ turns : Int) ∣ vv) := by
  induction turns generalizing vv rounded with
  | zero => simp [scaleDown]
  | succ turns ih =>
    obtain ⟨code, flag⟩ := ih (vv.tdiv 10) (rounded || vv.tmod 10 != 0)
    refine ⟨?_, ?_⟩
    · rw [scaleDown, code, tdiv_tdiv_of_nonneg (by norm_num), pow_succ, mul_comm]
    · rw [scaleDown, flag, Bool.or_eq_true, or_assoc]
      refine or_congr_right ?_
      rw [bne_iff_ne, ne_eq, ← Int.dvd_iff_tmod_eq_zero, ← not_and_or, not_iff_not]
      constructor
      · rintro ⟨⟨w, rfl⟩, divides⟩
        rw [Int.mul_tdiv_cancel_left _ (by norm_num)] at divides
        rw [pow_succ, mul_comm]
        exact mul_dvd_mul_left 10 divides
      · intro divides
        have ten : (10 : Int) ∣ vv :=
          (Dvd.intro_left _ rfl).trans (pow_succ (10 : Int) turns ▸ divides)
        obtain ⟨w, rfl⟩ := ten
        refine ⟨Dvd.intro _ rfl, ?_⟩
        rw [Int.mul_tdiv_cancel_left _ (by norm_num)]
        rw [pow_succ, mul_comm] at divides
        exact (mul_dvd_mul_iff_left (by norm_num)).mp divides

theorem tdiv_encodedAs {vv d : Int} (pos : 0 < d) (inexact : ¬d ∣ vv) :
    EncodedAs ((vv : ℚ) / d) (vv.tdiv d) true := by
  have castPos : (0 : ℚ) < d := by exact_mod_cast pos
  have forNonneg : ∀ n : Int, 0 ≤ n → ¬d ∣ n →
      0 ≤ n.tdiv d ∧ n.tdiv d * d < n ∧ n < (n.tdiv d + 1) * d := by
    intro n isNonneg notDivides
    rw [Int.tdiv_eq_ediv_of_nonneg isNonneg]
    have split := Int.ediv_mul_add_emod n d
    have restLt := Int.emod_lt_of_pos n pos
    refine ⟨Int.ediv_nonneg isNonneg pos.le, by omega, ?_⟩
    rw [add_mul]
    omega
  rcases le_total 0 vv with isNonneg | isNonpos
  · obtain ⟨nonneg, lower, upper⟩ := forNonneg vv isNonneg inexact
    refine .above rfl nonneg ?_ ?_
    · rw [lt_div_iff₀ castPos]
      exact_mod_cast lower
    · rw [div_lt_iff₀ castPos]
      exact_mod_cast upper
  · obtain ⟨nonneg, lower, upper⟩ :=
      forNonneg (-vv) (by omega) (fun divides => inexact ((Int.dvd_neg).mp divides))
    rw [Int.neg_tdiv] at nonneg lower upper
    refine .below rfl (by omega) ?_ ?_
    · rw [lt_div_iff₀ castPos]
      have mirrored : (vv.tdiv d - 1) * d < vv := by
        have : (vv.tdiv d - 1) * d = -((-vv.tdiv d + 1) * d) := by ring
        omega
      exact_mod_cast mirrored
    · rw [div_lt_iff₀ castPos]
      have mirrored : vv < vv.tdiv d * d := by
        have : vv.tdiv d * d = -(-vv.tdiv d * d) := by ring
        omega
      exact_mod_cast mirrored

theorem scaleDown_encodedAs (turns : Nat) (vv : Int) :
    EncodedAs ((vv : ℚ) / 10 ^ turns) (scaleDown turns vv false).1
      (scaleDown turns vv false).2 := by
  obtain ⟨code, flag⟩ := scaleDown_eq turns vv false
  have pos : (0 : Int) < 10 ^ turns := by positivity
  rw [code]
  by_cases divides : (10 ^ turns : Int) ∣ vv
  · have notRounded : (scaleDown turns vv false).2 = false := by
      rw [← Bool.not_eq_true, flag]
      simp [divides]
    refine .exact notRounded ?_
    obtain ⟨w, rfl⟩ := divides
    rw [Int.mul_tdiv_cancel_left _ pos.ne']
    push_cast
    field_simp
  · have rounded : (scaleDown turns vv false).2 = true := flag.mpr (Or.inr divides)
    rw [rounded]
    have encoded := tdiv_encodedAs pos divides
    push_cast at encoded
    exact encoded

theorem isInt64_tdiv {vv d : Int} (int64 : IsInt64 vv) (pos : 0 < d) : IsInt64 (vv.tdiv d) := by
  obtain ⟨lower, upper⟩ := int64
  have bound := Int.natAbs_tdiv_le_natAbs vv d
  rcases le_total 0 vv with isNonneg | isNonpos
  · exact ⟨by omega, by omega⟩
  · have mirrored := Int.tdiv_nonneg (by omega : 0 ≤ -vv) pos.le
    rw [Int.neg_tdiv] at mirrored
    exact ⟨by omega, by omega⟩

theorem encodeValue64_encodedAs (dplaces : Nat) (v : RCNum) :
    EncodedAs (v.units dplaces) (encodeValue64 dplaces v).1 (encodeValue64 dplaces v).2 := by
  rw [encodeValue64, RCNum.units]
  split
  · rename_i fewer
    have same : (v.value : ℚ) / 10 ^ v.scale * 10 ^ dplaces =
        v.value * 10 ^ (dplaces - v.scale) := by
      rw [pow_sub₀ _ (by norm_num) fewer.le]
      field_simp
    rw [same]
    exact (scaleUp_encodedAs _ v.int64).2
  · rename_i enough
    have same : (v.value : ℚ) / 10 ^ v.scale * 10 ^ dplaces =
        v.value / 10 ^ (v.scale - dplaces) := by
      rw [pow_sub₀ _ (by norm_num) (not_lt.mp enough)]
      field_simp
    rw [same]
    exact scaleDown_encodedAs _ v.value

theorem encodeValue64_isInt64 (dplaces : Nat) (v : RCNum) :
    IsInt64 (encodeValue64 dplaces v).1 := by
  rw [encodeValue64]
  split
  · exact (scaleUp_encodedAs _ v.int64).1
  · rw [(scaleDown_eq _ _ _).1]
    exact isInt64_tdiv v.int64 (by positivity)

theorem encodeReal64_isInt64 (dplaces : Nat) (vd : ℚ) : IsInt64 (encodeReal64 dplaces vd).1 := by
  rw [encodeReal64]
  split_ifs
  · decide
  · decide
  · dsimp only [castInt64]
    split_ifs with inRange
    · exact inRange
    · decide

theorem encodeReal64_intCast {x : Int} (double : round53 x = x) (low : minusInf64 < x)
    (high : x < plusInf64) : encodeReal64 0 x = (x, false) := by
  have one : round53 (10 ^ 0) = 1 := by decide +kernel
  have minus : round53 minusInf64 = minusInf64 := by decide +kernel
  have plus : round53 plusInf64 = (plusInf64 + 1 : Int) := by decide +kernel
  have cast : castInt64 x = x := by
    have whole : truncate (x : ℚ) = x := by simp [truncate]
    simp only [minusInf64, plusInf64] at low high
    rw [castInt64, whole, if_pos ⟨by omega, by omega⟩]
  rw [encodeReal64, one, mul_one, double, minus, plus,
    if_neg (not_lt.mpr (by exact_mod_cast by omega)),
    if_neg (not_lt.mpr (by exact_mod_cast low.le)), cast, double, sub_self, round53_zero, abs_zero,
    decide_eq_false (not_lt.mpr (round53_nonneg (by norm_num)))]

variable {dplaces : Nat} {v : RCNum}

theorem encodeValue64_of_same (same : v.scale = dplaces) :
    encodeValue64 dplaces v = (v.value, false) := by
  rw [encodeValue64, if_neg same.not_lt, same, Nat.sub_self, scaleDown]

theorem encodeValue64_rounded_small (rounded : (encodeValue64 dplaces v).2 = true) :
    -2 ^ 60 ≤ (encodeValue64 dplaces v).1 ∧ (encodeValue64 dplaces v).1 ≤ 2 ^ 60 := by
  rw [encodeValue64] at rounded ⊢
  split at rounded
  · cases rounded
  · rename_i enough
    rw [if_neg enough]
    cases digits : v.scale - dplaces with
    | zero =>
      rw [digits] at rounded
      cases rounded
    | succ turns =>
      obtain ⟨lower, upper⟩ := v.int64
      have bound := Int.natAbs_tdiv_le_natAbs (v.value.tdiv 10) (10 ^ turns)
      have tenth : (v.value.tdiv 10).natAbs = v.value.natAbs / 10 := Int.natAbs_tdiv v.value 10
      have nested : v.value.tdiv (10 ^ (turns + 1)) = (v.value.tdiv 10).tdiv (10 ^ turns) := by
        rw [tdiv_tdiv_of_nonneg (by norm_num), pow_succ, mul_comm]
      rw [(scaleDown_eq _ _ _).1]
      omega

theorem value_eq_null (isNull : v.units dplaces = nullValue64) : v.value = nullValue64 := by
  rw [units_eq_iff] at isNull
  obtain ⟨lower, upper⟩ := v.int64
  rcases lt_trichotomy dplaces v.scale with fewer | same | more
  · obtain ⟨k, sum⟩ := Nat.exists_eq_add_of_lt fewer
    rw [sum, add_assoc, pow_add, mul_comm (10 ^ dplaces), ← mul_assoc] at isNull
    have value := mul_right_cancel₀ (pow_ne_zero dplaces (by norm_num)) isNull
    have pow : (1 : Int) ≤ 10 ^ k := one_le_pow₀ (by norm_num)
    rw [pow_succ] at value
    simp only [nullValue64, minusInf64] at value
    nlinarith
  · rw [same] at isNull
    exact mul_right_cancel₀ (pow_ne_zero _ (by norm_num)) isNull
  · obtain ⟨k, sum⟩ := Nat.exists_eq_add_of_lt more
    rw [sum, add_assoc, pow_add, mul_comm (10 ^ v.scale), ← mul_assoc] at isNull
    have value := mul_right_cancel₀ (pow_ne_zero v.scale (by norm_num)) isNull
    have divides : (10 : Int) ∣ nullValue64 := by
      rw [← value, pow_succ, ← mul_assoc]
      exact Dvd.intro_left _ rfl
    exact absurd divides (by decide)

end Brighthouse.Core
