import Mathlib

/-!
# Rounding to 53 significant bits

`round53 q` is the value of the rational `q` after rounding to nearest, ties to
even, with a 53-bit significand and no bound on the exponent.  It agrees with the
default rounding of a binary64 operation as long as the exact result is zero or
in the normal range.
-/

set_option autoImplicit false

namespace Brighthouse.Library.Binary64

open Int

variable {x y : ℚ}

/-! ## Rounding to an integer -/

def roundEven (q : ℚ) : Int :=
  if q - ⌊q⌋ < 1 / 2 then ⌊q⌋
  else if 1 / 2 < q - ⌊q⌋ then ⌊q⌋ + 1
  else if ⌊q⌋ % 2 = 0 then ⌊q⌋ else ⌊q⌋ + 1

theorem roundEven_cases (q : ℚ) :
    (roundEven q = ⌊q⌋ ∧ q - ⌊q⌋ ≤ 1 / 2) ∨ (roundEven q = ⌊q⌋ + 1 ∧ 1 / 2 ≤ q - ⌊q⌋) := by
  unfold roundEven
  split
  · rename_i below
    exact .inl ⟨rfl, below.le⟩
  · rename_i notBelow
    split
    · rename_i above
      exact .inr ⟨rfl, above.le⟩
    · rename_i notAbove
      split
      · exact .inl ⟨rfl, not_lt.mp notAbove⟩
      · exact .inr ⟨rfl, not_lt.mp notBelow⟩

theorem roundEven_intCast (m : Int) : roundEven (m : ℚ) = m := by
  simp [roundEven]

theorem roundEven_mono (le : x ≤ y) : roundEven x ≤ roundEven y := by
  rcases lt_or_eq_of_le (floor_le_floor le) with floorLt | floorEq
  · rcases roundEven_cases x with ⟨hx, _⟩ | ⟨hx, _⟩ <;>
      rcases roundEven_cases y with ⟨hy, _⟩ | ⟨hy, _⟩ <;> omega
  · -- On one unit interval the value only depends on the fractional part.
    rcases roundEven_cases x with ⟨hx, _⟩ | ⟨hx, xHigh⟩
    · rcases roundEven_cases y with ⟨hy, _⟩ | ⟨hy, _⟩ <;> omega
    · rcases roundEven_cases y with ⟨hy, yLow⟩ | ⟨hy, _⟩
      · have same : x = y := by
          rw [floorEq] at xHigh
          linarith
        rw [same]
      · omega

variable {m : Int} {q : ℚ}

theorem le_roundEven (le : (m : ℚ) ≤ q) : m ≤ roundEven q := by
  have := roundEven_mono le
  rwa [roundEven_intCast] at this

theorem roundEven_le (le : q ≤ (m : ℚ)) : roundEven q ≤ m := by
  have := roundEven_mono le
  rwa [roundEven_intCast] at this

/-! ## Rounding to 53 bits -/

def ulpExp (q : ℚ) : Int := Int.log 2 q - 52

def roundPos (q : ℚ) : ℚ := roundEven (q / 2 ^ ulpExp q) * 2 ^ ulpExp q

def round53 (q : ℚ) : ℚ := if q < 0 then -roundPos (-q) else if q = 0 then 0 else roundPos q

theorem ulp_pos (k : Int) : (0 : ℚ) < 2 ^ k := by positivity

theorem significand_bounds (pos : 0 < q) :
    2 ^ 52 ≤ q / 2 ^ ulpExp q ∧ q / 2 ^ ulpExp q < 2 ^ 53 := by
  have lower : (2 : ℚ) ^ log 2 q ≤ q := by
    exact_mod_cast zpow_log_le_self (by norm_num : 1 < 2) pos
  have upper : q < (2 : ℚ) ^ (log 2 q + 1) := by
    exact_mod_cast lt_zpow_succ_log_self (by norm_num : 1 < 2) q
  have low : (2 : ℚ) ^ log 2 q = 2 ^ 52 * 2 ^ ulpExp q := by
    rw [← zpow_natCast, ← zpow_add₀ (by norm_num), ulpExp]
    congr 1
    push_cast
    ring
  have high : (2 : ℚ) ^ (log 2 q + 1) = 2 ^ 53 * 2 ^ ulpExp q := by
    rw [← zpow_natCast, ← zpow_add₀ (by norm_num), ulpExp]
    congr 1
    push_cast
    ring
  rw [low] at lower
  rw [high] at upper
  exact ⟨(le_div_iff₀ (ulp_pos _)).mpr lower, (div_lt_iff₀ (ulp_pos _)).mpr upper⟩

theorem rounded_bounds (pos : 0 < q) :
    2 ^ 52 ≤ roundEven (q / 2 ^ ulpExp q) ∧ roundEven (q / 2 ^ ulpExp q) ≤ 2 ^ 53 := by
  obtain ⟨lower, upper⟩ := significand_bounds pos
  exact ⟨le_roundEven (by exact_mod_cast lower), roundEven_le (by exact_mod_cast upper.le)⟩

theorem roundPos_pos (pos : 0 < q) : 0 < roundPos q := by
  obtain ⟨lower, _⟩ := rounded_bounds pos
  have : (0 : ℚ) < roundEven (q / 2 ^ ulpExp q) := by
    exact_mod_cast (by omega : 0 < roundEven (q / 2 ^ ulpExp q))
  exact mul_pos this (ulp_pos _)

theorem roundPos_mono (xPos : 0 < x) (le : x ≤ y) : roundPos x ≤ roundPos y := by
  have yPos : 0 < y := lt_of_lt_of_le xPos le
  have logLe : log 2 x ≤ log 2 y := log_mono_right xPos le
  rcases lt_or_eq_of_le logLe with logLt | logEq
  · -- A smaller exponent: the rounded values are separated by a power of two.
    have upper : (roundEven (x / 2 ^ ulpExp x) : ℚ) ≤ 2 ^ 53 := by
      exact_mod_cast (rounded_bounds xPos).2
    have lower : (2 ^ 52 : ℚ) ≤ roundEven (y / 2 ^ ulpExp y) := by
      exact_mod_cast (rounded_bounds yPos).1
    have expLe : ulpExp x + 1 ≤ ulpExp y := by
      unfold ulpExp
      omega
    have powLe : (2 : ℚ) ^ (ulpExp x + 1) ≤ 2 ^ ulpExp y := zpow_le_zpow_right₀ (by norm_num) expLe
    have powSucc : (2 : ℚ) ^ (ulpExp x + 1) = 2 ^ ulpExp x * 2 := by
      rw [zpow_add₀ (by norm_num), zpow_one]
    calc roundPos x ≤ 2 ^ 53 * 2 ^ ulpExp x := by
          unfold roundPos
          gcongr
      _ = 2 ^ 52 * 2 ^ (ulpExp x + 1) := by
          rw [powSucc]
          ring
      _ ≤ 2 ^ 52 * 2 ^ ulpExp y := by gcongr
      _ ≤ roundPos y := by
          unfold roundPos
          gcongr
  · have sameExp : ulpExp x = ulpExp y := by
      unfold ulpExp
      rw [logEq]
    have quotLe : x / 2 ^ ulpExp y ≤ y / 2 ^ ulpExp y := by gcongr
    have intLe : (roundEven (x / 2 ^ ulpExp y) : ℚ) ≤ roundEven (y / 2 ^ ulpExp y) := by
      exact_mod_cast roundEven_mono quotLe
    unfold roundPos
    rw [sameExp]
    gcongr

@[simp]
theorem round53_zero : round53 0 = 0 := by
  simp [round53]

theorem round53_of_pos (pos : 0 < q) : round53 q = roundPos q := by
  rw [round53, if_neg (not_lt.mpr pos.le), if_neg pos.ne']

theorem round53_neg (q : ℚ) : round53 (-q) = -round53 q := by
  rcases lt_trichotomy q 0 with neg | rfl | pos
  · rw [round53_of_pos (by linarith), round53, if_pos neg, neg_neg]
  · simp
  · rw [round53_of_pos pos, round53, if_pos (by linarith), neg_neg]

theorem round53_pos (pos : 0 < q) : 0 < round53 q := by
  rw [round53_of_pos pos]
  exact roundPos_pos pos

theorem round53_mono (le : x ≤ y) : round53 x ≤ round53 y := by
  rcases lt_trichotomy x 0 with xNeg | rfl | xPos
  · rcases lt_trichotomy y 0 with yNeg | rfl | yPos
    · have := roundPos_mono (by linarith : 0 < -y) (by linarith : -y ≤ -x)
      rw [round53, if_pos xNeg, round53, if_pos yNeg]
      linarith
    · have := roundPos_pos (by linarith : 0 < -x)
      rw [round53, if_pos xNeg, round53_zero]
      linarith
    · have := roundPos_pos (by linarith : 0 < -x)
      have := round53_pos yPos
      rw [round53, if_pos xNeg]
      linarith
  · rcases lt_or_eq_of_le le with yPos | rfl
    · exact (round53_pos yPos).le
    · exact le_refl _
  · rw [round53_of_pos xPos, round53_of_pos (lt_of_lt_of_le xPos le)]
    exact roundPos_mono xPos le

theorem round53_nonneg (nonneg : 0 ≤ q) : 0 ≤ round53 q := by
  simpa using round53_mono nonneg

/-! ## Values that rounding keeps -/

theorem roundPos_of_integral (exact : q = m * 2 ^ ulpExp q) : roundPos q = q := by
  have quotient : q / 2 ^ ulpExp q = m := by
    rw [div_eq_iff (ulp_pos _).ne']
    exact exact
  rw [roundPos, quotient, roundEven_intCast]
  exact exact.symm

theorem roundPos_exact (k : Int) (pos : 0 < m) (small : m ≤ 2 ^ 53) :
    roundPos (m * 2 ^ k) = m * 2 ^ k := by
  have valuePos : (0 : ℚ) < m * 2 ^ k := mul_pos (by exact_mod_cast pos) (ulp_pos k)
  rcases lt_or_eq_of_le small with lt | eq
  · -- Fewer than 53 bits: the last place lies at or below bit `k`.
    have logLt : log 2 ((m : ℚ) * 2 ^ k) < 53 + k := by
      rw [← lt_zpow_iff_log_lt (by norm_num) valuePos, Nat.cast_ofNat,
        zpow_add₀ (by norm_num)]
      have mLt : (m : ℚ) < 2 ^ (53 : Int) := by exact_mod_cast lt
      gcongr
    have shift : ulpExp ((m : ℚ) * 2 ^ k) + (k - ulpExp ((m : ℚ) * 2 ^ k)).toNat = k := by
      unfold ulpExp
      omega
    refine roundPos_of_integral (m := m * 2 ^ (k - ulpExp ((m : ℚ) * 2 ^ k)).toNat) ?_
    conv_lhs => rw [← shift]
    rw [zpow_add₀ (by norm_num), zpow_natCast]
    push_cast
    ring
  · have value : (m : ℚ) * 2 ^ k = 2 ^ (53 + k) := by
      rw [eq, zpow_add₀ (by norm_num)]
      norm_num
    have log : log 2 ((2 : ℚ) ^ (53 + k)) = 53 + k := by
      exact_mod_cast log_zpow (R := ℚ) (by norm_num : 1 < 2) (53 + k)
    rw [value]
    refine roundPos_of_integral (m := 2 ^ 52) ?_
    rw [ulpExp, log, show (53 + k : Int) = 52 + (53 + k - 52) by ring, zpow_add₀ (by norm_num)]
    norm_num

theorem round53_div_pow (pos : 0 < q) (k : Nat) :
    round53 (round53 q / 2 ^ k) = round53 q / 2 ^ k := by
  obtain ⟨lower, upper⟩ := rounded_bounds pos
  have quotientPos : 0 < round53 q / 2 ^ k := div_pos (round53_pos pos) (by positivity)
  have form : round53 q / 2 ^ k = roundEven (q / 2 ^ ulpExp q) * 2 ^ (ulpExp q - k) := by
    rw [round53_of_pos pos, roundPos, zpow_sub₀ (by norm_num), zpow_natCast]
    ring
  rw [round53_of_pos quotientPos, form]
  exact roundPos_exact _ (by omega) upper

theorem round53_two_pow (k : Nat) : round53 (2 ^ k) = 2 ^ k := by
  have exact := roundPos_exact (m := 1) k (by norm_num) (by norm_num)
  rw [round53_of_pos (by positivity)]
  simpa using exact

theorem round53_dyadic {m : Nat} (k : Nat) (small : m ≤ 2 ^ 53) :
    round53 (m / 2 ^ k) = m / 2 ^ k := by
  rcases eq_zero_or_pos m with rfl | pos
  · simp
  · have exact := roundPos_exact (m := m) (-k) (by exact_mod_cast pos) (by exact_mod_cast small)
    have form : (m : ℚ) / 2 ^ k = (m : Int) * 2 ^ (-k : Int) := by
      rw [zpow_neg]
      norm_cast
    have positive : (0 : ℚ) < m / 2 ^ k := by positivity
    rw [round53_of_pos positive, form]
    exact exact

theorem round53_natCast {m : Nat} (small : m ≤ 2 ^ 53) : round53 (m : ℚ) = m := by
  have exact := round53_dyadic 0 small
  simpa using exact

/-! ## Conversion to an integer -/

def truncate (q : ℚ) : Int := if 0 ≤ q then ⌊q⌋ else ⌈q⌉

theorem truncate_of_nonneg (nonneg : 0 ≤ q) : truncate q = ⌊q⌋ := if_pos nonneg

theorem truncate_mono (nonneg : 0 ≤ x) (le : x ≤ y) : truncate x ≤ truncate y := by
  rw [truncate_of_nonneg nonneg, truncate_of_nonneg (le_trans nonneg le)]
  exact floor_le_floor le

theorem le_truncate (nonneg : 0 ≤ m) (le : (m : ℚ) ≤ q) : m ≤ truncate q := by
  have castNonneg : (0 : ℚ) ≤ m := by exact_mod_cast nonneg
  rw [truncate_of_nonneg (le_trans castNonneg le)]
  exact le_floor.mpr le

theorem truncate_le_neg (neg : m < 0) (le : q ≤ (m : ℚ)) : truncate q ≤ m := by
  have castNeg : (m : ℚ) < 0 := by exact_mod_cast neg
  rw [truncate, if_neg (by linarith)]
  exact ceil_le.mpr le

end Brighthouse.Library.Binary64
