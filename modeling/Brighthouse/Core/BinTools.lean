import Brighthouse.Core.CommonDefinitions
import Brighthouse.Library.BitCount
import Brighthouse.Library.Word64

/-!
# Binary sizes, safe multiplication and binary sums

`CalculateBinSize`, `SafeMultiplication` and `CalculateBinSum` of `core/bintools.cpp`.
-/

set_option autoImplicit false

namespace Brighthouse.Core

open Library.Word64 Nat Int

/-- The loop of `CalculateBinSize(unsigned int)` that shifts by single bits. -/
def binSizeOfByte (n : Nat) : Nat := if n = 0 then 0 else binSizeOfByte (n / 2) + 1

def calculateBinSize32 (n : Nat) : Nat :=
  if 255 < n then calculateBinSize32 (n / 256) + 8 else binSizeOfByte n

def calculateBinSize (n : Nat) : Nat :=
  if n / 2 ^ 32 = 0 then calculateBinSize32 (n % 2 ^ 32) else calculateBinSize32 (n / 2 ^ 32) + 32

/-- The arguments are `_int64` numbers; the product wraps around. -/
def safeMultiplication (x y : Int) : Int :=
  if x = nullValue64 ∨ y = nullValue64 ∨
      (0x7FFFFFFF < x ∨ 0x7FFFFFFF < y) ∧
        63 < calculateBinSize (toU64 x).toNat + calculateBinSize (toU64 y).toNat then nullValue64
  else wrap64 (x * y)

theorem size_div_pow {n bits : Nat} (large : bits ≤ n.size) :
    (n / 2 ^ bits).size + bits = n.size := by
  have positive : 0 < 2 ^ bits := Nat.two_pow_pos bits
  have high : (n / 2 ^ bits).size ≤ n.size - bits := by
    rw [Nat.size_le, Nat.div_lt_iff_lt_mul positive, ← pow_add, Nat.sub_add_cancel large]
    exact lt_size_self n
  have low : n.size ≤ (n / 2 ^ bits).size + bits := by
    rw [size_le, pow_add, ← div_lt_iff_lt_mul positive]
    exact lt_size_self _
  omega

theorem binSizeOfByte_eq (n : Nat) : binSizeOfByte n = n.size := by
  induction n using Nat.strong_induction_on with
  | h n ih =>
    rw [binSizeOfByte]
    split
    · rename_i zero
      rw [zero, size_zero]
    · rw [ih (n / 2) (by omega)]
      exact size_div_pow (size_pos.mpr (by omega))

theorem calculateBinSize32_eq (n : Nat) : calculateBinSize32 n = n.size := by
  induction n using Nat.strong_induction_on with
  | h n ih =>
    rw [calculateBinSize32]
    split
    · have wide : 8 ≤ n.size := (lt_size.mpr (by omega : 2 ^ 8 ≤ n)).le
      rw [ih (n / 256) (by omega)]
      exact size_div_pow wide
    · exact binSizeOfByte_eq n

theorem calculateBinSize_eq (n : Nat) : calculateBinSize n = n.size := by
  rw [calculateBinSize]
  split
  · rw [calculateBinSize32_eq, mod_eq_of_lt (by omega)]
  · have wide : 32 ≤ n.size := (lt_size.mpr (by omega : 2 ^ 32 ≤ n)).le
    rw [calculateBinSize32_eq]
    exact size_div_pow wide

/-! ## Multiplying sizes -/

/-- `SafeMultiplication` takes the product of two sizes for an overflow. -/
def Overflows (x y : Nat) : Prop := (2 ^ 31 ≤ x ∨ 2 ^ 31 ≤ y) ∧ 63 < x.size + y.size

instance (x y : Nat) : Decidable (Overflows x y) := inferInstanceAs (Decidable (_ ∧ _))

theorem safeMultiplication_eq {x y : Int} (notNullX : x ≠ nullValue64)
    (notNullY : y ≠ nullValue64) :
    safeMultiplication x y = if (0x7FFFFFFF < x ∨ 0x7FFFFFFF < y) ∧
      63 < (toU64 x).toNat.size + (toU64 y).toNat.size then nullValue64 else wrap64 (x * y) := by
  rw [safeMultiplication, calculateBinSize_eq, calculateBinSize_eq]
  exact if_congr ((or_iff_right notNullX).trans (or_iff_right notNullY)) rfl rfl

variable {x y : Nat}

theorem mul_lt_of_not_overflows (safe : ¬Overflows x y) : x * y < 2 ^ 63 := by
  by_cases large : 2 ^ 31 ≤ x ∨ 2 ^ 31 ≤ y
  · have sizes : x.size + y.size ≤ 63 := by
      by_contra more
      exact safe ⟨large, by omega⟩
    calc
      x * y < 2 ^ x.size * 2 ^ y.size := mul_lt_mul'' (lt_size_self x) (lt_size_self y)
      _ = 2 ^ (x.size + y.size) := (pow_add 2 _ _).symm
      _ ≤ 2 ^ 63 := Nat.pow_le_pow_right (by decide) sizes
  · push Not at large
    calc
      x * y < 2 ^ 31 * 2 ^ 31 := mul_lt_mul'' large.1 large.2
      _ ≤ 2 ^ 63 := by decide

theorem safeMultiplication_natCast (fitsX : x < 2 ^ 63) (fitsY : y < 2 ^ 63) :
    safeMultiplication x y = if Overflows x y then nullValue64 else (x * y : Nat) := by
  have null : nullValue64 < 0 := by decide
  have unsignedX : toU64 x = x := toU64_of_nonneg (by omega) (by omega)
  have unsignedY : toU64 y = y := toU64_of_nonneg (by omega) (by omega)
  rw [safeMultiplication_eq (by omega) (by omega), unsignedX, unsignedY]
  by_cases overflows : Overflows x y
  · have large := overflows.1
    rw [if_pos overflows, if_pos ⟨by omega, overflows.2⟩]
  · have small := mul_lt_of_not_overflows overflows
    rw [if_neg overflows, if_neg fun both => overflows ⟨by omega, both.2⟩]
    exact wrap64_of_isInt64 ⟨by omega, by omega⟩

/-! ## When the multiplication is safe -/

/-- The product or a null, and the product wherever it is small. -/
def MultipliesSafely (x y : Int) : Prop :=
  (safeMultiplication x y = x * y ∨ safeMultiplication x y = nullValue64) ∧
    (x.natAbs * y.natAbs < 2 ^ 62 → safeMultiplication x y = x * y)

theorem le_mul_of_overflows (fitsX : x < 2 ^ 63) (fitsY : y < 2 ^ 63) (overflows : Overflows x y) :
    2 ^ 62 ≤ x * y := by
  have sizes := overflows.2
  have sizeX : x.size ≤ 63 := size_le.mpr fitsX
  have sizeY : y.size ≤ 63 := size_le.mpr fitsY
  calc
    2 ^ 62 ≤ 2 ^ (x.size - 1 + (y.size - 1)) := Nat.pow_le_pow_right (by decide) (by omega)
    _ = 2 ^ (x.size - 1) * 2 ^ (y.size - 1) := pow_add 2 _ _
    _ ≤ x * y := Nat.mul_le_mul (Nat.lt_size.mp (by omega)) (Nat.lt_size.mp (by omega))

theorem multipliesSafely_of_nonneg (fitsX : x < 2 ^ 63) (fitsY : y < 2 ^ 63) :
    MultipliesSafely x y := by
  rw [MultipliesSafely, safeMultiplication_natCast fitsX fitsY]
  by_cases overflows : Overflows x y
  · have large := le_mul_of_overflows fitsX fitsY overflows
    rw [if_pos overflows]
    exact ⟨.inr rfl, fun small => absurd small (by simpa using large)⟩
  · rw [if_neg overflows]
    exact ⟨.inl rfl, fun _ => rfl⟩

section
variable {x y : Int} (int64X : IsInt64 x) (int64Y : IsInt64 y) (notNullX : x ≠ nullValue64)
  (notNullY : y ≠ nullValue64)
include int64X int64Y notNullX notNullY

theorem safeMultiplication_of_neg (negative : x < 0 ∨ y < 0) :
    safeMultiplication x y =
      if 2 ^ 31 ≤ x ∨ 2 ^ 31 ≤ y then nullValue64 else wrap64 (x * y) := by
  have wide : ∀ {z : Int}, IsInt64 z → z < 0 → 64 ≤ (toU64 z).toNat.size := by
    intro z int64 below
    have word : (toU64 z).toNat = (z + 2 ^ 64).toNat := by
      rw [toU64, ← add_emod_right, emod_eq_of_lt (by have := int64.1; omega) (by omega)]
    rw [succ_le_iff, lt_size]
    have low := int64.1
    omega
  have sizes : 63 < (toU64 x).toNat.size + (toU64 y).toNat.size := by
    rcases negative with below | below
    · have := wide int64X below
      omega
    · have := wide int64Y below
      omega
  rw [safeMultiplication_eq notNullX notNullY]
  exact if_congr ((and_iff_left sizes).trans (by omega)) rfl rfl

/-- Negative factors defeat the test: their sizes are only looked at where the other one is
large, and then they count as large themselves. -/
theorem multipliesSafely_iff :
    MultipliesSafely x y ↔
      0 ≤ x ∧ 0 ≤ y ∨
        (x < 2 ^ 31 ∧ y < 2 ^ 31 ∧ (IsInt64 (x * y) ∨ x * y ≡ nullValue64 [ZMOD 2 ^ 64])) ∨
        (2 ^ 31 ≤ x ∨ 2 ^ 31 ≤ y) ∧ 2 ^ 62 ≤ x.natAbs * y.natAbs := by
  by_cases nonneg : 0 ≤ x ∧ 0 ≤ y
  · obtain ⟨m, rfl⟩ := eq_ofNat_of_zero_le nonneg.1
    obtain ⟨n, rfl⟩ := eq_ofNat_of_zero_le nonneg.2
    have highX := int64X.2
    have highY := int64Y.2
    exact iff_of_true (multipliesSafely_of_nonneg (by omega) (by omega)) (.inl nonneg)
  rw [MultipliesSafely, safeMultiplication_of_neg int64X int64Y notNullX notNullY (by omega),
    or_iff_right nonneg]
  have limit : nullValue64.natAbs = 2 ^ 63 - 1 := rfl
  by_cases large : 2 ^ 31 ≤ x ∨ 2 ^ 31 ≤ y
  · have notProduct : x.natAbs * y.natAbs < 2 ^ 62 → nullValue64 ≠ x * y := by
      intro small null
      rw [← natAbs_mul, ← null] at small
      omega
    rw [if_pos large, and_iff_right (.inr rfl), or_iff_right (by omega), and_iff_right large,
      ← not_lt]
    exact ⟨fun null small => notProduct small (null small),
      fun notSmall small => absurd small notSmall⟩
  · have notLarge : ¬((2 ^ 31 ≤ x ∨ 2 ^ 31 ≤ y) ∧ 2 ^ 62 ≤ x.natAbs * y.natAbs) :=
      fun both => large both.1
    rw [if_neg large, or_iff_left notLarge]
    push Not at large
    rw [and_iff_right large.1, and_iff_right large.2]
    have inRange : wrap64 (x * y) = x * y ↔ IsInt64 (x * y) :=
      ⟨fun same => same ▸ isInt64_wrap64 _, wrap64_of_isInt64⟩
    rw [inRange, wrap64_eq_iff (by decide), and_iff_left]
    intro small
    rw [← natAbs_mul] at small
    exact ⟨by omega, by omega⟩

end

theorem multipliesSafely_small_negatives : MultipliesSafely (-3) (-5) :=
  (multipliesSafely_iff (by decide) (by decide) (by decide) (by decide)).mpr
    (.inr (.inl ⟨by decide, by decide, .inl (by decide)⟩))

theorem not_multipliesSafely_large_negatives :
    safeMultiplication (-2 ^ 40) (-2 ^ 40) = 0 ∧ ¬MultipliesSafely (-2 ^ 40) (-2 ^ 40) ∧
      safeMultiplication (-1) (2 ^ 31) = nullValue64 ∧ ¬MultipliesSafely (-1) (2 ^ 31) := by
  have zero : safeMultiplication (-2 ^ 40) (-2 ^ 40) = 0 := by decide +kernel
  have null : safeMultiplication (-1) (2 ^ 31) = nullValue64 := by decide +kernel
  refine ⟨zero, fun safe => ?_, null, fun safe => ?_⟩
  · exact absurd safe.1 (by rw [zero]; decide)
  · exact absurd (safe.2 (by decide)) (by rw [null]; decide)

/-! ## Counting the ones of a word -/

open Library.BitCount

def binSums : List Nat :=
  [0, 1, 1, 2, 1, 2, 2, 3, 1, 2, 2, 3, 2, 3, 3, 4,
   1, 2, 2, 3, 2, 3, 3, 4, 2, 3, 3, 4, 3, 4, 4, 5,
   1, 2, 2, 3, 2, 3, 3, 4, 2, 3, 3, 4, 3, 4, 4, 5,
   2, 3, 3, 4, 3, 4, 4, 5, 3, 4, 4, 5, 4, 5, 5, 6,
   1, 2, 2, 3, 2, 3, 3, 4, 2, 3, 3, 4, 3, 4, 4, 5,
   2, 3, 3, 4, 3, 4, 4, 5, 3, 4, 4, 5, 4, 5, 5, 6,
   2, 3, 3, 4, 3, 4, 4, 5, 3, 4, 4, 5, 4, 5, 5, 6,
   3, 4, 4, 5, 4, 5, 5, 6, 4, 5, 5, 6, 5, 6, 6, 7,
   1, 2, 2, 3, 2, 3, 3, 4, 2, 3, 3, 4, 3, 4, 4, 5,
   2, 3, 3, 4, 3, 4, 4, 5, 3, 4, 4, 5, 4, 5, 5, 6,
   2, 3, 3, 4, 3, 4, 4, 5, 3, 4, 4, 5, 4, 5, 5, 6,
   3, 4, 4, 5, 4, 5, 5, 6, 4, 5, 5, 6, 5, 6, 6, 7,
   2, 3, 3, 4, 3, 4, 4, 5, 3, 4, 4, 5, 4, 5, 5, 6,
   3, 4, 4, 5, 4, 5, 5, 6, 4, 5, 5, 6, 5, 6, 6, 7,
   3, 4, 4, 5, 4, 5, 5, 6, 4, 5, 5, 6, 5, 6, 6, 7,
   4, 5, 5, 6, 5, 6, 6, 7, 5, 6, 6, 7, 6, 7, 7, 8]

def calculateBinSum (n : BitVec 32) : Nat :=
  binSums.getD (n % 256#32).toNat 0 + binSums.getD ((n >>> 8) % 256#32).toNat 0 +
    binSums.getD ((n >>> 8 >>> 8) % 256#32).toNat 0 +
    binSums.getD ((n >>> 8 >>> 8 >>> 8) % 256#32).toNat 0

theorem binSums_eq : ∀ byte < 256, binSums.getD byte 0 = ones byte.testBit 8 := by
  decide +kernel

theorem binSums_low_byte (n : BitVec 32) :
    binSums.getD (n % 256#32).toNat 0 = ones n.getLsbD 8 := by
  have low : (n % 256#32).toNat = n.toNat % 2 ^ 8 := BitVec.toNat_umod
  rw [low, binSums_eq (n.toNat % 2 ^ 8) (mod_lt _ (by decide))]
  refine ones_congr fun m lt => ?_
  rw [testBit_mod_two_pow, decide_eq_true lt, Bool.true_and, BitVec.getLsbD]

theorem calculateBinSum_eq (n : BitVec 32) : calculateBinSum n = ones n.getLsbD 32 := by
  have shifted : ∀ (word : BitVec 32) (k : Nat),
      ones word.getLsbD (8 + k) = ones word.getLsbD 8 + ones (word >>> 8).getLsbD k := by
    intro word k
    rw [ones_add]
    exact congrArg _ (ones_congr fun m _ => (BitVec.getLsbD_ushiftRight ..).symm)
  rw [calculateBinSum]
  simp only [binSums_low_byte]
  rw [shifted n 24, shifted _ 16, shifted _ 8]
  omega

end Brighthouse.Core
