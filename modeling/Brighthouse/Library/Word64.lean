import Mathlib

/-!
# Signed 64-bit words

Values of a signed 64-bit type are integers between `-2 ^ 63` and `2 ^ 63 - 1`.
Arithmetic wraps around: `wrap64` brings a result back into the signed range and
`toU64` reads the same word as unsigned.
-/

set_option autoImplicit false

namespace Brighthouse.Library.Word64

open Int

def IsInt64 (x : Int) : Prop := -2 ^ 63 ≤ x ∧ x < 2 ^ 63

instance (x : Int) : Decidable (IsInt64 x) := inferInstanceAs (Decidable (_ ∧ _))

def wrap64 (x : Int) : Int := Int.bmod x (2 ^ 64)

def toU64 (x : Int) : Int := x % 2 ^ 64

variable {x : Int}

theorem isInt64_zero : IsInt64 0 := by decide

theorem wrap64_of_isInt64 (inRange : IsInt64 x) : wrap64 x = x := by
  obtain ⟨lower, upper⟩ := inRange
  exact bmod_eq_of_le (by omega) (by omega)

theorem isInt64_wrap64 (x : Int) : IsInt64 (wrap64 x) := by
  have low := le_bmod (x := x) (m := 2 ^ 64) (by decide)
  have high := bmod_lt (x := x) (m := 2 ^ 64) (by decide)
  exact ⟨low, high⟩

theorem wrap64_of_ge (large : 2 ^ 63 ≤ x) (small : x < 2 ^ 64) : wrap64 x = x - 2 ^ 64 := by
  unfold wrap64
  rw [← sub_bmod_right]
  exact bmod_eq_of_le (by omega) (by omega)

/-- How many times a number has left the signed range, upwards or downwards. -/
def laps (x : Int) : Int := (x + 2 ^ 63) / 2 ^ 64

theorem wrap64_eq_sub (x : Int) : wrap64 x = x - 2 ^ 64 * laps x := by
  obtain ⟨low, high⟩ := isInt64_wrap64 x
  have same : 2 ^ 64 * bdiv x (2 ^ 64) + wrap64 x = x := bdiv_add_bmod x (2 ^ 64)
  rw [laps]
  omega

theorem wrap64_eq_iff {y : Int} (inRange : IsInt64 y) : wrap64 x = y ↔ x ≡ y [ZMOD 2 ^ 64] := by
  obtain ⟨low, high⟩ := inRange
  rw [wrap64_eq_sub, laps, ModEq]
  omega

/-- Wrapped numbers compare as the numbers do if both have left the range equally often, and
the other way round if not. -/
theorem wrap64_le_wrap64_iff {y : Int} (below : x - y < 2 ^ 64) (above : y - x < 2 ^ 64) :
    wrap64 x ≤ wrap64 y ↔ (x ≤ y ↔ laps x = laps y) := by
  rw [wrap64_eq_sub, wrap64_eq_sub, laps, laps]
  omega

theorem toU64_of_nonneg (nonneg : 0 ≤ x) (small : x < 2 ^ 64) : toU64 x = x :=
  emod_eq_of_lt nonneg small

end Brighthouse.Library.Word64
