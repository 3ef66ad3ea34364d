import Mathlib

/-!
# Bit lengths

`GetBitLen` of `compress/tools.h`: one more than the position of the highest set bit,
and zero for zero.
-/

set_option autoImplicit false

namespace Brighthouse.Compress

def getBitLen (x : Nat) : Nat := if x = 0 then 0 else Nat.log2 x + 1

theorem lt_two_pow_getBitLen (x : Nat) : x < 2 ^ getBitLen x := by
  unfold getBitLen
  split
  · next zero => simp [zero]
  · exact Nat.lt_log2_self

end Brighthouse.Compress
