import Brighthouse.Library.Bytes

/-!
# Four-byte windows and 32-bit wrap-around

A stream coder keeps a 32-bit window of its byte stream: the next four bytes,
most significant first.  This module states how the window moves when a byte is
shifted out, and how the wrapping operations of an unsigned 32-bit register act
on numbers that are known to fit.
-/

set_option autoImplicit false

namespace Brighthouse.Library.ByteWindow

open Nat

/-- Unsigned 32-bit arithmetic wraps. -/
def u32 (x : Nat) : Nat := x % 2 ^ 32

theorem u32_of_lt {x : Nat} (small : x < 2 ^ 32) : u32 x = x := mod_eq_of_lt small

theorem u32_shiftLeft_eight (x : Nat) : u32 (x <<< 8) = x % 2 ^ 24 * 256 := by
  rw [u32]
  omega

theorem xor_lt_top_iff (a b : Nat) : a ^^^ b < 2 ^ 24 ↔ a / 2 ^ 24 = b / 2 ^ 24 := by
  rw [← div_eq_zero_iff_lt (by decide), xor_div_two_pow]
  exact Nat.xor_eq_zero_iff

theorem neg_and_mask (low : Nat) (small : low < 2 ^ 32) :
    u32 (2 ^ 32 - low) &&& (2 ^ 16 - 1) = (2 ^ 16 - low % 2 ^ 16) % 2 ^ 16 := by
  rw [and_two_pow_sub_one_eq_mod, u32]
  omega

/-- The number in the first four bytes, most significant first. -/
def window : List Byte → Nat
  | a :: b :: c :: d :: _ => ((a.val * 256 + b.val) * 256 + c.val) * 256 + d.val
  | _ => 0

variable {bytes : List Byte}

theorem exists_four (long : 4 ≤ bytes.length) :
    ∃ a b c d rest, bytes = a :: b :: c :: d :: rest := by
  match bytes, long with
  | a :: b :: c :: d :: rest, _ => exact ⟨a, b, c, d, rest, rfl⟩

theorem window_lt (bytes : List Byte) : window bytes < 2 ^ 32 := by
  unfold window
  split
  · omega
  · decide

theorem window_cons_div (head : Byte) (long : 4 ≤ bytes.length) :
    window (head :: bytes) / 2 ^ 24 = head.val := by
  obtain ⟨a, b, c, d, rest, rfl⟩ := exists_four long
  simp only [window]
  omega

/-- Dropping the leading byte shifts the window by eight bits and takes the
fifth byte in at the bottom. -/
theorem window_cons_mod (head : Byte) (long : 4 ≤ bytes.length) :
    ∃ next, bytes.drop 3 = next :: bytes.drop 4 ∧
      window bytes = window (head :: bytes) % 2 ^ 24 * 256 + next.val := by
  obtain ⟨a, b, c, d, rest, rfl⟩ := exists_four long
  refine ⟨d, rfl, ?_⟩
  simp only [window]
  omega

theorem shift_in_byte (code : Nat) (next : Byte) :
    u32 (code <<< 8) ||| next.val = code % 2 ^ 24 * 256 + next.val := by
  have shifted : u32 (code <<< 8) = (code % 2 ^ 24) <<< 8 := by
    rw [u32_shiftLeft_eight, shiftLeft_eq]
  rw [shifted, ← shiftLeft_add_eq_or_of_lt next.isLt, shiftLeft_eq]

def flushBytes (low : Nat) : List Byte :=
  [Fin.ofNat 256 (low / 2 ^ 24), Fin.ofNat 256 (low / 2 ^ 16), Fin.ofNat 256 (low / 2 ^ 8),
    Fin.ofNat 256 low]

theorem window_flushBytes {low : Nat} (small : low < 2 ^ 32) : window (flushBytes low) = low := by
  simp only [flushBytes, window, Fin.val_ofNat]
  omega

end Brighthouse.Library.ByteWindow
