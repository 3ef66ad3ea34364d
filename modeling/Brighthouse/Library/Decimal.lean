import Brighthouse.Library.Bytes

/-!
# Decimal numbers

A string of decimal digits is read back from its value if it has no leading zero.
-/

set_option autoImplicit false

namespace Brighthouse.Library.Decimal

open List Nat

def zero : Byte := 48

def IsDigit (c : Byte) : Prop := 48 ≤ c.val ∧ c.val ≤ 57

instance (c : Byte) : Decidable (IsDigit c) := inferInstanceAs (Decidable (_ ∧ _))

def digit (c : Byte) : Nat := c.val - 48

def value (s : Bytes) : Nat := s.foldl (fun v c => v * 10 + digit c) 0

def print (n : Nat) : Bytes :=
  if n = 0 then [zero] else ((Nat.digits 10 n).map fun d => Fin.ofNat 256 (48 + d)).reverse

theorem value_eq_ofDigits (s : Bytes) : value s = ofDigits 10 (s.reverse.map digit) := by
  rw [ofDigits_eq_foldr, foldr_map, foldr_reverse]
  unfold value
  congr 1
  funext v c
  simp only [cast_id]
  omega

variable {c : Byte}

theorem digit_lt (isDigit : IsDigit c) : digit c < 10 := by
  unfold IsDigit at isDigit
  unfold digit
  omega

theorem ofNat_digit (isDigit : IsDigit c) : Fin.ofNat 256 (48 + digit c) = c := by
  unfold IsDigit at isDigit
  apply Fin.ext
  simp only [Fin.ofNat, digit]
  omega

theorem eq_zero_of_digit (isDigit : IsDigit c) (same : digit c = 0) : c = zero := by
  rw [← ofNat_digit isDigit, same]
  rfl

theorem print_value {s : Bytes} (digits : ∀ c ∈ s, IsDigit c) (nonempty : s ≠ [])
    (canonical : s.head? = some zero → s.length ≤ 1) : print (value s) = s := by
  cases s with
  | nil => exact absurd rfl nonempty
  | cons c rest =>
    have first := digits c mem_cons_self
    by_cases isZero : digit c = 0
    · have same := eq_zero_of_digit first isZero
      have short := canonical (by rw [same]; rfl)
      have empty : rest = [] := length_eq_zero_iff.mp (by simpa using short)
      rw [empty, same]
      rfl
    · -- the most significant digit is not zero, so the digits are those of the value
      have read : Nat.digits 10 (value (c :: rest)) = (c :: rest).reverse.map digit := by
        rw [value_eq_ofDigits]
        refine digits_ofDigits 10 (by decide) _ ?_ ?_
        · intro d mem
          obtain ⟨e, inside, rfl⟩ := mem_map.mp mem
          exact digit_lt (digits e (mem_reverse.mp inside))
        · intro _
          simpa using isZero
      have positive : value (c :: rest) ≠ 0 := by
        intro none
        rw [none] at read
        simp at read
      rw [print, if_neg positive, read, map_reverse, map_reverse, reverse_reverse, map_map]
      refine (map_congr_left fun e mem => ?_).trans (map_id _)
      exact ofNat_digit (digits e mem)

end Brighthouse.Library.Decimal
