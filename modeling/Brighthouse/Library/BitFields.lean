import Mathlib

/-!
# Numbers made of bit fields

Field `i` has `width i` bits and holds `value i`.  The fields are appended at the low
end one after the other, so that field `0` is the most significant one.
-/

set_option autoImplicit false

namespace Brighthouse.Library.BitFields

open Nat

/-- The first `n` fields as one number. -/
def pack (width value : Nat → Nat) : Nat → Nat
  | 0 => 0
  | n + 1 => pack width value n <<< width n + value n

def totalWidth (width : Nat → Nat) : Nat → Nat
  | 0 => 0
  | n + 1 => totalWidth width n + width n

theorem totalWidth_mono {width : Nat → Nat} {n m : Nat} (le : n ≤ m) :
    totalWidth width n ≤ totalWidth width m := by
  induction m, le using le_induction with
  | base => exact le_refl _
  | succ m _ ih => exact ih.trans (le_add_right _ _)

def Fit (width value : Nat → Nat) (n : Nat) : Prop := ∀ i < n, value i < 2 ^ width i

section
variable {width value value' : Nat → Nat} {n : Nat}

theorem pack_succ (width value : Nat → Nat) (n : Nat) :
    pack width value (n + 1) = pack width value n * 2 ^ width n + value n := by
  rw [pack, shiftLeft_eq]

theorem Fit.pred (fit : Fit width value (n + 1)) : Fit width value n :=
  fun i small => fit i (lt_succ_of_lt small)

theorem pack_lt (fit : Fit width value n) : pack width value n < 2 ^ totalWidth width n := by
  induction n with
  | zero => exact one_pos
  | succ n ih =>
    have low := fit n (lt_succ_self n)
    have high : pack width value n + 1 ≤ 2 ^ totalWidth width n := ih fit.pred
    rw [pack_succ, totalWidth, pow_add]
    calc pack width value n * 2 ^ width n + value n
        < pack width value n * 2 ^ width n + 2 ^ width n := by omega
      _ = (pack width value n + 1) * 2 ^ width n := by ring
      _ ≤ 2 ^ totalWidth width n * 2 ^ width n := mul_le_mul_right _ high

theorem pack_mono (le : ∀ i < n, value i ≤ value' i) :
    pack width value n ≤ pack width value' n := by
  induction n with
  | zero => exact le_refl _
  | succ n ih =>
    rw [pack_succ, pack_succ]
    have high := mul_le_mul_right (2 ^ width n)
      (ih fun i small => le i (lt_succ_of_lt small))
    have low := le n (lt_succ_self n)
    omega

theorem pack_congr (same : ∀ i < n, value i = value' i) :
    pack width value n = pack width value' n :=
  le_antisymm (pack_mono fun i small => (same i small).le)
    (pack_mono fun i small => (same i small).ge)

theorem pack_congr_width {width' : Nat → Nat} (same : ∀ i < n, width i = width' i) :
    pack width value n = pack width' value n := by
  induction n with
  | zero => rfl
  | succ n ih =>
    rw [pack_succ, pack_succ, ih fun i small => same i (lt_succ_of_lt small),
      same n (lt_succ_self n)]

/-! ## Reading the fields back -/

theorem pack_succ_mod (fit : value n < 2 ^ width n) :
    pack width value (n + 1) % 2 ^ width n = value n := by
  rw [pack_succ, mul_add_mod', mod_eq_of_lt fit]

theorem pack_succ_shiftRight (fit : value n < 2 ^ width n) :
    pack width value (n + 1) >>> width n = pack width value n := by
  rw [pack_succ, Nat.shiftRight_eq_div_pow, mul_comm, Nat.mul_add_div (Nat.two_pow_pos _),
    div_eq_of_lt fit, add_zero]

theorem pack_inj (fit : Fit width value n) (fit' : Fit width value' n) :
    pack width value n = pack width value' n ↔ ∀ i < n, value i = value' i := by
  refine ⟨fun same => ?_, pack_congr⟩
  induction n with
  | zero => intro i small; exact absurd small (not_lt_zero i)
  | succ n ih =>
    have low := fit n (lt_succ_self n)
    have low' := fit' n (lt_succ_self n)
    have last : value n = value' n := by rw [← pack_succ_mod low, same, pack_succ_mod low']
    have rest : pack width value n = pack width value' n := by
      rw [← pack_succ_shiftRight low, same, pack_succ_shiftRight low']
    intro i small
    rcases Nat.lt_succ_iff_lt_or_eq.mp small with lt | rfl
    · exact ih fit.pred fit'.pred rest i lt
    · exact last

theorem pack_lt_pack {k : Nat} (small : k < n) (fit : Fit width value n)
    (same : ∀ i < k, value i = value' i) (less : value k < value' k) :
    pack width value n < pack width value' n := by
  induction n with
  | zero => exact absurd small (not_lt_zero k)
  | succ n ih =>
    rw [pack_succ, pack_succ]
    rcases Nat.lt_succ_iff_lt_or_eq.mp small with lt | rfl
    · have high : pack width value n + 1 ≤ pack width value' n := ih lt fit.pred
      have low := fit n (lt_succ_self n)
      have scaled := mul_le_mul_right (2 ^ width n) high
      rw [add_mul] at scaled
      omega
    · rw [pack_congr same]
      omega

end

theorem pack_of_zero {width value : Nat → Nat} {n m : Nat} (le : n ≤ m)
    (none : ∀ i, n ≤ i → i < m → width i = 0 ∧ value i = 0) :
    pack width value m = pack width value n := by
  induction m, le using le_induction with
  | base => rfl
  | succ m le ih =>
    obtain ⟨noWidth, noValue⟩ := none m le (lt_succ_self m)
    rw [pack_succ, noWidth, noValue, ih fun i low high => none i low (lt_succ_of_lt high)]
    simp

end Brighthouse.Library.BitFields
