import Mathlib

/-!
# Neighbouring doubles

`DoublePlusEpsilon` and `DoubleMinusEpsilon` of `core/bintools.cpp` on the bits of a double,
read as a number below `2 ^ 64`.  At the ends of the mantissa they step over patterns: the carry
out of a mantissa of ones sets the highest bit of the next one, and a mantissa of 1 goes to the 1
of the exponent below.
-/

set_option autoImplicit false

namespace Brighthouse.Core.DoubleEpsilon

def exponentMask : Nat := 0x7FF0000000000000

def mantissaMask : Nat := 0x000FFFFFFFFFFFFF

def negate (v : Nat) : Nat := if v < 2 ^ 63 then v + 2 ^ 63 else v - 2 ^ 63

def plusEpsilon (v : Nat) : Nat :=
  if v &&& mantissaMask = mantissaMask then (v + 1) ||| 0x0008000000000000 else v + 1

def minusEpsilon (v : Nat) : Nat :=
  if v = 0 then 0x8000000000000001
  else if v = 1 then 0
  else if v &&& mantissaMask = 1 then ((v >>> 52 - 1) <<< 52) ||| 1
  else v - 1

/-- The recursive call is made with a number that is not negative. -/
def doublePlusEpsilon (v : Nat) : Nat :=
  if v &&& exponentMask = exponentMask then v
  else if v < 2 ^ 63 then plusEpsilon v else negate (minusEpsilon (negate v))

def doubleMinusEpsilon (v : Nat) : Nat :=
  if v &&& exponentMask = exponentMask then v
  else if v < 2 ^ 63 then minusEpsilon v else negate (plusEpsilon (negate v))

/-! ## Numeric order -/

/-- An absolute value in units of the smallest positive double; infinity comes last. -/
def magnitude (n : Nat) : Nat :=
  if n / 2 ^ 52 = 0 then n else (2 ^ 52 + n % 2 ^ 52) * 2 ^ (n / 2 ^ 52 - 1)

def units (v : Nat) : Int := if v < 2 ^ 63 then magnitude v else -magnitude (v - 2 ^ 63)

def IsNumber (v : Nat) : Prop := v < 2 ^ 64 ∧ v % 2 ^ 63 ≤ exponentMask

/-- `w` is the pattern that comes right after `v`. -/
structure Next (v w : Nat) : Prop where
  numbers : IsNumber v ∧ IsNumber w
  less : units v < units w
  nothing : ∀ u, IsNumber u → units v < units u → units w ≤ units u

@[mk_iff]
structure Neighbours (v : Nat) : Prop where
  plus : Next v (doublePlusEpsilon v)
  minus : Next (doubleMinusEpsilon v) v
  minus_plus : doubleMinusEpsilon (doublePlusEpsilon v) = v
  plus_minus : doublePlusEpsilon (doubleMinusEpsilon v) = v

/-- A finite normal double that is not the smallest or the largest one of its sign. -/
def IsInner (v : Nat) : Prop := v < 2 ^ 64 ∧ 2 ^ 52 < v % 2 ^ 63 ∧ v % 2 ^ 63 < exponentMask - 1

instance (v : Nat) : Decidable (IsInner v) := inferInstanceAs (Decidable (_ ∧ _))

variable {v w : Nat}

theorem magnitude_lt_succ (n : Nat) : magnitude n < magnitude (n + 1) := by
  have parts : ∀ e m, m < 2 ^ 52 → magnitude (2 ^ 52 * e + m) =
      if e = 0 then m else (2 ^ 52 + m) * 2 ^ (e - 1) := by
    intro e m small
    rw [magnitude, show (2 ^ 52 * e + m) / 2 ^ 52 = e by omega,
      show (2 ^ 52 * e + m) % 2 ^ 52 = m by omega]
    split
    · omega
    · rfl
  obtain ⟨e, m, small, rfl⟩ : ∃ e m, m < 2 ^ 52 ∧ n = 2 ^ 52 * e + m :=
    ⟨n / 2 ^ 52, n % 2 ^ 52, Nat.mod_lt _ (by decide), (Nat.div_add_mod _ _).symm⟩
  rw [parts e m small, Nat.add_assoc]
  by_cases last : m + 1 = 2 ^ 52
  · rw [last, show 2 ^ 52 * e + 2 ^ 52 = 2 ^ 52 * (e + 1) + 0 by omega, parts _ 0 (by decide),
      Nat.add_sub_cancel]
    cases e with
    | zero => simpa using small
    | succ e =>
      have double : 2 ^ (e + 1) = 2 * 2 ^ e := Nat.pow_succ'
      rw [double, ← Nat.mul_assoc]
      exact Nat.mul_lt_mul_of_pos_right (by omega) (Nat.two_pow_pos e)
  · rw [parts e (m + 1) (by omega)]
    split
    · omega
    · exact Nat.mul_lt_mul_of_pos_right (by omega) (Nat.two_pow_pos _)

theorem magnitude_strictMono : StrictMono magnitude := strictMono_nat_of_lt_succ magnitude_lt_succ

def key (v : Nat) : Int := if v < 2 ^ 63 then v else 2 ^ 63 - v

theorem units_lt_iff : units v < units w ↔ key v < key w := by
  have zero : magnitude 0 = 0 := rfl
  have positive := fun n => magnitude_strictMono.lt_iff_lt (a := 0) (b := n)
  have first := positive (v - 2 ^ 63)
  have second := positive w
  have upper := magnitude_strictMono.lt_iff_lt (a := v) (b := w)
  have lower := magnitude_strictMono.lt_iff_lt (a := w - 2 ^ 63) (b := v - 2 ^ 63)
  rw [units, units, key, key]
  split <;> split <;> omega

theorem next_iff (first : IsNumber v) (second : IsNumber w) : Next v w ↔ key w = key v + 1 := by
  have le_iff : ∀ {a b}, units a ≤ units b ↔ key a ≤ key b := by
    intro a b
    rw [← not_lt, units_lt_iff, not_lt]
  constructor
  · rintro ⟨-, less, nothing⟩
    rw [units_lt_iff] at less
    obtain ⟨u, number, isNext⟩ : ∃ u, IsNumber u ∧ key u = key v + 1 := by
      refine ⟨if v < 2 ^ 63 then v + 1 else if v = 2 ^ 63 then 1 else v - 1, ?_, ?_⟩
      · unfold IsNumber key exponentMask at *
        grind
      · unfold key IsNumber at *
        grind
    have least := nothing u number (units_lt_iff.mpr (by omega))
    rw [le_iff] at least
    omega
  · intro isNext
    refine ⟨⟨first, second⟩, units_lt_iff.mpr (by omega), fun u _ above => ?_⟩
    rw [units_lt_iff] at above
    rw [le_iff]
    omega

/-! ## The steps -/

/-- Away from zero, as `DoublePlusEpsilon` goes from a positive number. -/
def outward (v : Nat) : Nat := if v % 2 ^ 52 = mantissaMask then v + 1 + 2 ^ 51 else v + 1

def inward (v : Nat) : Nat := if v % 2 ^ 52 = 1 then v - 2 ^ 52 else v - 1

theorem and_mantissaMask (n : Nat) : n &&& mantissaMask = n % 2 ^ 52 :=
  Nat.and_two_pow_sub_one_eq_mod n 52

theorem plusEpsilon_eq (v : Nat) : plusEpsilon v = outward v := by
  rw [plusEpsilon, outward, and_mantissaMask]
  split
  · rename_i full
    have carried := Nat.two_pow_add_eq_or_of_lt (show 2 ^ 51 < 2 ^ 52 by decide) ((v + 1) / 2 ^ 52)
    rw [mantissaMask] at full
    rw [show 2 ^ 52 * ((v + 1) / 2 ^ 52) = v + 1 by omega] at carried
    exact carried.symm
  · rfl

theorem minusEpsilon_eq (normal : 2 ^ 52 ≤ v) : minusEpsilon v = inward v := by
  rw [minusEpsilon, inward, if_neg (by omega), if_neg (by omega), and_mantissaMask,
    Nat.shiftLeft_eq, Nat.mul_comm]
  split
  · rw [← Nat.two_pow_add_eq_or_of_lt (by decide)]
    omega
  · rfl

theorem not_special (finite : v % 2 ^ 63 < exponentMask) : ¬v &&& exponentMask = exponentMask := by
  intro special
  have masked : v % 2 ^ 63 &&& exponentMask = v &&& exponentMask := by
    rw [← Nat.and_two_pow_sub_one_eq_mod, Nat.and_assoc]
    rfl
  have le : v % 2 ^ 63 &&& exponentMask ≤ v % 2 ^ 63 := Nat.and_le_left
  omega

section
variable (finite : v % 2 ^ 63 < exponentMask) (pattern : v < 2 ^ 64)
include finite pattern

theorem doublePlusEpsilon_eq (normal : 2 ^ 63 ≤ v → 2 ^ 52 ≤ v % 2 ^ 63) :
    doublePlusEpsilon v = if v < 2 ^ 63 then outward v else inward v := by
  rw [doublePlusEpsilon, if_neg (not_special finite), plusEpsilon_eq]
  split
  · rfl
  · rw [show negate v = v - 2 ^ 63 from if_neg (by assumption), minusEpsilon_eq (by omega)]
    unfold negate inward exponentMask at *
    split <;> split <;> split <;> omega

theorem doubleMinusEpsilon_eq (normal : v < 2 ^ 63 → 2 ^ 52 ≤ v) :
    doubleMinusEpsilon v = if v < 2 ^ 63 then inward v else outward v := by
  rw [doubleMinusEpsilon, if_neg (not_special finite)]
  split
  · rw [minusEpsilon_eq (by omega)]
  · rw [show negate v = v - 2 ^ 63 from if_neg (by assumption), plusEpsilon_eq]
    unfold negate outward exponentMask mantissaMask at *
    split <;> split <;> split <;> omega

end

/-- Both functions give the neighbours and undo each other exactly for the patterns whose
mantissa is not 0, 1 or all ones. -/
theorem neighbours_iff_mantissa (inner : IsInner v) :
    Neighbours v ↔ v % 2 ^ 52 ≠ 0 ∧ v % 2 ^ 52 ≠ 1 ∧ v % 2 ^ 52 ≠ mantissaMask := by
  obtain ⟨pattern, normal, finite⟩ := inner
  have out : outward v < 2 ^ 64 ∧ outward v % 2 ^ 63 < exponentMask ∧ v < outward v ∧
      outward v / 2 ^ 63 = v / 2 ^ 63 := by
    unfold outward exponentMask mantissaMask at *
    split <;> omega
  have into : inward v < v ∧ inward v / 2 ^ 63 = v / 2 ^ 63 := by
    unfold inward
    split <;> omega
  have number : ∀ {u}, u < 2 ^ 64 → u % 2 ^ 63 < exponentMask → IsNumber u :=
    fun small less => ⟨small, less.le⟩
  have self := number pattern (by omega)
  have outNumber := number out.1 out.2.1
  have intoNumber : IsNumber (inward v) := number (by omega) (by omega)
  rw [neighbours_iff, doublePlusEpsilon_eq (by omega) pattern (by omega),
    doubleMinusEpsilon_eq (by omega) pattern (by omega)]
  by_cases positive : v < 2 ^ 63
  · rw [if_pos positive, if_pos positive, next_iff self outNumber, next_iff intoNumber self,
      doubleMinusEpsilon_eq (by omega) (by omega) (by omega),
      doublePlusEpsilon_eq (by omega) (by omega) (by omega)]
    unfold key outward inward mantissaMask at *
    grind
  · rw [if_neg positive, if_neg positive, next_iff self intoNumber, next_iff outNumber self,
      doubleMinusEpsilon_eq (by omega) (by omega) (by omega),
      doublePlusEpsilon_eq (by omega) (by omega) (by omega)]
    unfold key outward inward mantissaMask at *
    grind

/-- Two units in the last place above 1. -/
theorem neighbours_above_one : IsInner 0x3FF0000000000002 ∧ Neighbours 0x3FF0000000000002 := by
  have inner : IsInner 0x3FF0000000000002 := by decide
  exact ⟨inner, (neighbours_iff_mantissa inner).mpr (by decide)⟩

/-- The double before 1 goes to 1.5. -/
theorem doublePlusEpsilon_skips_one : IsInner 0x3FEFFFFFFFFFFFFF ∧
    doublePlusEpsilon 0x3FEFFFFFFFFFFFFF = 0x3FF8000000000000 ∧
      ¬Next 0x3FEFFFFFFFFFFFFF 0x3FF8000000000000 := by
  refine ⟨by decide, by decide, fun next => ?_⟩
  have before := next.nothing 0x3FF0000000000000 ⟨by decide, by decide⟩ (by decide +kernel)
  exact absurd before (by decide +kernel)

end Brighthouse.Core.DoubleEpsilon
