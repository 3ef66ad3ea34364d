import Mathlib

/-!
# Bits in a table of 32-bit words

Bit `i` of a table is bit `i % 32` of word `i / 32`.  The operations are the
usual mask expressions; the lemmas say that they act on one bit and leave all
others alone.
-/

set_option autoImplicit false

namespace Brighthouse.Library.WordTable

open Function Nat BitVec

abbrev Table := Nat → BitVec 32

def testBit (table : Table) (i : Nat) : Bool := (table (i / 32) >>> (i % 32)) &&& 1#32 != 0#32

def setBit (table : Table) (i : Nat) : Table :=
  Function.update table (i / 32) (table (i / 32) ||| 1#32 <<< (i % 32))

def clearIn (table : Table) (word i : Nat) : Table :=
  Function.update table word (table word &&& ~~~(1#32 <<< i))

def clearBit (table : Table) (i : Nat) : Table := clearIn table (i / 32) (i % 32)

def cleared : Table := fun _ => 0#32

variable (word : BitVec 32)

theorem and_one_ne_zero : (word &&& 1#32 != 0#32) = word.getLsbD 0 := by
  have one : word &&& 1#32 = setWidth 32 (ofBool (word.getLsbD 0)) := by
    ext i inRange
    by_cases first : i = 0
    · subst first
      simp
    · simp [first]
  rw [one]
  cases word.getLsbD 0 <;> rfl

theorem mod_two_eq_one : (word % 2#32 == 1#32) = word.getLsbD 0 := by
  rw [Bool.eq_iff_iff, beq_iff_eq, ← toNat_inj, getLsbD,
    testBit_zero, decide_eq_true_eq]
  rfl

variable (table : Table)

theorem testBit_eq (i : Nat) :
    testBit table i = (table (i / 32)).getLsbD (i % 32) := by
  rw [testBit, and_one_ne_zero, getLsbD_ushiftRight, add_zero]

@[simp]
theorem testBit_cleared (i : Nat) : testBit cleared i = false := by
  simp [testBit_eq, cleared]

theorem testBit_setBit (i j : Nat) :
    testBit (setBit table i) j = (decide (j = i) || testBit table j) := by
  rw [testBit_eq, testBit_eq, setBit]
  by_cases sameWord : j / 32 = i / 32
  · rw [sameWord, update_self, getLsbD_or]
    by_cases sameBit : j % 32 = i % 32
    · have same : j = i := by omega
      simp [same, mod_lt i (by decide : 32 > 0)]
    · have other : j ≠ i := by
        intro eq
        exact sameBit (by rw [eq])
      simp only [other]
      have : ¬(j % 32 < i % 32) → j % 32 - i % 32 ≠ 0 := by omega
      by_cases below : j % 32 < i % 32
      · simp [below]
      · simp [this below]
  · have other : j ≠ i := by
      intro eq
      exact sameWord (by rw [eq])
    rw [update_of_ne sameWord]
    simp [other]

theorem and_mask_ne_zero {i : Nat} (inRange : i < 32) :
    (word &&& 1#32 <<< i != 0#32) = word.getLsbD i := by
  have masked := and_twoPow word i
  rw [twoPow_eq] at masked
  have maskSet : 1#32 <<< i ≠ 0#32 := by
    intro zero
    have bit := congrArg (fun mask => getLsbD mask i) zero
    simp [inRange] at bit
  rw [masked]
  cases word.getLsbD i <;> simp [maskSet]

theorem testBit_update (index : Nat) (word : BitVec 32) (j : Nat) :
    testBit (update table index word) j =
      if j / 32 = index then word.getLsbD (j % 32) else testBit table j := by
  rw [testBit_eq, testBit_eq]
  by_cases same : j / 32 = index
  · rw [if_pos same, same, update_self]
  · rw [if_neg same, update_of_ne same]

theorem testBit_clearIn (index : Nat) {i : Nat} (inRange : i < 32) (j : Nat) :
    testBit (clearIn table index i) j = (!decide (j = index * 32 + i) && testBit table j) := by
  have bitLt := mod_lt j (by decide : 32 > 0)
  rw [clearIn, testBit_update]
  split
  · rename_i sameWord
    have position : j = index * 32 + i ↔ j % 32 = i := by omega
    rw [testBit_eq, sameWord, getLsbD_and, getLsbD_not, ← twoPow_eq,
      Bool.and_comm]
    simp [bitLt, position, eq_comm]
  · rw [decide_eq_false (by omega), Bool.not_false, Bool.true_and]

theorem testBit_clearBit (i j : Nat) :
    testBit (clearBit table i) j = (!decide (j = i) && testBit table j) := by
  have position : i / 32 * 32 + i % 32 = i := by omega
  rw [clearBit, testBit_clearIn table (i / 32) (mod_lt i (by decide)) j, position]

/-- The loop `for (i = lo; i <= hi; i++) if (p(i)) return true; return false;`. -/
def anyFrom (p : Int → Bool) : Nat → Int → Bool
  | 0, _ => false
  | steps + 1, i => p i || anyFrom p steps (i + 1)

def anyBetween (p : Int → Bool) (lo hi : Int) : Bool := anyFrom p (hi + 1 - lo).toNat lo

theorem anyFrom_iff (p : Int → Bool) (steps : Nat) : ∀ i : Int,
    anyFrom p steps i = true ↔ ∃ k, i ≤ k ∧ k < i + steps ∧ p k = true := by
  induction steps with
  | zero =>
    intro i
    simp only [anyFrom, Bool.false_eq_true, false_iff]
    rintro ⟨k, low, high, _⟩
    omega
  | succ steps ih =>
    intro i
    rw [anyFrom, Bool.or_eq_true, ih (i + 1)]
    constructor
    · rintro (here | ⟨k, low, high, holds⟩)
      · exact ⟨i, le_refl i, by omega, here⟩
      · exact ⟨k, by omega, by omega, holds⟩
    · rintro ⟨k, low, high, holds⟩
      by_cases first : k = i
      · exact .inl (first ▸ holds)
      · exact .inr ⟨k, by omega, by omega, holds⟩

theorem anyBetween_iff (p : Int → Bool) (lo hi : Int) :
    anyBetween p lo hi = true ↔ ∃ k, lo ≤ k ∧ k ≤ hi ∧ p k = true := by
  rw [anyBetween, anyFrom_iff]
  constructor
  · rintro ⟨k, low, high, holds⟩
    exact ⟨k, low, by omega, holds⟩
  · rintro ⟨k, low, high, holds⟩
    exact ⟨k, low, by omega, holds⟩

end Brighthouse.Library.WordTable
