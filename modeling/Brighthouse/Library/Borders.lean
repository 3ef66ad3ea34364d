import Mathlib

/-!
# Borders of a pattern

The prefixes of a pattern that are suffixes of a text, and the fall through a table of shorter
borders that finds the longest one after the next symbol.
-/

set_option autoImplicit false

namespace Brighthouse.Library.Borders

open List

variable {α : Type} [DecidableEq α] [Inhabited α] (pattern : List α)

def charAt (b : Int) : α := pattern.getD b.toNat default

/-- From `b` down the table to a prefix that `c` continues, or to `-1`. -/
def fallBack (next : List Int) (c : α) : Nat → Int → Int
  | 0, b => b
  | turns + 1, b =>
    if -1 < b ∧ charAt pattern b ≠ c then fallBack next c turns (next.getD b.toNat (-1)) else b

/-- `b` is the length of the longest prefix below `limit` that is a suffix of the text. -/
structure Longest (text : List α) (limit : Nat) (b : Int) : Prop where
  lower : -1 ≤ b
  less : b < limit
  border : ∀ k : Nat, b = k → pattern.take k <:+ text
  top : ∀ k < limit, pattern.take k <:+ text → (k : Int) ≤ b

/-- The entry for the prefix of length `i`: a border of it, such that no longer one is continued
by another symbol than the prefix itself. -/
structure Falls (next : List Int) (i : Nat) : Prop where
  lower : -1 ≤ next.getD i (-1)
  less : next.getD i (-1) < i
  border : ∀ k : Nat, next.getD i (-1) = k → pattern.take k <:+ pattern.take i
  skips : ∀ k < i, pattern.take k <:+ pattern.take i → next.getD i (-1) < k →
    charAt pattern k = charAt pattern i

variable {pattern} {text : List α} {next : List Int} {c : α} {limit : Nat} {b : Int}

omit [DecidableEq α] in
theorem take_succ_suffix_iff {k : Nat} (less : k < pattern.length) :
    pattern.take (k + 1) <:+ text ++ [c] ↔ pattern.take k <:+ text ∧ charAt pattern k = c := by
  rw [take_succ_eq_append_getElem less, charAt, Int.toNat_natCast, getD_eq_getElem _ _ less]
  constructor
  · rintro ⟨front, same⟩
    rw [← append_assoc] at same
    obtain ⟨init, last⟩ := append_inj' same rfl
    exact ⟨⟨front, init⟩, singleton_inj.mp last⟩
  · rintro ⟨⟨front, init⟩, rfl⟩
    exact ⟨front, by rw [← init, append_assoc]⟩

omit [DecidableEq α] [Inhabited α] in
theorem take_suffix_take {i k : Nat} (le : k ≤ i) (short : i ≤ pattern.length)
    (border : pattern.take k <:+ text) (longer : pattern.take i <:+ text) :
    pattern.take k <:+ pattern.take i :=
  suffix_of_suffix_length_le border longer (by rw [length_take, length_take]; omega)

omit [DecidableEq α] in
theorem Falls.append {i : Nat} (falls : Falls pattern next i) (inside : i < next.length)
    (more : List Int) : Falls pattern (next ++ more) i := by
  have same := getD_append next more (-1) i inside
  exact ⟨same ▸ falls.lower, same ▸ falls.less, same ▸ falls.border, same ▸ falls.skips⟩

/-- The prefixes that `c` continues stay above: what the fall passes by is not continued
by `c`. -/
theorem fallBack_spec (table : ∀ i : Nat, (i : Int) ≤ b → Falls pattern next i)
    (short : limit ≤ pattern.length) {turns : Nat} (lower : -1 ≤ b) (enough : b < turns)
    (less : b < limit) (border : ∀ k : Nat, b = k → pattern.take k <:+ text)
    (top : ∀ k < limit, pattern.take k <:+ text → charAt pattern k = c → (k : Int) ≤ b) :
    -1 ≤ fallBack pattern next c turns b ∧ fallBack pattern next c turns b < limit ∧
      (∀ k : Nat, fallBack pattern next c turns b = k →
        pattern.take k <:+ text ∧ charAt pattern k = c) ∧
      ∀ k < limit, pattern.take k <:+ text → charAt pattern k = c →
        (k : Int) ≤ fallBack pattern next c turns b := by
  induction turns generalizing b with
  | zero =>
    obtain rfl : b = -1 := by omega
    exact ⟨lower, less, fun k same => by rw [fallBack] at same; omega, top⟩
  | succ turns ih =>
    rw [fallBack]
    split
    · rename_i other
      obtain ⟨i, rfl⟩ := Int.eq_ofNat_of_zero_le (by omega : 0 ≤ b)
      obtain ⟨low, small, shorter, skips⟩ := table i (le_refl _)
      rw [Int.toNat_natCast]
      refine ih (fun j below => table j (by omega)) low (by omega) (by omega)
        (fun k same => (shorter k same).trans (border i rfl)) fun k bound isBorder continued => ?_
      have le := top k bound isBorder continued
      by_contra above
      -- a longer border of the prefix is continued as the prefix is
      rcases (by omega : k = i ∨ k < i) with rfl | shorterThan
      · exact other.2 continued
      · refine other.2 ((skips k shorterThan ?_ (by omega)).symm.trans continued)
        exact take_suffix_take shorterThan.le (by omega) isBorder (border i rfl)
    · rename_i stops
      refine ⟨lower, less, fun k same => ⟨border k same, ?_⟩, top⟩
      by_contra other
      exact stops ⟨by omega, by rwa [same]⟩

theorem Longest.extend (longest : Longest pattern text limit b) (short : limit ≤ pattern.length)
    (table : ∀ i : Nat, (i : Int) ≤ b → Falls pattern next i) {turns : Nat} (enough : b < turns) :
    Longest pattern (text ++ [c]) (limit + 1) (fallBack pattern next c turns b + 1) := by
  obtain ⟨lower, less, border, top⟩ := longest
  obtain ⟨low, small, continued, above⟩ :=
    fallBack_spec (c := c) table short lower enough less border
    fun k bound isBorder _ => top k bound isBorder
  refine ⟨by omega, by omega, fun k same => ?_, fun k bound isBorder => ?_⟩
  · cases k with
    | zero => simp
    | succ k => exact (take_succ_suffix_iff (by omega)).mpr (continued k (by omega))
  · cases k with
    | zero => omega
    | succ k =>
      obtain ⟨before, isNext⟩ := (take_succ_suffix_iff (by omega)).mp isBorder
      have := above k (by omega) before isNext
      omega

/-- The next entry of a table: the longest border, or its own entry if both are continued by
the same symbol. -/
theorem Longest.falls {i : Nat} {n f : Int} (longest : Longest pattern (pattern.take i) i n)
    (short : i ≤ pattern.length) (nonneg : 0 ≤ n) (before : Falls pattern next n.toNat)
    (entry : f = if charAt pattern i = charAt pattern n then next.getD n.toNat (-1) else n)
    {table : List Int} (isEntry : table.getD i (-1) = f) : Falls pattern table i := by
  obtain ⟨lower, less, border, top⟩ := longest
  obtain ⟨m, rfl⟩ := Int.eq_ofNat_of_zero_le nonneg
  obtain ⟨low, small, shorter, skips⟩ := before
  rw [Int.toNat_natCast] at low small shorter skips entry
  rcases ite_eq_iff.mp entry.symm with ⟨same, rfl⟩ | ⟨_, rfl⟩
  · refine ⟨by omega, by omega, fun k isK => ?_, fun k bound isBorder above => ?_⟩
    · exact (shorter k (by omega)).trans (border m rfl)
    · have le := top k bound isBorder
      rcases (by omega : k = m ∨ k < m) with rfl | shorterThan
      · exact same.symm
      · rw [same]
        exact skips k shorterThan
          (take_suffix_take shorterThan.le (by omega) isBorder (border m rfl)) (by omega)
  · refine ⟨by omega, by omega, fun k isK => border k (by omega), fun k bound isBorder above => ?_⟩
    have := top k bound isBorder
    omega

end Brighthouse.Library.Borders
