import Mathlib

/-!
# Byte strings

Byte strings are lists of bytes under the lexicographic order, which is the order
of `memcmp` followed by a comparison of the lengths.  In memory the lowest byte of a number
comes first, and storing a string changes the places it is stored to and no other ones.
-/

set_option autoImplicit false

namespace Brighthouse.Library

open List

abbrev Byte := Fin 256

abbrev Bytes := List Byte

instance byteSize_neZero : NeZero 256 := ⟨by decide⟩

instance bytes_lawfulBEq : LawfulBEq Bytes := inferInstance

namespace Bytes

variable {s t : Bytes} {a b : Byte} {p : Byte → Bool}

theorem cons_le_cons_iff : a :: s ≤ b :: t ↔ a < b ∨ a = b ∧ s ≤ t := by
  rw [← not_lt, cons_lt_cons_iff]
  rcases lt_trichotomy a b with lt | rfl | gt
  · simp [lt, not_lt.mpr lt.le, lt.ne']
  · simp
  · simp [gt, not_lt.mpr gt.le, gt.ne']

@[simp]
theorem nil_le (s : Bytes) : [] ≤ s := not_lt.mp (not_lt_nil s)

theorem head_le (le : a :: s ≤ b :: t) : a ≤ b := by
  rcases cons_le_cons_iff.mp le with lt | ⟨rfl, _⟩
  · exact lt.le
  · exact le_refl _

theorem eq_nil_of_le_nil (le : s ≤ []) : s = [] := le_antisymm le (nil_le s)

theorem take_le_take (le : s ≤ t) (n : Nat) : s.take n ≤ t.take n := by
  induction n generalizing s t with
  | zero => simp
  | succ n ih =>
    cases s with
    | nil => exact nil_le _
    | cons a s =>
      cases t with
      | nil => cases eq_nil_of_le_nil le
      | cons b t =>
        rw [take_succ_cons, take_succ_cons, cons_le_cons_iff]
        rcases cons_le_cons_iff.mp le with lt | ⟨same, rest⟩
        · exact .inl lt
        · exact .inr ⟨same, ih rest⟩

theorem le_append (s t : Bytes) : s ≤ s ++ t := by
  induction s with
  | nil => exact nil_le t
  | cons a s ih => exact cons_le_cons_iff.mpr (.inr ⟨rfl, ih⟩)

theorem le_of_prefix (initial : s <+: t) : s ≤ t := by
  obtain ⟨rest, rfl⟩ := initial
  exact le_append s rest

variable (common : Bytes)

theorem append_le_append_iff : common ++ s ≤ common ++ t ↔ s ≤ t := by
  induction common with
  | nil => rfl
  | cons a common ih => simp [cons_le_cons_iff, ih]

theorem append_lt_append_iff : common ++ s < common ++ t ↔ s < t := by
  rw [← not_le, append_le_append_iff, not_le]

/-- A string between two strings with a common initial part has it too, even if only
its first `n` bytes are compared with the upper one. -/
theorem prefix_of_between : ∀ {lower upper s : Bytes} {n : Nat},
    common <+: lower → common <+: upper → lower ≤ s → s.take n ≤ upper → common.length ≤ n →
    common <+: s := by
  induction common with
  | nil =>
    intro lower upper s n _ _ _ _ _
    exact nil_prefix
  | cons c common ih =>
    intro lower upper s n inLower inUpper above below fits
    obtain ⟨lowRest, rfl⟩ := inLower
    obtain ⟨upRest, rfl⟩ := inUpper
    cases n with
    | zero => simp at fits
    | succ n =>
      cases s with
      | nil => cases eq_nil_of_le_nil above
      | cons d s =>
        rw [take_succ_cons, cons_append, cons_le_cons_iff] at below
        rw [cons_append, cons_le_cons_iff] at above
        have same : c = d := by
          rcases above with lt | ⟨same, _⟩
          · rcases below with gt | ⟨same, _⟩
            · exact absurd gt (not_lt.mpr lt.le)
            · exact same.symm
          · exact same
        subst same
        simp only [lt_irrefl, true_and, false_or] at above below
        rw [prefix_cons_inj]
        exact ih (prefix_append _ _) (prefix_append _ _) above below
          (by simpa using fits)

theorem take_takeWhile {n : Nat} (le : n ≤ (s.takeWhile p).length) :
    ∀ c ∈ s.take n, p c = true := by
  intro c mem
  have initial : s.take n <+: s.takeWhile p :=
    prefix_of_prefix_length_le ( take_prefix n s) ( takeWhile_prefix p)
      (le_trans (length_take_le n s) le)
  exact mem_takeWhile_imp (initial.subset mem)

theorem drop_takeWhile (lt : (s.takeWhile p).length < s.length) :
    ∃ c rest, s.drop (s.takeWhile p).length = c :: rest ∧ p c = false := by
  induction s with
  | nil => simp at lt
  | cons a s ih =>
    cases holds : p a with
    | false => exact ⟨a, s, by simp [holds], holds⟩
    | true =>
      rw [takeWhile_cons_of_pos holds] at lt ⊢
      exact ih (by simpa using lt)

end Bytes

/-! ## Numbers in memory -/

def littleEndian : Nat → Nat → Bytes
  | 0, _ => []
  | size + 1, n => Fin.ofNat 256 n :: littleEndian size (n / 256)

def ofLittleEndian : Bytes → Nat
  | [] => 0
  | byte :: rest => byte.val + 256 * ofLittleEndian rest

@[simp]
theorem length_littleEndian (size n : Nat) : (littleEndian size n).length = size := by
  induction size generalizing n with
  | zero => rfl
  | succ size ih => rw [littleEndian, length_cons, ih]

theorem ofLittleEndian_littleEndian {size n : Nat} (small : n < 256 ^ size) :
    ofLittleEndian (littleEndian size n) = n := by
  induction size generalizing n with
  | zero =>
    rw [littleEndian, ofLittleEndian]
    omega
  | succ size ih =>
    rw [littleEndian, ofLittleEndian, ih (Nat.div_lt_of_lt_mul (by omega))]
    change n % 256 + 256 * (n / 256) = n
    omega

/-! ## Storing strings -/

abbrev Memory := Nat → Byte

namespace Memory

def store (memory : Memory) (start : Nat) (s : Bytes) : Memory := fun i =>
  if start ≤ i then s[i - start]?.getD (memory i) else memory i

def load (memory : Memory) (start length : Nat) : Bytes :=
  (List.range length).map fun i => memory (start + i)

@[simp]
theorem length_load (memory : Memory) (start length : Nat) :
    (memory.load start length).length = length := by
  simp [load]

theorem load_add (memory : Memory) (start first second : Nat) :
    memory.load start (first + second) =
      memory.load start first ++ memory.load (start + first) second := by
  simp only [load, range_add, map_append, map_map, Function.comp_def, Nat.add_assoc]

variable {memory : Memory}

theorem load_congr {other : Memory} {start length : Nat}
    (same : ∀ i, start ≤ i → i < start + length → memory i = other i) :
    memory.load start length = other.load start length := by
  refine map_congr_left fun i inside => ?_
  have below := mem_range.mp inside
  exact same (start + i) (by omega) (by omega)

theorem store_below {start i : Nat} (s : Bytes) (below : i < start) :
    memory.store start s i = memory i := if_neg (by omega)

theorem load_store_below {start length place : Nat} (s : Bytes) (below : start + length ≤ place) :
    (memory.store place s).load start length = memory.load start length :=
  load_congr fun i _ inside => store_below s (by omega)

theorem load_store (memory : Memory) (start : Nat) (s : Bytes) :
    (memory.store start s).load start s.length = s := by
  refine ext_getElem (length_load _ _ _) fun i inside small => ?_
  simp [load, store, small]

end Memory

end Brighthouse.Library
