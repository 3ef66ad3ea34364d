import Mathlib

/-!
# Sorting a buffer in place

A buffer gives the element at every position.  A part of it is rearranged when a permutation
of the positions of that part tells where each element came from; the parts before and after
it are untouched.
-/

set_option autoImplicit false

namespace Brighthouse.Library.Buffer

open List

variable {α κ : Type} {k n : Nat} {buf : Nat → α}

/-! ## Exchanging elements -/

def swap (buf : Nat → α) (i j : Nat) (k : Nat) : α :=
  if k = i then buf j else if k = j then buf i else buf k

theorem swap_left (i j : Nat) : swap buf i j i = buf j := if_pos rfl

theorem swap_right (i j : Nat) : swap buf i j j = buf i := by
  rw [swap]
  split
  · rename_i same
    rw [same]
  · exact if_pos rfl

theorem swap_other {i j : Nat} (notLeft : k ≠ i) (notRight : k ≠ j) : swap buf i j k = buf k := by
  rw [swap, if_neg notLeft, if_neg notRight]

theorem swap_eq (buf : Nat → α) (i j k : Nat) : swap buf i j k = buf (Equiv.swap i j k) := by
  rw [swap, Equiv.swap_apply_def]
  split
  · rfl
  · split <;> rfl

/-- `buf'` has the elements of `buf`, those from `lo` up to but not including `hi` in another
order. -/
def Rearranged (lo hi : Nat) (buf buf' : Nat → α) : Prop :=
  ∃ moved : Equiv.Perm Nat, (∀ k, k < lo ∨ hi ≤ k → moved k = k) ∧ ∀ k, buf' k = buf (moved k)

section
variable {lo hi lo' hi' : Nat} {buf₁ buf₂ : Nat → α}

theorem Rearranged.refl (lo hi : Nat) (buf : Nat → α) : Rearranged lo hi buf buf :=
  ⟨Equiv.refl Nat, fun _ _ => rfl, fun _ => rfl⟩

theorem Rearranged.trans (first : Rearranged lo hi buf buf₁)
    (second : Rearranged lo hi buf₁ buf₂) : Rearranged lo hi buf buf₂ := by
  obtain ⟨moved, still, from₁⟩ := first
  obtain ⟨moved', still', from₂⟩ := second
  refine ⟨moved'.trans moved, fun k outside => ?_, fun k => ?_⟩
  · rw [Equiv.trans_apply, still' k outside, still k outside]
  · rw [from₂, from₁, Equiv.trans_apply]

theorem Rearranged.widen (arranged : Rearranged lo hi buf buf₁) (low : lo' ≤ lo)
    (high : hi ≤ hi') : Rearranged lo' hi' buf buf₁ := by
  obtain ⟨moved, still, from₁⟩ := arranged
  exact ⟨moved, fun k outside => still k (by omega), from₁⟩

theorem rearranged_swap {i j : Nat} (low : lo ≤ i) (low' : lo ≤ j) (high : i < hi)
    (high' : j < hi) : Rearranged lo hi buf (swap buf i j) :=
  ⟨Equiv.swap i j, fun _ outside => Equiv.swap_apply_of_ne_of_ne (by omega) (by omega),
    swap_eq buf i j⟩

theorem Rearranged.outside (arranged : Rearranged lo hi buf buf₁)
    (outside : k < lo ∨ hi ≤ k) : buf₁ k = buf k := by
  obtain ⟨moved, still, from₁⟩ := arranged
  rw [from₁, still k outside]

theorem Rearranged.inside (arranged : Rearranged lo hi buf buf₁) (low : lo ≤ k)
    (high : k < hi) : ∃ k', lo ≤ k' ∧ k' < hi ∧ buf₁ k = buf k' := by
  obtain ⟨moved, still, from₁⟩ := arranged
  refine ⟨moved k, ?_, ?_, from₁ k⟩
  · by_contra below
    have fixed := moved.injective (still (moved k) (.inl (Nat.not_le.mp below)))
    omega
  · by_contra above
    have fixed := moved.injective (still (moved k) (.inr (Nat.not_lt.mp above)))
    omega

/-! ## The elements of a part -/

def elements (buf : Nat → α) (n : Nat) : List α := (List.range n).map buf

@[simp]
theorem length_elements (buf : Nat → α) (n : Nat) : (elements buf n).length = n := by
  rw [elements, length_map, length_range]

theorem elements_update (buf : Nat → α) (n : Nat) (x : α) :
    elements (Function.update buf n x) (n + 1) = elements buf n ++ [x] := by
  rw [elements, range_succ, map_append, map_singleton, Function.update_self]
  refine congrArg (· ++ [x]) (map_congr_left fun k mem => ?_)
  exact Function.update_of_ne (Nat.ne_of_lt (mem_range.mp mem)) ..

theorem mem_elements {buf : Nat → α} {x : α} : x ∈ elements buf n ↔ ∃ k < n, buf k = x := by
  rw [elements, mem_map]
  simp only [mem_range]

theorem Rearranged.elements_perm (arranged : Rearranged 0 hi buf buf₁) :
    (elements buf₁ hi).Perm (elements buf hi) := by
  obtain ⟨moved, still, from₁⟩ := arranged
  have positions : ((range hi).map moved).Perm (range hi) := by
    refine (perm_ext_iff_of_nodup (List.Nodup.map moved.injective nodup_range)
      nodup_range).mpr fun k => ?_
    rw [mem_map, mem_range]
    constructor
    · rintro ⟨k', inside, rfl⟩
      by_contra above
      have fixed := moved.injective (still (moved k') (.inr (Nat.not_lt.mp above)))
      rw [mem_range] at inside
      omega
    · intro inside
      refine ⟨moved.symm k, ?_, moved.apply_symm_apply k⟩
      rw [mem_range]
      by_contra above
      have fixed := still (moved.symm k) (.inr (Nat.not_lt.mp above))
      rw [moved.apply_symm_apply] at fixed
      omega
  have named : elements buf₁ hi = ((range hi).map moved).map buf := by
    rw [map_map]
    exact map_congr_left fun k _ => from₁ k
  rw [named]
  exact positions.map buf

end

/-! ## Order -/

section
variable [LinearOrder κ] (key : α → κ)

def SortedOn (lo hi : Nat) (buf : Nat → α) : Prop :=
  ∀ a b, lo ≤ a → a ≤ b → b < hi → key (buf a) ≤ key (buf b)

variable {key} {lo hi : Nat} {buf : Nat → α}

theorem sortedOn_of_neighbours
    (neighbours : ∀ a, lo ≤ a → a + 1 < hi → key (buf a) ≤ key (buf (a + 1))) :
    SortedOn key lo hi buf := by
  intro a b low le high
  induction le with
  | refl => exact le_refl _
  | step le ih => exact (ih (by omega)).trans (neighbours _ (Nat.le_trans low le) high)

theorem SortedOn.pairwise (sorted : SortedOn key 0 hi buf) :
    (elements buf hi).Pairwise fun x y => key x ≤ key y := by
  rw [elements, pairwise_map]
  refine pairwise_lt_range.imp_of_mem fun _ mem less => ?_
  exact sorted _ _ (Nat.zero_le _) (Nat.le_of_lt less) (mem_range.mp mem)

end

end Brighthouse.Library.Buffer
