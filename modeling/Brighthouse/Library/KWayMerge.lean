import Mathlib

/-!
# Merging sorted runs

Numbered runs are merged by taking the head of a run again and again, each time one that is
not greater than the heads of the other runs.
-/

set_option autoImplicit false

namespace Brighthouse.Library.KWayMerge

open List Function

variable {α κ : Type} [LinearOrder κ] (key : α → κ) (n : Nat)

def remaining (runs : Nat → List α) : List α := (List.range n).flatMap runs

/-- The heads in the order in which they can be taken until all runs are empty. -/
inductive Merged : (Nat → List α) → List α → Prop where
  | done {runs} (empty : ∀ b < n, runs b = []) : Merged runs []
  | take {runs b x rest out} (inside : b < n)
      (head : runs b = x :: rest)
      (least : ∀ b' < n, ∀ y rest', runs b' = y :: rest' → key x ≤ key y)
      (later : Merged (Function.update runs b rest) out) : Merged runs (x :: out)

variable {key n} {runs : Nat → List α} {out : List α}

theorem mem_remaining {x : α} : x ∈ remaining n runs ↔ ∃ b < n, x ∈ runs b := by
  rw [remaining, mem_flatMap]
  simp only [mem_range]

theorem remaining_nil (empty : ∀ b < n, runs b = []) : remaining n runs = [] :=
  flatMap_eq_nil_iff.mpr fun b mem => empty b (mem_range.mp mem)

theorem remaining_flatten (list : List (List α))
    (same : ∀ i run, list[i]? = some run → runs i = run) :
    remaining list.length runs = list.flatten := by
  refine congrArg flatten (ext_getElem? fun i => ?_)
  rw [getElem?_map]
  by_cases inside : i < list.length
  · rw [getElem?_range inside, getElem?_eq_getElem inside]
    exact congrArg some (same i _ (getElem?_eq_getElem inside))
  · rw [getElem?_eq_none (by rw [length_range]; omega),
      getElem?_eq_none (not_lt.mp inside)]
    rfl

section
variable {runs' : Nat → List α} (shorter : ∀ b < n, (runs b).length ≤ (runs' b).length)
include shorter

theorem length_remaining_lt {b : Nat} (inside : b < n) (less : (runs b).length < (runs' b).length) :
    (remaining n runs).length < (remaining n runs').length := by
  rw [remaining, remaining, length_flatMap, length_flatMap]
  exact sum_lt_sum _ _ (fun b mem => shorter b (mem_range.mp mem))
    ⟨b, mem_range.mpr inside, less⟩

end

theorem remaining_take {b : Nat} {x : α} {rest : List α} (inside : b < n)
    (head : runs b = x :: rest) :
    (remaining n runs).Perm (x :: remaining n (update runs b rest)) := by
  induction n with
  | zero => exact absurd inside (Nat.not_lt_zero b)
  | succ n ih =>
    have split : ∀ runs' : Nat → List α,
        remaining (n + 1) runs' = remaining n runs' ++ runs' n := by
      intro runs'
      rw [remaining, range_succ, flatMap_append, flatMap_singleton]
      rfl
    rw [split, split]
    by_cases last : b = n
    · have before : remaining n (update runs b rest) = remaining n runs := by
        refine flatMap_congr fun b' mem => ?_
        exact update_of_ne (by have := mem_range.mp mem; omega) ..
      rw [before, ← last, update_self, head]
      exact perm_middle
    · rw [update_of_ne (symm last)]
      exact (ih (by omega)).append_right _

theorem Merged.perm (merged : Merged key n runs out) : out.Perm (remaining n runs) := by
  induction merged with
  | done empty => rw [remaining_nil empty]
  | take inside head _ _ ih => exact (ih.cons _).trans (remaining_take inside head).symm

theorem Merged.sorted (merged : Merged key n runs out)
    (sorted : ∀ b < n, (runs b).Pairwise (key · ≤ key ·)) : out.Pairwise (key · ≤ key ·) := by
  induction merged with
  | done empty => exact List.Pairwise.nil
  | @take runs b x rest out inside head least later ih =>
    have isSorted := sorted b inside
    rw [head] at isSorted
    obtain ⟨first, others⟩ := pairwise_cons.mp isSorted
    refine pairwise_cons.mpr ⟨fun y mem => ?_, ih fun b' inside' => ?_⟩
    · obtain ⟨b', inside', isIn⟩ := mem_remaining.mp (later.perm.mem_iff.mp mem)
      by_cases same : b' = b
      · rw [same, update_self] at isIn
        exact first y isIn
      · rw [update_of_ne same] at isIn
        cases run : runs b' with
        | nil =>
          rw [run] at isIn
          cases isIn
        | cons z rest' =>
          have le := least b' inside' z rest' run
          rw [run] at isIn
          rcases mem_cons.mp isIn with rfl | further
          · exact le
          · have order := sorted b' inside'
            rw [run] at order
            exact le.trans ((pairwise_cons.mp order).1 y further)
    · by_cases same : b' = b
      · rw [same, update_self]
        exact others
      · rw [update_of_ne same]
        exact sorted b' inside'

end Brighthouse.Library.KWayMerge
