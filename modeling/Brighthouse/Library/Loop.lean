import Mathlib

/-!
# Counting loops

`forLoop` runs a body for a range of indices, `breakLoop` stops as soon as the body
asks for it.  Each has one invariant rule.
-/

set_option autoImplicit false

namespace Brighthouse.Library.Loop

variable {σ : Type}

/-- `for (i = first; i < first + turns; i++) s = body(i, s);` -/
def forLoop (body : Nat → σ → σ) : Nat → Nat → σ → σ
  | _, 0, s => s
  | i, turns + 1, s => forLoop body (i + 1) turns (body i s)

/-- The same loop with a body that may leave it; the flag says whether it did. -/
def breakLoop (body : Nat → σ → σ × Bool) : Nat → Nat → σ → σ × Bool
  | _, 0, s => (s, false)
  | i, turns + 1, s =>
    match body i s with
    | (next, true) => (next, true)
    | (next, false) => breakLoop body (i + 1) turns next

variable {first : Nat} {s : σ}

theorem forLoop_induct {body : Nat → σ → σ} (inv : Nat → σ → Prop) (turns : Nat)
    (start : inv first s)
    (step : ∀ i s, first ≤ i → i < first + turns → inv i s → inv (i + 1) (body i s)) :
    inv (first + turns) (forLoop body first turns s) := by
  induction turns generalizing first s with
  | zero => exact start
  | succ turns ih =>
    have next : inv (first + 1) (body first s) := step first s (Nat.le_refl _) (by omega) start
    have rest := ih next fun i s low high => step i s (by omega) (by omega)
    rw [Nat.add_right_comm] at rest
    exact rest

/-- A loop that adds up differences of `c`. -/
theorem forLoop_sum (g c : Nat → Nat) {stop : Nat} (le : first ≤ stop)
    (step : ∀ i, first ≤ i → i < stop → c i + g i = c (i + 1)) :
    c first + forLoop (fun i sum => sum + g i) first (stop - first) 0 = c stop := by
  obtain ⟨turns, rfl⟩ := Nat.exists_eq_add_of_le le
  rw [Nat.add_sub_cancel_left]
  apply forLoop_induct (fun i sum => c first + sum = c i) turns rfl
  intro i sum low high counted
  rw [← step i low high, ← counted, Nat.add_assoc]

theorem breakLoop_induct {body : Nat → σ → σ × Bool} (inv : Nat → σ → Prop) (left : σ → Prop)
    (turns : Nat) (start : inv first s)
    (step : ∀ i s, first ≤ i → i < first + turns → inv i s →
      (body i s).2 = true ∧ left (body i s).1 ∨ (body i s).2 = false ∧ inv (i + 1) (body i s).1) :
    (breakLoop body first turns s).2 = true ∧ left (breakLoop body first turns s).1 ∨
      (breakLoop body first turns s).2 = false ∧
        inv (first + turns) (breakLoop body first turns s).1 := by
  induction turns generalizing first s with
  | zero => exact .inr ⟨rfl, start⟩
  | succ turns ih =>
    have here := step first s (Nat.le_refl _) (by omega) start
    rw [breakLoop]
    cases result : body first s with
    | mk next stop =>
      rw [result] at here
      cases stop with
      | true =>
        rcases here with ⟨_, done⟩ | ⟨goesOn, _⟩
        · exact .inl ⟨rfl, done⟩
        · cases goesOn
      | false =>
        rcases here with ⟨stops, _⟩ | ⟨_, nextInv⟩
        · cases stops
        · have rest := ih nextInv fun i s low high => step i s (by omega) (by omega)
          rw [Nat.add_right_comm] at rest
          exact rest

end Brighthouse.Library.Loop
