import Brighthouse.Core.Filter
import Brighthouse.Core.FilterBlockBitwise

/-!
# What the blocks of a filter show

`Shows` relates a slot to the bits it stands for and carries the invariant of the
representation: empty and full slots have no bit block, a mixed slot has one that is
neither empty nor full.  Every update of a slot keeps the relation.
-/

set_option autoImplicit false

namespace Brighthouse.Core.Slot

open Library.BitCount Nat Slot Block

inductive Shows (size : Nat) (bits : Nat → Bool) : Slot → Prop
  | empty (lastOne : Nat) (noBit : ∀ m < size, bits m = false) :
      Shows size bits ⟨.empty, none, lastOne⟩
  | full (lastOne : Nat) (inBlock : lastOne < size)
      (upTo : ∀ m < size, bits m = decide (m ≤ lastOne)) :
      Shows size bits ⟨.full, none, lastOne⟩
  | mixed (lastOne : Nat) (b : Block) (holds : b.Holds size bits) (notEmpty : ones bits size ≠ 0)
      (notFull : ones bits size ≠ size) :
      Shows size bits ⟨.mixed, some b, lastOne⟩

variable {s : Slot} {size n n1 n2 lastOne : Nat} {bits bits2 : Nat → Bool} {b : Block}

variable (shown : s.Shows size bits)
include shown

theorem Shows.congr (same : ∀ m < size, bits m = bits2 m) :
    s.Shows size bits2 := by
  cases shown with
  | empty lastOne noBit => exact .empty lastOne fun m lt => (same m lt).symm.trans (noBit m lt)
  | full lastOne inBlock upTo =>
    exact .full lastOne inBlock fun m lt => (same m lt).symm.trans (upTo m lt)
  | mixed lastOne b holds notEmpty notFull =>
    rw [ones_congr same] at notEmpty notFull
    exact .mixed lastOne b (holds.congr same) notEmpty notFull

theorem Shows.of_full (full : s.status = .full) :
    s.lastOne < size ∧ ∀ m < size, bits m = decide (m ≤ s.lastOne) := by
  cases shown with
  | empty => cases full
  | full lastOne inBlock upTo => exact ⟨inBlock, upTo⟩
  | mixed => cases full

theorem Shows.get_eq (lt : n < size) : s.get n = bits n := by
  cases shown with
  | empty lastOne noBit => exact (noBit n lt).symm
  | full lastOne inBlock upTo => exact (upTo n lt).symm
  | mixed lastOne b holds _ _ => exact holds.get_eq n lt

theorem Shows.noOnes_eq (small : size < 2 ^ 32) :
    s.noOnes = ones bits size := by
  cases shown with
  | empty lastOne noBit => exact (ones_eq_zero_iff.mpr noBit).symm
  | full lastOne inBlock upTo =>
    rw [ones_congr upTo, ones_upTo inBlock]
    rfl
  | mixed lastOne b holds _ _ =>
    have counted := ones_le bits size
    show (b.noSetBits % 2 ^ 32).toNat = _
    rw [holds.noSetBits_eq]
    omega

omit shown

/-! ## Whole blocks -/

theorem setBlock_shows (positive : 0 < size) (allBits : ∀ m < size, bits m = true) :
    (setBlock size).Shows size bits := by
  refine .full (size - 1) (by omega) fun m lt => ?_
  rw [allBits m lt, decide_eq_true (by omega)]

theorem Shows.resetBlock (shown : s.Shows size bits2) (noBit : ∀ m < size, bits m = false) :
    s.resetBlock.Shows size bits := by
  cases shown <;> exact .empty _ noBit

variable {run : Block → Block × Bool}

theorem onBlock_setBlock (positive : 0 < size) (holds : (run b).1.Holds size bits)
    (flag : (run b).2 = decide (ones bits size = size)) (notEmpty : ones bits size ≠ 0) :
    (onBlock ⟨.mixed, some b, lastOne⟩ run
      (setBlock size)).Shows size bits := by
  rw [onBlock]
  dsimp only
  rw [flag]
  by_cases allBits : ones bits size = size
  · rw [if_pos (decide_eq_true allBits)]
    exact setBlock_shows positive (ones_eq_iff.mp allBits)
  · rw [if_neg (by simpa using allBits)]
    exact .mixed lastOne _ holds notEmpty allBits

theorem onBlock_resetBlock (holds : ones bits size ≠ 0 → (run b).1.Holds size bits)
    (flag : (run b).2 = decide (ones bits size = 0)) (notFull : ones bits size ≠ size) :
    (onBlock ⟨.mixed, some b, lastOne⟩ run
      ⟨.empty, none, lastOne⟩).Shows size bits := by
  rw [onBlock]
  dsimp only
  rw [flag]
  by_cases noBit : ones bits size = 0
  · rw [if_pos (decide_eq_true noBit)]
    exact .empty lastOne (ones_eq_zero_iff.mp noBit)
  · rw [if_neg (by simpa using noBit)]
    exact .mixed lastOne _ (holds noBit) noBit notFull

theorem prefixBlock_holds (inBlock : s.lastOne < size) :
    (s.prefixBlock size).Holds size (fun m => decide (m ≤ s.lastOne)) := by
  refine ((init_holds size false).setBetween (zero_le _) inBlock).congr fun m _ => ?_
  by_cases inside : m ≤ s.lastOne
  · rw [fill_inside (zero_le m) (by omega), decide_eq_true inside]
  · rw [fill_outside (by omega), decide_eq_false inside]

/-! ## Setting bits -/

theorem fill_true_ne_zero (le : n1 ≤ n2) (lt : n2 < size) :
    ones (fill bits n1 (n2 + 1) true) size ≠ 0 := by
  intro none
  have bit := ones_eq_zero_iff.mp none n1 (by omega)
  rw [fill_inside (le_refl n1) (by omega)] at bit
  cases bit

theorem fill_false_ne_size (le : n1 ≤ n2) (lt : n2 < size) :
    ones (fill bits n1 (n2 + 1) false) size ≠ size := by
  intro full
  have bit := ones_eq_iff.mp full n1 (by omega)
  rw [fill_inside (le_refl n1) (by omega)] at bit
  cases bit

variable {m : Nat}

theorem fill_upTo_true (upTo : bits m = decide (m ≤ lastOne)) (near : n1 ≤ lastOne + 1) :
    fill bits n1 (n2 + 1) true m = decide (m ≤ max lastOne n2) := by
  by_cases inside : n1 ≤ m ∧ m < n2 + 1
  · rw [fill_inside inside.1 inside.2, decide_eq_true (by omega)]
  · have same : m ≤ lastOne ↔ m ≤ max lastOne n2 := by omega
    rw [fill_outside (by omega), upTo, decide_eq_decide.mpr same]

/-- The slot in which the rows from `n1` to `n2` are set, by its bit block if it has one. -/
def growTo (s : Slot) (size n1 n2 : Nat) : Slot :=
  if s.status = .full ∧ n1 ≤ s.lastOne + 1 then { s with lastOne := max s.lastOne n2 }
  else if s.status = .empty ∨ s.status = .full then
    if n1 = 0 then { s with status := .full, lastOne := n2 }
    else
      { s with
        status := .mixed
        block := some (if s.status = .full then s.prefixBlock size else init size false) }
  else s

include shown

theorem Shows.growTo (le : n1 ≤ n2) (lt : n2 < size)
    (mixed : ∀ {b bits lastOne}, b.Holds size bits → (onBlock ⟨.mixed, some b, lastOne⟩ run
      (setBlock size)).Shows size (fill bits n1 (n2 + 1) true)) :
    ((s.growTo size n1 n2).onBlock run (setBlock size)).Shows size
      (fill bits n1 (n2 + 1) true) := by
  cases shown with
  | empty lastOne noBit =>
    by_cases first : n1 = 0
    · subst first
      refine .full n2 lt fun m small => ?_
      by_cases inside : m ≤ n2
      · rw [fill_inside (zero_le m) (by omega), decide_eq_true inside]
      · rw [fill_outside (by omega), noBit m small, decide_eq_false inside]
    · have prepared : Slot.growTo ⟨.empty, none, lastOne⟩ size n1 n2 =
          ⟨.mixed, some (init size false), lastOne⟩ := by
        simp [Slot.growTo, first]
      rw [prepared]
      exact mixed ((init_holds size false).congr fun m small => (noBit m small).symm)
  | full lastOne inBlock upTo =>
    by_cases near : n1 ≤ lastOne + 1
    · have prepared : Slot.growTo ⟨.full, none, lastOne⟩ size n1 n2 =
          ⟨.full, none, max lastOne n2⟩ := by
        simp [Slot.growTo, near]
      rw [prepared]
      exact .full _ (by omega) fun m small => fill_upTo_true (upTo m small) near
    · have prepared : Slot.growTo ⟨.full, none, lastOne⟩ size n1 n2 =
          ⟨.mixed, some (prefixBlock ⟨.full, none, lastOne⟩ size), lastOne⟩ := by
        simp [Slot.growTo, near, show n1 ≠ 0 by omega]
      rw [prepared]
      exact mixed ((prefixBlock_holds inBlock).congr fun m small => (upTo m small).symm)
  | mixed lastOne b holds _ _ => exact mixed holds

theorem Shows.setBetween (le : n1 ≤ n2) (lt : n2 < size) :
    (s.setBetween size n1 n2).Shows size (fill bits n1 (n2 + 1) true) :=
  shown.growTo le lt fun holds => onBlock_setBlock (by omega) (holds.setBetween le lt)
    (holds.setBetween_flag le lt) (fill_true_ne_zero le lt)

theorem Shows.set (lt : n < size) :
    (s.set size n).Shows size (fill bits n (n + 1) true) := by
  have same : s.set size n = (s.growTo size n n).onBlock (·.set n) (setBlock size) := by
    cases shown with
    | empty => by_cases first : n = 0 <;> simp [Slot.set, Slot.growTo, first]
    | full lastOne =>
      rcases lt_trichotomy n (lastOne + 1) with before | rfl | after
      · simp [Slot.set, Slot.growTo, before.ne, before.le, before.not_gt, show n ≤ lastOne by omega]
      · simp [Slot.set, Slot.growTo]
      · simp [Slot.set, Slot.growTo, after, after.ne', after.not_ge, show n ≠ 0 by omega]
    | mixed => rfl
  rw [same]
  exact shown.growTo le_rfl lt fun holds => onBlock_setBlock (by omega) (holds.set lt)
    (holds.set_flag lt) (fill_true_ne_zero le_rfl lt)

omit shown

/-! ## Resetting bits -/

theorem resetBetween_mixed (holds : b.Holds size bits) (le : n1 ≤ n2) (lt : n2 < size) :
    (onBlock ⟨.mixed, some b, lastOne⟩ (·.resetBetween n1 n2) ⟨.empty, none, lastOne⟩).Shows size
      (fill bits n1 (n2 + 1) false) :=
  onBlock_resetBlock (holds.resetBetween le lt) (holds.resetBetween_flag le lt)
    (fill_false_ne_size le lt)

theorem reset_mixed (holds : b.Holds size bits) (lt : n < size) :
    (onBlock ⟨.mixed, some b, lastOne⟩ (·.reset n) ⟨.empty, none, lastOne⟩).Shows size
      (fill bits n (n + 1) false) :=
  onBlock_resetBlock (fun _ => holds.reset lt) (holds.reset_flag lt)
    (fill_false_ne_size (le_refl n) lt)

theorem fill_upTo_false (upTo : bits m = decide (m ≤ lastOne)) (positive : 0 < n1)
    (toLast : lastOne ≤ n2) :
    fill bits n1 (n2 + 1) false m = decide (m ≤ min (n1 - 1) lastOne) := by
  by_cases inside : n1 ≤ m ∧ m < n2 + 1
  · rw [fill_inside inside.1 inside.2, decide_eq_false (by omega)]
  · have same : m ≤ lastOne ↔ m ≤ min (n1 - 1) lastOne := by omega
    rw [fill_outside (by omega), upTo, decide_eq_decide.mpr same]

theorem fill_all_false (upTo : bits m = decide (m ≤ lastOne)) (toLast : lastOne ≤ n2) :
    fill bits 0 (n2 + 1) false m = false := by
  by_cases inside : m ≤ n2
  · exact fill_inside (zero_le m) (by omega)
  · rw [fill_outside (by omega), upTo, decide_eq_false (by omega)]

theorem fill_empty_false (noBit : bits m = false) : fill bits n1 n2 false m = false := by
  by_cases inside : n1 ≤ m ∧ m < n2
  · exact fill_inside inside.1 inside.2
  · rw [fill_outside (by omega), noBit]

theorem Shows.resetBetween (shown : s.Shows size bits) (le : n1 ≤ n2) (lt : n2 < size) :
    (s.resetBetween size n1 n2).Shows size (fill bits n1 (n2 + 1) false) := by
  cases shown with
  | empty lastOne noBit => exact .empty lastOne fun m small => fill_empty_false (noBit m small)
  | full lastOne inBlock upTo =>
    by_cases toLast : lastOne ≤ n2
    · by_cases first : n1 = 0
      · subst first
        have prepared : resetBetween ⟨.full, none, lastOne⟩ size 0 n2 =
            ⟨.empty, none, lastOne⟩ := by
          simp [resetBetween, toLast, onBlock]
        rw [prepared]
        exact .empty lastOne fun m small => fill_all_false (upTo m small) toLast
      · have prepared : resetBetween ⟨.full, none, lastOne⟩ size n1 n2 =
            ⟨.full, none, min (n1 - 1) lastOne⟩ := by
          simp [resetBetween, toLast, onBlock, pos_of_ne_zero first]
        rw [prepared]
        exact .full _ (by omega) fun m small =>
          fill_upTo_false (upTo m small) (pos_of_ne_zero first) toLast
    · have prepared : resetBetween ⟨.full, none, lastOne⟩ size n1 n2 =
          onBlock ⟨.mixed, some (if lastOne = size - 1 then init size true
            else prefixBlock ⟨.full, none, lastOne⟩ size), lastOne⟩ (·.resetBetween n1 n2)
              ⟨.empty, none, lastOne⟩ := by
        simp [Slot.resetBetween, toLast, Slot.resetBlock]
      rw [prepared]
      refine resetBetween_mixed ?_ le lt
      split
      · refine (init_holds size true).congr fun m small => ?_
        rw [upTo m small, decide_eq_true (by omega)]
      · exact (prefixBlock_holds inBlock).congr fun m small => (upTo m small).symm
  | mixed lastOne b holds _ _ => exact resetBetween_mixed holds le lt

theorem init_reset_flag (lt : n < size) (more : 1 < size) :
    ((init size true).reset n).2 = false := by
  rw [(init_holds size true).reset_flag lt, decide_eq_false_iff_not]
  intro none
  have counted := ones_fill_one (fun _ => true) false lt
  rw [ones_const, Bool.toNat_true] at counted
  omega

/-- A full slot loses a bit before its last one: a block created as full loses that bit
and then the rows after the last one. -/
theorem reset_inside_eq (inBlock : lastOne < size) (before : n < lastOne) :
    reset ⟨.full, none, lastOne⟩ size n =
      ⟨.mixed, some (if lastOne ≠ 65535 ∧ lastOne ≠ size - 1 then
        (((init size true).reset n).1.resetBetween (lastOne + 1) (size - 1)).1
          else ((init size true).reset n).1), lastOne⟩ := by
  have notLast : n ≠ lastOne := by omega
  have flag := init_reset_flag (by omega : n < size) (by omega)
  simp only [reset, onBlock, before, notLast]
  by_cases cut : lastOne ≠ 65535 ∧ lastOne ≠ size - 1
  · simp [cut.1, cut.2, flag]
  · simp only [not_and_or] at cut
    rcases cut with cut | cut <;> simp [cut, flag]

theorem Shows.reset_inside (inBlock : lastOne < size)
    (upTo : ∀ m < size, bits m = decide (m ≤ lastOne)) (small : size ≤ 65536)
    (before : n < lastOne) :
    (reset ⟨.full, none, lastOne⟩ size n).Shows size (fill bits n (n + 1) false) := by
  have lt : n < size := by omega
  have created := (init_holds size true).reset lt
  have notEmpty : ones (fill bits n (n + 1) false) size ≠ 0 := by
    intro none
    have bit := ones_eq_zero_iff.mp none lastOne inBlock
    rw [fill_outside (by omega), upTo lastOne inBlock, decide_eq_true (le_refl _)] at bit
    cases bit
  rw [reset_inside_eq inBlock before]
  refine .mixed lastOne _ ?_ notEmpty (fill_false_ne_size (le_refl n) lt)
  split
  · have result : ∀ m < size, fill (fill (fun _ => true) n (n + 1) false) (lastOne + 1)
        (size - 1 + 1) false m = fill bits n (n + 1) false m := by
      intro m lt
      by_cases after : lastOne < m
      · rw [fill_inside (by omega) (by omega), fill_outside (by omega), upTo m lt,
          decide_eq_false (by omega)]
      · rw [fill_outside (by omega), fill_one, fill_one, upTo m lt, decide_eq_true (by omega)]
    rw [← ones_congr result] at notEmpty
    exact (created.resetBetween (by omega) (by omega) notEmpty).congr result
  · refine created.congr fun m lt => ?_
    rw [fill_one, fill_one, upTo m lt, decide_eq_true (by omega)]

theorem Shows.reset (shown : s.Shows size bits) (small : size ≤ 65536) (lt : n < size) :
    (s.reset size n).Shows size (fill bits n (n + 1) false) := by
  cases shown with
  | empty lastOne noBit => exact .empty lastOne fun m inBlock => fill_empty_false (noBit m inBlock)
  | full lastOne inBlock upTo =>
    rcases lt_trichotomy n lastOne with before | last | after
    · exact reset_inside inBlock upTo small before
    · subst last
      by_cases first : n = 0
      · subst first
        exact .empty 0 fun m inBlock => fill_all_false (upTo m inBlock) (le_refl 0)
      · have next : reset ⟨.full, none, n⟩ size n = ⟨.full, none, min (n - 1) n⟩ := by
          simp [reset, onBlock, first]
        rw [next]
        exact .full _ (by omega) fun m inBlock =>
          fill_upTo_false (upTo m inBlock) (pos_of_ne_zero first) (le_refl n)
    · have next : reset ⟨.full, none, lastOne⟩ size n = ⟨.full, none, lastOne⟩ := by
        have notLast : n ≠ lastOne := by omega
        have notBefore : ¬n < lastOne := by omega
        simp [reset, onBlock, notLast, notBefore]
      rw [next]
      refine .full lastOne inBlock fun m inBlock => ?_
      rw [fill_same ((upTo n lt).trans (decide_eq_false (by omega))), upTo m inBlock]
  | mixed lastOne b holds _ _ => exact reset_mixed holds lt

end Brighthouse.Core.Slot
