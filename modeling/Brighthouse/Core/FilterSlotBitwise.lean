import Brighthouse.Core.FilterSlotSpec

/-!
# Bitwise operations on the blocks of a filter

Every operation on two slots is a case split over the representations of both.  All
of them show the bits they should, except that `resetBy` needs a bit of a full slot to
survive when the other slot is mixed.
-/

set_option autoImplicit false

namespace Brighthouse.Core.Slot

open Library.BitCount Bool Nat

variable {s s2 : Slot} {size lastOne lastOne2 : Nat} {bits bits2 : Nat → Bool} {b b2 : Block}

/-! ## Ranges as masks -/

theorem fill_after_false {m : Nat} (lt : m < size) :
    fill bits (lastOne + 1) (size - 1 + 1) false m = (bits m && decide (m ≤ lastOne)) := by
  by_cases after : lastOne < m
  · rw [fill_inside (by omega) (by omega), decide_eq_false (by omega), Bool.and_false]
  · rw [fill_outside (by omega), decide_eq_true (by omega), Bool.and_true]

theorem fill_before_false (bits : Nat → Bool) (lastOne m : Nat) :
    fill bits 0 (lastOne + 1) false m = (bits m && !decide (m ≤ lastOne)) := by
  by_cases after : lastOne < m
  · rw [fill_outside (by omega), decide_eq_false (by omega), Bool.not_false, Bool.and_true]
  · rw [fill_inside (by omega) (by omega), decide_eq_true (by omega), Bool.not_true, Bool.and_false]

theorem fill_before_true (bits : Nat → Bool) (lastOne m : Nat) :
    fill bits 0 (lastOne + 1) true m = (bits m || decide (m ≤ lastOne)) := by
  by_cases after : lastOne < m
  · rw [fill_outside (by omega), decide_eq_false (by omega), Bool.or_false]
  · rw [fill_inside (by omega) (by omega), decide_eq_true (by omega), Bool.or_true]

variable (shown : s.Shows size bits)
include shown

theorem Shows.cut (inBlock : lastOne < size) :
    (if lastOne < size - 1 then s.resetBetween size (lastOne + 1) (size - 1) else s).Shows size
      (fun m => bits m && decide (m ≤ lastOne)) := by
  split
  · exact (shown.resetBetween (by omega) (by omega)).congr fun m lt => fill_after_false lt
  · refine shown.congr fun m lt => ?_
    rw [decide_eq_true (by omega), Bool.and_true]

/-! ## Conjunction -/

theorem Shows.and_mixed (holds2 : b2.Holds size bits2) (notEmpty2 : ones bits2 size ≠ 0)
    (notFull2 : ones bits2 size ≠ size) :
    (s.and size ⟨.mixed, some b2, lastOne2⟩).Shows size (fun m => bits m && bits2 m) := by
  cases shown with
  | empty lastOne noBit =>
    refine .empty lastOne fun m lt => ?_
    rw [noBit m lt, Bool.false_and]
  | full lastOne inBlock upTo =>
    have copied : Shows size bits2 ⟨.mixed, some b2.copyFrom, lastOne⟩ :=
      .mixed lastOne _ holds2.copyFrom notEmpty2 notFull2
    refine (copied.cut inBlock).congr fun m lt => ?_
    rw [upTo m lt, Bool.and_comm]
  | mixed lastOne b holds _ notFull =>
    refine onBlock_resetBlock (fun _ => holds.and holds2) (holds.and holds2).empty_flag ?_
    intro all
    refine notFull (ones_eq_iff.mpr fun m lt => ?_)
    exact (and_eq_true_iff.mp (ones_eq_iff.mp all m lt)).1

theorem Shows.and (shown2 : s2.Shows size bits2) :
    (s.and size s2).Shows size (fun m => bits m && bits2 m) := by
  cases shown2 with
  | empty lastOne noBit =>
    refine shown.resetBlock fun m lt => ?_
    rw [noBit m lt, Bool.and_false]
  | full lastOne inBlock upTo =>
    refine (shown.cut inBlock).congr fun m lt => ?_
    rw [upTo m lt]
  | mixed lastOne b2 holds2 notEmpty2 notFull2 => exact shown.and_mixed holds2 notEmpty2 notFull2

/-! ## Disjunction -/

theorem Shows.or_mixed (holds2 : b2.Holds size bits2) (notEmpty2 : ones bits2 size ≠ 0)
    (notFull2 : ones bits2 size ≠ size) :
    (s.or size ⟨.mixed, some b2, lastOne2⟩).Shows size (fun m => bits m || bits2 m) := by
  have copied : ∀ lastOne, Shows size bits2 ⟨.mixed, some b2.copyFrom, lastOne⟩ := fun lastOne =>
    .mixed lastOne _ holds2.copyFrom notEmpty2 notFull2
  cases shown with
  | empty lastOne noBit =>
    refine (copied lastOne).congr fun m lt => ?_
    rw [noBit m lt, Bool.false_or]
  | full lastOne inBlock upTo =>
    by_cases more : lastOne < size - 1
    · have result : or ⟨.full, none, lastOne⟩ size ⟨.mixed, some b2, lastOne2⟩ =
          Slot.setBetween ⟨.mixed, some b2.copyFrom, lastOne⟩ size 0 lastOne := if_pos more
      rw [result]
      refine ((copied lastOne).setBetween (zero_le _) inBlock).congr fun m lt => ?_
      rw [fill_before_true, upTo m lt, Bool.or_comm]
    · have result : or ⟨.full, none, lastOne⟩ size ⟨.mixed, some b2, lastOne2⟩ =
          ⟨.full, none, lastOne⟩ := if_neg more
      rw [result]
      refine .full lastOne inBlock fun m lt => ?_
      rw [upTo m lt, decide_eq_true (by omega), Bool.true_or]
  | mixed lastOne b holds notEmpty notFull =>
    have joined : ones (fun m => bits m || bits2 m) size ≠ 0 := by
      intro none
      refine notEmpty (ones_eq_zero_iff.mpr fun m lt => ?_)
      exact (or_eq_false_iff.mp (ones_eq_zero_iff.mp none m lt)).1
    have counted := ones_le bits size
    exact onBlock_setBlock (by omega) (holds.or holds2) ((holds.or holds2).full_flag joined) joined

theorem Shows.or (shown2 : s2.Shows size bits2) :
    (s.or size s2).Shows size (fun m => bits m || bits2 m) := by
  cases shown2 with
  | empty lastOne noBit =>
    refine shown.congr fun m lt => ?_
    rw [noBit m lt, Bool.or_false]
  | full lastOne inBlock upTo =>
    refine (shown.setBetween (zero_le _) inBlock).congr fun m lt => ?_
    rw [fill_before_true, upTo m lt]
  | mixed lastOne b2 holds2 notEmpty2 notFull2 => exact shown.or_mixed holds2 notEmpty2 notFull2

/-! ## Complement -/

omit shown

theorem ones_not_ne_zero (notFull : ones bits size ≠ size) : ones (fun m => !bits m) size ≠ 0 := by
  have counted := ones_not bits size
  omega

theorem ones_not_ne_size (notEmpty : ones bits size ≠ 0) : ones (fun m => !bits m) size ≠ size := by
  have counted := ones_not bits size
  omega

include shown

theorem Shows.not (positive : 0 < size) :
    (s.not size).Shows size (fun m => !bits m) := by
  cases shown with
  | empty lastOne noBit =>
    refine setBlock_shows positive fun m lt => ?_
    rw [noBit m lt, Bool.not_false]
  | full lastOne inBlock upTo =>
    by_cases more : lastOne < size - 1
    · have result : Slot.not ⟨.full, none, lastOne⟩ size =
          (setBlock size).resetBetween size 0 lastOne := if_pos more
      rw [result]
      have whole : (setBlock size).Shows size (fun _ => true) :=
        setBlock_shows positive fun _ _ => rfl
      refine (whole.resetBetween (zero_le _) inBlock).congr fun m lt => ?_
      rw [fill_before_false, Bool.true_and, upTo m lt]
    · have result : Slot.not ⟨.full, none, lastOne⟩ size = ⟨.empty, none, lastOne⟩ := if_neg more
      rw [result]
      refine .empty lastOne fun m lt => ?_
      rw [upTo m lt, decide_eq_true (by omega), Bool.not_true]
  | mixed lastOne b holds notEmpty notFull =>
    exact .mixed lastOne _ holds.not (ones_not_ne_zero notFull) (ones_not_ne_size notEmpty)

/-! ## Difference -/

theorem Shows.andNot (shown2 : s2.Shows size bits2) :
    (s.andNot size s2).Shows size (fun m => bits m && !bits2 m) := by
  cases shown2 with
  | empty lastOne2 noBit =>
    refine shown.congr fun m lt => ?_
    rw [noBit m lt, Bool.not_false, Bool.and_true]
  | full lastOne2 inBlock upTo =>
    refine (shown.resetBetween (zero_le _) inBlock).congr fun m lt => ?_
    rw [fill_before_false, upTo m lt]
  | mixed lastOne2 b2 holds2 notEmpty2 notFull2 =>
    cases shown with
    | empty lastOne noBit =>
      refine .empty lastOne fun m lt => ?_
      rw [noBit m lt, Bool.false_and]
    | full lastOne inBlock upTo =>
      have negated : Shows size (fun m => !bits2 m) ⟨.mixed, some b2.copyFrom.not, lastOne⟩ :=
        .mixed lastOne _ holds2.copyFrom.not (ones_not_ne_zero notFull2)
          (ones_not_ne_size notEmpty2)
      refine (negated.cut inBlock).congr fun m lt => ?_
      rw [upTo m lt, Bool.and_comm]
    | mixed lastOne b holds _ notFull =>
      refine onBlock_resetBlock (fun _ => holds.andNot holds2) (holds.andNot holds2).empty_flag ?_
      intro all
      refine notFull (ones_eq_iff.mpr fun m lt => ?_)
      exact (and_eq_true_iff.mp (ones_eq_iff.mp all m lt)).1

omit shown

/-- A full slot keeps one of its bits when the bits of a mixed one are reset. -/
def ResetSafe (s s2 : Slot) : Prop :=
  s.status = .full → s2.status = .mixed → ∃ m ≤ s.lastOne, s2.get m = false

/-- The invariant of the representation, for a block with `size` rows. -/
def WellFormed (s : Slot) (size : Nat) : Prop :=
  match s.status with
  | .empty => s.block = none
  | .full => s.block = none ∧ s.lastOne < size
  | .mixed => ∃ b, s.block = some b ∧ b.noObj = size ∧ b.noSetBits = (ones b.get size : Nat) ∧
      0 < b.noSetBits ∧ b.noSetBits < size

theorem resetBy_cut (more : lastOne < size - 1) :
    resetBy ⟨.full, none, lastOne⟩ size ⟨.mixed, some b2, lastOne2⟩ =
      ⟨.mixed, some (b2.copyFrom.not.resetBetween (lastOne + 1) (size - 1)).1, lastOne⟩ := by
  simp [resetBy, copyMixed, more]

theorem Shows.resetBy_full_mixed (inBlock : lastOne < size)
    (upTo : ∀ m < size, bits m = decide (m ≤ lastOne)) (holds2 : b2.Holds size bits2)
    (notEmpty2 : ones bits2 size ≠ 0) (survives : ∃ m ≤ lastOne, bits2 m = false) :
    (Slot.resetBy ⟨.full, none, lastOne⟩ size ⟨.mixed, some b2, lastOne2⟩).Shows size
      (fun m => bits m && !bits2 m) := by
  have notEmpty : ones (fun m => bits m && !bits2 m) size ≠ 0 := by
    intro none
    obtain ⟨m, le, absent⟩ := survives
    have bit := ones_eq_zero_iff.mp none m (by omega)
    rw [upTo m (by omega), decide_eq_true le, absent] at bit
    cases bit
  have notFull : ones (fun m => bits m && !bits2 m) size ≠ size := by
    intro all
    refine ones_not_ne_size notEmpty2 (ones_eq_iff.mpr fun m lt => ?_)
    exact (and_eq_true_iff.mp (ones_eq_iff.mp all m lt)).2
  have negated := holds2.copyFrom.not
  by_cases more : lastOne < size - 1
  · have cut : ∀ m < size, fill (fun m => !bits2 m) (lastOne + 1) (size - 1 + 1) false m =
        (bits m && !bits2 m) := by
      intro m lt
      rw [fill_after_false lt, upTo m lt, Bool.and_comm]
    rw [resetBy_cut more]
    refine .mixed lastOne _ ?_ notEmpty notFull
    rw [← ones_congr cut] at notEmpty
    exact (negated.resetBetween (by omega) (by omega) notEmpty).congr cut
  · have result : resetBy ⟨.full, none, lastOne⟩ size ⟨.mixed, some b2, lastOne2⟩ =
        ⟨.mixed, some b2.copyFrom.not, lastOne⟩ := by
      simp [resetBy, copyMixed, more]
    rw [result]
    refine .mixed lastOne _ (negated.congr fun m lt => ?_) notEmpty notFull
    rw [upTo m lt, decide_eq_true (by omega), Bool.true_and]

include shown

theorem Shows.resetBy (shown2 : s2.Shows size bits2)
    (safe : s.ResetSafe s2) : (s.resetBy size s2).Shows size (fun m => bits m && !bits2 m) := by
  have same := shown.andNot shown2
  cases shown2 with
  | empty lastOne2 noBit => exact same
  | full lastOne2 inBlock upTo => exact same
  | mixed lastOne2 b2 holds2 notEmpty2 notFull2 =>
    cases shown with
    | empty lastOne noBit => exact same
    | full lastOne inBlock upTo =>
      obtain ⟨m, le, absent⟩ := safe rfl rfl
      have survives : bits2 m = false :=
        (holds2.get_eq m (lt_of_le_of_lt le inBlock)).symm.trans absent
      exact resetBy_full_mixed inBlock upTo holds2 notEmpty2 ⟨m, le, survives⟩
    | mixed lastOne b holds _ notFull => exact same

theorem Shows.wellFormed : s.WellFormed size := by
  cases shown with
  | empty => exact rfl
  | full _ inBlock _ => exact ⟨rfl, inBlock⟩
  | mixed _ b holds notEmpty notFull =>
    have count := holds.noSetBits_eq
    have atMost := ones_le bits size
    exact ⟨b, rfl, holds.noObj_eq, by rw [count, ones_congr holds.get_eq], by omega, by omega⟩

/-- `Reset(f2)` on one block restores the invariant only if it is safe. -/
theorem Shows.resetSafe (shown2 : s2.Shows size bits2)
    (wellFormed : (s.resetBy size s2).WellFormed size) : s.ResetSafe s2 := by
  intro isFull isMixed
  cases shown with
  | empty => cases isFull
  | mixed => cases isFull
  | full lastOne inBlock upTo =>
    cases shown2 with
    | empty => cases isMixed
    | full => cases isMixed
    | mixed lastOne2 b2 holds2 notEmpty2 notFull2 =>
      by_contra noneLeft
      push Not at noneLeft
      have all : ∀ m ≤ lastOne, bits2 m = true := fun m le =>
        (holds2.get_eq m (by omega)).symm.trans (Bool.eq_true_of_not_eq_false (noneLeft m le))
      by_cases more : lastOne < size - 1
      · rw [resetBy_cut more] at wellFormed
        obtain ⟨b, isBlock, -, -, some, -⟩ := wellFormed
        obtain rfl := Option.some.inj isBlock
        have flag := holds2.copyFrom.not.resetBetween_flag (by omega : lastOne + 1 ≤ size - 1)
          (by omega)
        have empty :
            ones (fill (fun m => !bits2 m) (lastOne + 1) (size - 1 + 1) false) size = 0 := by
          refine ones_eq_zero_iff.mpr fun m lt => ?_
          rw [fill_after_false lt]
          by_cases le : m ≤ lastOne
          · rw [all m le, Bool.not_true, Bool.false_and]
          · rw [decide_eq_false le, Bool.and_false]
        rw [decide_eq_true empty] at flag
        exact some.ne' (beq_iff_eq.mp flag)
      · exact notFull2 (ones_eq_iff.mpr fun m lt => all m (by omega))

/-! ## Copies -/

theorem Shows.copyFrom : s.copyFrom.Shows size bits := by
  cases shown with
  | empty lastOne noBit => exact .empty lastOne noBit
  | full lastOne inBlock upTo => exact .full lastOne inBlock upTo
  | mixed lastOne b holds notEmpty notFull =>
    exact .mixed lastOne _ holds.copyFrom notEmpty notFull

omit shown in
theorem Shows.swapPack_fst (shown2 : s2.Shows size bits2) : (s.swapPack s2).1.Shows size bits2 := by
  have same : (s.swapPack s2).1 = s2.copyFrom := by cases shown2 <;> rfl
  rw [same]
  exact shown2.copyFrom

theorem Shows.swapPack_snd : (s.swapPack s2).2.Shows size bits := by
  have same : (s.swapPack s2).2 = s.copyFrom.copyFrom := by cases shown <;> rfl
  rw [same]
  exact shown.copyFrom.copyFrom

/-! ## Growing -/

omit shown in
theorem ones_grown (bits : Nat → Bool) (size added : Nat) (value : Bool) :
    ones (fill bits size (size + added) value) (size + added) =
      ones bits size + value.toNat * added := by
  have old : ones (fill bits size (size + added) value) size = ones bits size :=
    ones_congr fun m lt => fill_outside (by omega)
  have new : ones (fun m => fill bits size (size + added) value (size + m)) added =
      value.toNat * added := by
    rw [← ones_const value added]
    exact ones_congr fun m lt => fill_inside (by omega) (by omega)
  rw [ones_add, old, new]

theorem Shows.grow_true (positive : 0 < size) {added : Nat} (grows : 0 < added) :
    (s.grow size added (size + added) true).Shows (size + added)
      (fill bits size (size + added) true) := by
  have counted := ones_grown bits size added true
  rw [toNat_true] at counted
  cases shown with
  | empty lastOne noBit =>
    have zero := ones_eq_zero_iff.mpr noBit
    have sameBits : ∀ m < size + added, fill (fun _ => false) size (size + added - 1 + 1) true m =
        fill bits size (size + added) true m := by
      intro m lt
      by_cases old : m < size
      · rw [fill_outside (by omega), fill_outside (by omega), noBit m old]
      · rw [fill_inside (by omega) (by omega), fill_inside (by omega) (by omega)]
    have init := Block.init_holds (size + added) false
    have holds := init.setBetween (by omega : size ≤ size + added - 1) (by omega)
    have flag := init.setBetween_flag (by omega : size ≤ size + added - 1) (by omega)
    rw [ones_congr sameBits, decide_eq_false (by omega)] at flag
    have result : grow ⟨.empty, none, lastOne⟩ size added (size + added) true =
        ⟨.mixed, some ((Block.init (size + added) false).setBetween size (size + added - 1)).1,
          lastOne⟩ := by
      simp [grow, onBlock, flag]
    rw [result]
    exact .mixed lastOne _ (holds.congr sameBits) (by omega) (by omega)
  | full lastOne inBlock upTo =>
    have before := ones_congr upTo
    rw [ones_upTo inBlock] at before
    by_cases whole : lastOne = size - 1
    · have result : grow ⟨.full, none, lastOne⟩ size added (size + added) true =
          setBlock (size + added) := by
        simp [grow, whole, setBlock]
      rw [result]
      exact setBlock_shows (by omega) (ones_eq_iff.mp (by omega))
    · have result : grow ⟨.full, none, lastOne⟩ size added (size + added) true =
          ⟨.mixed, some ((Block.init (size + added) true).resetBetween (lastOne + 1)
            (size - 1)).1, lastOne⟩ := by
        simp [grow, whole]
      have sameBits : ∀ m < size + added,
          fill (fun _ => true) (lastOne + 1) (size - 1 + 1) false m =
            fill bits size (size + added) true m := by
        intro m lt
        by_cases old : m < size
        · rw [fill_after_false old, fill_outside (by omega), Bool.true_and, upTo m old]
        · rw [fill_outside (by omega), fill_inside (by omega) (by omega)]
      have left : ones (fill (fun _ => true) (lastOne + 1) (size - 1 + 1) false) (size + added) ≠
          0 := by
        rw [ones_congr sameBits]
        omega
      rw [result]
      refine .mixed lastOne _ ?_ (by omega) (by omega)
      exact ((Block.init_holds (size + added) true).resetBetween (by omega) (by omega)
        left).congr sameBits
  | mixed lastOne b holds notEmpty notFull =>
    exact .mixed lastOne _ (holds.growBlock added true) (by omega) (by omega)

theorem Shows.grow_false (added newSize : Nat) :
    (s.grow size added newSize false).Shows (size + added)
      (fill bits size (size + added) false) := by
  have counted := ones_grown bits size added false
  have atMost := ones_le bits size
  rw [toNat_false, zero_mul] at counted
  cases shown with
  | empty lastOne noBit =>
    have zero := ones_eq_zero_iff.mpr noBit
    exact .empty lastOne (ones_eq_zero_iff.mp (counted.trans zero))
  | full lastOne inBlock upTo =>
    refine .full lastOne (by omega) fun m lt => ?_
    by_cases old : m < size
    · rw [fill_outside (by omega), upTo m old]
    · rw [fill_inside (by omega) (by omega), decide_eq_false (by omega)]
  | mixed lastOne b holds notEmpty notFull =>
    exact .mixed lastOne _ (holds.growBlock added false) (by omega) (by omega)

theorem Shows.grow (positive : 0 < size) {added : Nat} (grows : 0 < added) (value : Bool) :
    (s.grow size added (size + added) value).Shows (size + added)
      (fill bits size (size + added) value) := by
  cases value with
  | false => exact shown.grow_false added (size + added)
  | true => exact shown.grow_true positive grows

end Brighthouse.Core.Slot
