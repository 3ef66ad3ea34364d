import Brighthouse.Core.FilterSpec

/-!
# Operations on two filters

The bitwise operations run over the blocks one by one; on filters with the same number
of rows each of them shows the bits of both combined row by row.  Resetting the rows of
another filter does so only if no block of it is emptied behind the back of the filter.
-/

set_option autoImplicit false

namespace Brighthouse.Core.Filter

open Library.Loop

variable {f f2 : Filter} {rows b pack : Nat} {bits bits2 bits3 : Nat → Bool}

def changedBelow (change : Nat → Nat → Slot → Slot) (f : Filter) (turns : Nat) : Filter :=
  { f with
    slots := fun b => if b < turns then change b (f.blockSize b) (f.slots b) else f.slots b }

variable (change : Nat → Nat → Slot → Slot)

theorem changedBelow_succ (f : Filter) (turns : Nat) :
    (changedBelow change f turns).onSlot turns (change turns) =
      changedBelow change f (turns + 1) := by
  have slots : Function.update (changedBelow change f turns).slots turns
      (change turns (f.blockSize turns) ((changedBelow change f turns).slots turns)) =
        (changedBelow change f (turns + 1)).slots := by
    funext b
    rw [changedBelow, changedBelow]
    dsimp only
    by_cases here : b = turns
    · subst here
      rw [Function.update_self, if_neg (lt_irrefl b), if_pos (Nat.lt_succ_self b)]
    · rw [Function.update_of_ne here]
      by_cases before : b < turns
      · rw [if_pos before, if_pos (by omega)]
      · rw [if_neg before, if_neg (by omega)]
  rw [mk.injEq]
  exact ⟨rfl, rfl, slots, rfl, rfl, rfl, rfl⟩

theorem forLoop_onSlot (f : Filter) (turns : Nat) :
    forLoop (fun b f => f.onSlot b (change b)) 0 turns f = changedBelow change f turns := by
  have loop := forLoop_induct (fun i (g : Filter) => g = changedBelow change f i) turns
    (show f = changedBelow change f 0 from rfl) fun i g _ _ inv =>
      (congrArg (fun g => onSlot g i (change i)) inv).trans (changedBelow_succ change f i)
  rw [zero_add] at loop
  exact loop

/-- No block is full in `f` and mixed in `f2` with all ones of `f` among those of `f2`. -/
def ResetSafe (f f2 : Filter) : Prop := ∀ b < f.noBlocks, (f.slots b).ResetSafe (f2.slots b)

namespace Shows

section
variable (shown : f.Shows rows bits)
include shown

theorem onAllSlots {change : Nat → Nat → Slot → Slot}
    (each : ∀ b < f.noBlocks, (change b (f.blockSize b) (f.slots b)).Shows (f.blockSize b)
      (fun m => bits2 (b * 65536 + m))) :
    (forLoop (fun b f => f.onSlot b (change b)) 0 f.noBlocks f).Shows rows bits2 := by
  rw [forLoop_onSlot]
  refine shown.of_slots rfl rfl fun b lt => ?_
  rw [changedBelow]
  dsimp only
  rw [if_pos lt]
  exact each b lt

section
variable (shown2 : f2.Shows rows bits2)
include shown2

theorem onBlocks {change : Slot → Nat → Slot → Slot}
    (each : ∀ b < f.noBlocks, (change (f.slots b) (f.blockSize b) (f2.slots b)).Shows
      (f.blockSize b) (fun m => bits3 (b * 65536 + m))) :
    (Filter.onBlocks change f f2).Shows rows bits3 := by
  rw [Filter.onBlocks, shown2.noBlocks_same shown.toShaped, min_self]
  exact shown.onAllSlots each

theorem slot_of (lt : b < f.noBlocks) :
    (f2.slots b).Shows (f.blockSize b) (fun m => bits2 (b * 65536 + m)) := by
  have slot := shown2.slot b (shown.noBlocks_same shown2.toShaped ▸ lt)
  rw [shown2.blockSize_same shown.toShaped] at slot
  exact slot

theorem and : (f.and f2).Shows rows (fun n => bits n && bits2 n) :=
  shown.onBlocks shown2 fun b lt => (shown.slot b lt).and (shown.slot_of shown2 lt)

theorem or : (f.or f2 none).Shows rows (fun n => bits n || bits2 n) :=
  shown.onBlocks shown2 fun b lt => (shown.slot b lt).or (shown.slot_of shown2 lt)

theorem andNot : (f.andNot f2).Shows rows (fun n => bits n && !bits2 n) :=
  shown.onBlocks shown2 fun b lt => (shown.slot b lt).andNot (shown.slot_of shown2 lt)

end

theorem not : f.not.Shows rows (fun n => !bits n) :=
  shown.onAllSlots fun b lt => (shown.slot b lt).not (shown.blockSize_pos lt)

theorem resetBy (shown2 : f2.Shows rows bits2) (safe : f.ResetSafe f2) :
    (f.resetBy f2).Shows rows (fun n => bits n && !bits2 n) :=
  shown.onBlocks shown2 fun b lt =>
    (shown.slot b lt).resetBy (shown.slot_of shown2 lt) (safe b lt)

/-! ## Single blocks -/

/-- One block of `f` is changed to show the bits of `bits2`. -/
theorem onSlot_block (bits2 : Nat → Bool) {change : Nat → Slot → Slot}
    (here : pack < f.noBlocks → (change (f.blockSize pack) (f.slots pack)).Shows (f.blockSize pack)
      (fun m => bits2 (pack * 65536 + m))) :
    (f.onSlot pack change).Shows rows (fun n => if n / 65536 = pack then bits2 n else bits n) := by
  refine shown.onSlot (fun lt => (here lt).congr fun m small => ?_) fun n _ other => ?_
  · have inBlock := lt_of_lt_of_le small (shown.blockSize_le lt)
    rw [if_pos (by omega)]
  · rw [if_neg other]

section
variable (shown2 : f2.Shows rows bits2)
include shown2

theorem or_pack :
    (f.or f2 (some pack)).Shows rows
      (fun n => if n / 65536 = pack then bits n || bits2 n else bits n) := by
  rw [Filter.or]
  split
  · exact shown.onSlot_block (fun n => bits n || bits2 n) fun lt =>
      (shown.slot pack lt).or (shown.slot_of shown2 lt)
  · rename_i outside
    refine shown.congr fun n lt => ?_
    have block := shown.block_lt lt
    rw [shown2.noBlocks_same shown.toShaped] at outside
    rw [if_neg (by omega)]

theorem swapPack_fst :
    (f.swapPack f2 pack).1.Shows rows (fun n => if n / 65536 = pack then bits2 n else bits n) := by
  rw [swapPack]
  dsimp only
  refine shown.onSlot_block bits2 fun lt => ?_
  exact (shown.slot_of shown2 lt).swapPack_fst

theorem swapPack_snd :
    (f.swapPack f2 pack).2.Shows rows (fun n => if n / 65536 = pack then bits n else bits2 n) := by
  rw [swapPack]
  dsimp only
  refine shown2.onSlot_block bits fun lt => ?_
  exact (shown2.slot_of shown lt).swapPack_snd

theorem copyBlock :
    (f.copyBlock f2 pack).Shows rows (fun n => if n / 65536 = pack then bits2 n else bits n) :=
  shown.onSlot_block bits2 fun lt => (shown.slot_of shown2 lt).copyFrom

end

end

end Shows

end Brighthouse.Core.Filter
