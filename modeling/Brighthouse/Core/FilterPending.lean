import Brighthouse.Core.FilterDelayed

/-!
# Delayed resets

`ResetDelayed` buffers a run of rows at the beginning of a full block.  `Pending` gives the
bits as they will be after `Commit`; in these terms a delayed reset is a reset.
-/

set_option autoImplicit false

namespace Brighthouse.Core.Filter

open Library.BitCount

def pendingFirst (f : Filter) : Nat := f.delayedBlock.toNat * 65536

def pendingStop (f : Filter) : Nat :=
  if -1 < f.delayedBlock then f.pendingFirst + (f.delayedStats + 1).toNat else f.pendingFirst

/-- The filter will have `bits` after `Commit`.  Rows are buffered for a full block only. -/
structure Pending (f : Filter) (rows : Nat) (bits : Nat → Bool) : Prop where
  raw : ∃ raw, f.Shows rows raw ∧ ∀ n < rows, bits n = fill raw f.pendingFirst f.pendingStop false n
  noSet : f.delayedBlockSet = -1
  inBlock : f.InBlock f.delayedBlock f.delayedStats
  full : -1 < f.delayedBlock → 0 ≤ f.delayedStats → (f.slots f.delayedBlock.toNat).status = .full

variable {f : Filter} {rows b n n1 n2 : Nat} {bits bits2 : Nat → Bool}

theorem Pending.congr (pending : f.Pending rows bits) (same : ∀ n < rows, bits n = bits2 n) :
    f.Pending rows bits2 := by
  obtain ⟨raw, shown, value⟩ := pending.raw
  exact { pending with raw := ⟨raw, shown, fun n lt => (same n lt).symm.trans (value n lt)⟩ }

theorem Shows.pending_none (shown : f.Shows rows bits) (noSet : f.delayedBlockSet = -1)
    (none : -1 < f.delayedBlock → f.delayedBlock.toNat < f.noBlocks ∧ f.delayedStats < 0) :
    f.Pending rows bits where
  raw := by
    refine ⟨bits, shown, fun n _ => ?_⟩
    have stop : f.pendingStop = f.pendingFirst := by
      rw [pendingStop]
      split
      · rename_i buffered
        have := none buffered
        omega
      · rfl
    rw [stop, fill_empty]
  noSet := noSet
  inBlock := fun buffered => (none buffered).imp_right fun negative => by omega
  full := fun buffered some => absurd some (not_le.mpr (none buffered).2)

theorem Shows.pending (shown : f.Shows rows bits) (noReset : f.delayedBlock ≤ -1)
    (noSet : f.delayedBlockSet = -1) : f.Pending rows bits :=
  shown.pending_none noSet fun buffered => absurd buffered (not_lt.mpr noReset)

theorem resetBetweenBlocks_same (f : Filter) (b n1 n2 : Nat) :
    f.resetBetweenBlocks b n1 b n2 = f.onSlot b fun size s => s.resetBetween size n1 n2 :=
  if_pos rfl

variable {raw : Nat → Bool}

theorem Shows.resetFront (shown : f.Shows rows raw) (lt : b < f.noBlocks)
    (small : n < f.blockSize b) :
    (f.resetBetweenBlocks b 0 b n).Shows rows
      (fill raw (b * 65536) (b * 65536 + (n + 1)) false) := by
  have result := resetBetween_overwrites.onSlot shown lt (Nat.zero_le n) small
  rw [resetBetweenBlocks_same]
  rwa [add_zero] at result

theorem commit_eq_commitReset (noSet : f.delayedBlockSet = -1) : f.commit = f.commitReset := by
  have kept : f.commitReset.delayedBlockSet = -1 := by
    rw [commitReset]
    split
    · dsimp only
      rw [resetBetweenBlocks_same]
      split <;> exact noSet
    · exact noSet
  rw [commit, commitSet, if_neg (by omega)]

theorem Shows.buffer (shown : f.Shows rows raw) (block stats : Int) :
    Shows { f with delayedBlock := block, delayedStats := stats } rows raw :=
  shown.of_slots rfl rfl shown.slot

section
variable (pending : f.Pending rows bits)
include pending

theorem Pending.raw_of_block (current : f.delayedBlock = b) : ∃ raw, f.Shows rows raw ∧
    ∀ n < rows, bits n =
      fill raw (b * 65536) (b * 65536 + (f.delayedStats + 1).toNat) false n := by
  have raw := pending.raw
  rwa [pendingStop, pendingFirst, current] at raw

theorem Pending.flush (current : f.delayedBlock = b) (lt : b < f.noBlocks) :
    Shows (if 0 ≤ f.delayedStats then f.resetBetweenBlocks b 0 b f.delayedStats.toNat else f) rows
      bits := by
  obtain ⟨raw, shown, value⟩ := pending.raw_of_block current
  have buffered : -1 < f.delayedBlock := by omega
  have block : f.delayedBlock.toNat = b := by omega
  have small := (pending.inBlock buffered).2
  rw [block] at small
  split
  · have size : (f.delayedStats + 1).toNat = f.delayedStats.toNat + 1 := by omega
    rw [size] at value
    exact (shown.resetFront lt (by omega)).congr fun m inRows => (value m inRows).symm
  · have none : (f.delayedStats + 1).toNat = 0 := by omega
    rw [none, add_zero, fill_empty] at value
    exact shown.congr fun m inRows => (value m inRows).symm

theorem Pending.commit :
    f.commit.Shows rows bits ∧ f.commit.delayedBlock ≤ -1 ∧ f.commit.delayedBlockSet = -1 := by
  rw [commit_eq_commitReset pending.noSet, commitReset]
  by_cases buffered : -1 < f.delayedBlock
  · have flushed := pending.flush (Int.toNat_of_nonneg (by omega)).symm (pending.inBlock buffered).1
    rw [if_pos buffered]
    dsimp only
    rw [if_congr (and_iff_right_of_imp (pending.full buffered)) rfl rfl]
    refine ⟨flushed.buffer _ _, le_rfl, ?_⟩
    rw [resetBetweenBlocks_same]
    split <;> exact pending.noSet
  · obtain ⟨raw, shown, value⟩ := pending.raw
    have stop : f.pendingStop = f.pendingFirst := if_neg buffered
    rw [stop, fill_empty] at value
    rw [if_neg buffered]
    exact ⟨shown.congr fun n lt => (value n lt).symm, not_lt.mp buffered, pending.noSet⟩

/-! ## Resets -/

theorem Pending.resetAt (lt : b < f.noBlocks) (small : n < f.blockSize b)
    (other : f.delayedBlock = b → f.delayedStats < 0) :
    (f.resetAt b n).Pending rows (fill bits (b * 65536 + n) (b * 65536 + (n + 1)) false) := by
  obtain ⟨raw, shown, value⟩ := pending.raw
  refine
    { raw := ⟨_, shown.resetAt lt small, fun m inRows => ?_⟩
      noSet := pending.noSet
      inBlock := pending.inBlock
      full := fun buffered some => ?_ }
  · have frame : (f.resetAt b n).pendingFirst = f.pendingFirst ∧
        (f.resetAt b n).pendingStop = f.pendingStop := ⟨rfl, rfl⟩
    rw [frame.1, frame.2, fill_comm, fill, fill, value m inRows]
  · have elsewhere : f.delayedBlock.toNat ≠ b := by
      intro same
      have inFilter : -1 < f.delayedBlock := buffered
      exact absurd (other (by omega)) (not_lt.mpr some)
    have slot : (f.resetAt b n).slots f.delayedBlock.toNat = f.slots f.delayedBlock.toNat :=
      Function.update_of_ne elsewhere _ _
    exact (congrArg Slot.status slot).trans (pending.full buffered some)

theorem Pending.resetBuffered (lt : b < f.noBlocks) (small : n < f.blockSize b)
    (current : f.delayedBlock = b) (full : (f.slots b).status = .full) :
    (Buffer.resets.add f b n).Pending rows
      (fill bits (b * 65536 + n) (b * 65536 + (n + 1)) false) := by
  have buffered : -1 < f.delayedBlock := by omega
  have block : f.delayedBlock.toNat = b := by omega
  obtain ⟨raw, shown, value⟩ := pending.raw_of_block current
  have stats : Buffer.resets.stats f = f.delayedStats := rfl
  rw [Buffer.add]
  split
  · have size : (f.delayedStats + 1).toNat = n := by omega
    have longer : (f.delayedStats + 1 + 1).toNat = n + 1 := by omega
    rw [size] at value
    refine
      { raw := ⟨raw, shown.of_slots rfl rfl shown.slot, fun m inRows => ?_⟩
        noSet := pending.noSet
        inBlock := fun _ => ?_
        full := fun _ _ => ?_ }
    · rw [pendingStop, if_pos buffered, pendingFirst]
      have join : fill (fill raw (b * 65536) (b * 65536 + n) false) (b * 65536 + n)
          (b * 65536 + (n + 1)) false = fill raw (b * 65536) (b * 65536 + (n + 1)) false :=
        fill_fill (by omega) (by omega)
      rw [block, longer, ← join, fill, fill, value m inRows]
    · rw [block]
      refine ⟨lt, ?_⟩
      show f.delayedStats + 1 < f.blockSize b
      omega
    · dsimp only
      rw [block]
      exact full
  · split
    · have flushed := pending.flush current lt
      have frame : ∀ f' : Filter, f.SameFrame f' → f'.delayedBlock = b ∧
          f'.delayedBlockSet = -1 ∧ f'.noBlocks = f.noBlocks ∧ f'.blockSize b = f.blockSize b := by
        rintro f' ⟨slots, rfl⟩
        exact ⟨current, pending.noSet, rfl, rfl⟩
      obtain ⟨sameBlock, noSet, sameBlocks, sameSize⟩ := frame
        (if 0 ≤ f.delayedStats then f.resetBetweenBlocks b 0 b f.delayedStats.toNat else f) (by
          rw [resetBetweenBlocks_same]
          split
          · exact (SameFrame.refl f).onSlot _ _
          · exact .refl f)
      generalize (if 0 ≤ f.delayedStats then f.resetBetweenBlocks b 0 b f.delayedStats.toNat else f)
        = before at flushed sameBlock noSet sameBlocks sameSize
      have done := flushed.resetAt (sameBlocks ▸ lt) (sameSize ▸ small)
      refine (done.buffer _ _).pending_none noSet fun _ => ?_
      show before.delayedBlock.toNat < before.noBlocks ∧ (-2 : Int) < 0
      rw [sameBlock, sameBlocks]
      exact ⟨lt, by decide⟩
    · refine pending.congr fun m inRows => ?_
      rw [fill]
      split
      · rw [value m inRows]
        exact fill_inside (by omega) (by omega)
      · rfl

end

theorem Shows.empty_of_status (shown : f.Shows rows raw) (lt : b < f.noBlocks)
    (empty : (f.slots b).status = .empty) (small : n < f.blockSize b) :
    raw (b * 65536 + n) = false := by
  have slot := shown.slot b lt
  generalize f.slots b = s at slot empty
  cases slot with
  | empty lastOne noBit => exact noBit n small
  | full lastOne => cases empty
  | mixed lastOne block => cases empty

theorem commit_slot_other (noSet : f.delayedBlockSet = -1)
    (other : -1 < f.delayedBlock → f.delayedBlock.toNat ≠ b) : f.commit.slots b = f.slots b := by
  rw [commit_eq_commitReset noSet, commitReset]
  split
  · rename_i buffered
    dsimp only
    split
    · rw [resetBetweenBlocks_same]
      exact Function.update_of_ne (other buffered).symm _ _
    · rfl
  · rfl

theorem Pending.resetDelayedAt (pending : f.Pending rows bits) (lt : b < f.noBlocks)
    (small : n < f.blockSize b) :
    (f.resetDelayedAt b n).Pending rows
      (fill bits (b * 65536 + n) (b * 65536 + (n + 1)) false) := by
  rw [Filter.resetDelayedAt]
  split
  · rename_i mixed
    refine pending.resetAt lt small fun same => ?_
    by_contra some
    have full := pending.full (by omega) (by omega)
    rw [same, Int.toNat_natCast, mixed] at full
    cases full
  · rename_i empty
    refine pending.congr fun m inRows => ?_
    obtain ⟨raw, shown, value⟩ := pending.raw
    rw [fill]
    split
    · have here : m = b * 65536 + n := by omega
      rw [value m inRows, fill, here, shown.empty_of_status lt empty small, ite_self]
    · rfl
  · rename_i full
    by_cases other : f.delayedBlock ≠ b
    · rw [if_pos other]
      obtain ⟨committed, _, noSet⟩ := pending.commit
      obtain ⟨raw, shown, _⟩ := pending.raw
      have sameBlocks : f.commit.noBlocks = f.noBlocks := committed.noBlocks_same shown.toShaped
      have sameSize : f.commit.blockSize b = f.blockSize b :=
        committed.blockSize_same shown.toShaped b
      have slot : f.commit.slots b = f.slots b :=
        commit_slot_other pending.noSet fun buffered => by omega
      have ready : Pending { f.commit with delayedBlock := b, delayedStats := -1 } rows bits :=
        (committed.buffer _ _).pending_none noSet fun _ =>
          ⟨sameBlocks ▸ lt, (by decide : (-1 : Int) < 0)⟩
      exact ready.resetBuffered (sameBlocks ▸ lt) (sameSize ▸ small) rfl
        ((congrArg Slot.status slot).trans full)
    · rw [if_neg other]
      exact pending.resetBuffered lt small (not_not.mp other) full

theorem Pending.resetDelayed (pending : f.Pending rows bits) (lt : n < rows) :
    (f.resetDelayed n).Pending rows (fill bits n (n + 1) false) := by
  obtain ⟨raw, shown, _⟩ := pending.raw
  have position : n / 65536 * 65536 + n % 65536 = n := by omega
  have result := pending.resetDelayedAt (shown.block_lt lt) (shown.offset_lt lt)
  rw [← add_assoc, position] at result
  exact result

/-- Delayed resets, once committed, clear exactly their rows. -/
theorem resetsDelayed_commit (pending : f.Pending rows bits) {ns : List Nat}
    (inRows : ∀ n ∈ ns, n < rows) :
    (ns.foldl resetDelayed f).commit.Shows rows fun k => bits k && k ∉ ns := by
  induction ns generalizing f bits with
  | nil => exact pending.commit.1.congr fun k _ => by simp
  | cons n ns ih =>
    rw [List.forall_mem_cons] at inRows
    refine (ih (pending.resetDelayed inRows.1) inRows.2).congr fun k _ => ?_
    rw [fill]
    by_cases here : k = n
    · simp [here]
    · rw [if_neg (by omega)]
      simp [here]

theorem resetsDelayed_commit_ends : ∃ f, ofRows 3 true = .ok f ∧
    ([2, 0].foldl resetDelayed f).commit.Shows 3 fun k => true && k ∉ [2, 0] :=
  ⟨_, rfl, resetsDelayed_commit ((ofRows_shows rfl).pending (by decide) rfl) (by decide)⟩

end Brighthouse.Core.Filter
