import Brighthouse.Core.FilterBitwise

/-!
# Delayed updates of a filter

A filter buffers the beginning of one block that is to be reset and of one block that
is to be set.  `Buffered` says that the buffered rows are rows of the filter, which is
what committing them needs; operations that only replace slots keep it.
-/

set_option autoImplicit false

namespace Brighthouse.Core.Filter

open Library.Loop Nat Int

/-- A buffered block is a block of the filter and the last buffered row is one of its rows. -/
def InBlock (f : Filter) (block stats : Int) : Prop :=
  -1 < block → block.toNat < f.noBlocks ∧ stats < f.blockSize block.toNat

structure Buffered (f : Filter) : Prop where
  reset_inBlock : f.InBlock f.delayedBlock f.delayedStats
  set_inBlock : f.InBlock f.delayedBlockSet f.delayedStatsSet

def SameFrame (f f2 : Filter) : Prop := ∃ slots, f2 = { f with slots := slots }

variable {f f2 : Filter} {rows b n n1 n2 : Nat} {bits bits2 : Nat → Bool}

theorem SameFrame.refl (f : Filter) : f.SameFrame f := ⟨f.slots, rfl⟩

theorem SameFrame.onSlot (same : f.SameFrame f2) (b : Nat) (change : Nat → Slot → Slot) :
    f.SameFrame (f2.onSlot b change) := by
  obtain ⟨slots, rfl⟩ := same
  exact ⟨_, rfl⟩

theorem SameFrame.forLoop {body : Nat → Filter → Filter} {first turns : Nat}
    (same : f.SameFrame f2) (step : ∀ i g, f.SameFrame g → f.SameFrame (body i g)) :
    f.SameFrame (forLoop body first turns f2) :=
  forLoop_induct (fun _ g => f.SameFrame g) turns same fun i g _ _ inv => step i g inv

theorem SameFrame.betweenBlocks {within : Nat → Nat → Nat → Slot → Slot}
    {whole : Filter → Nat → Filter} (same : f.SameFrame f2)
    (whole_same : ∀ i g, f.SameFrame g → f.SameFrame (whole g i)) (b1 n1 b2 n2 : Nat) :
    f.SameFrame (betweenBlocks within whole f2 b1 n1 b2 n2) := by
  rw [Filter.betweenBlocks]
  split
  · exact same.onSlot _ _
  · refine SameFrame.onSlot (SameFrame.forLoop ?_ whole_same) _ _
    split
    · exact whole_same _ _ same
    · exact same.onSlot _ _

theorem setBetween_sameFrame (f : Filter) (n1 n2 : Nat) : f.SameFrame (f.setBetween n1 n2) := by
  rw [setBetween]
  split
  · exact (SameFrame.refl f).onSlot _ _
  · exact (SameFrame.refl f).betweenBlocks (fun _ _ same => same.onSlot _ _) _ _ _ _

theorem resetBetween_sameFrame (f : Filter) (n1 n2 : Nat) : f.SameFrame (f.resetBetween n1 n2) := by
  rw [resetBetween]
  split
  · exact (SameFrame.refl f).onSlot _ _
  · exact (SameFrame.refl f).betweenBlocks (fun _ _ same => same.onSlot _ _) _ _ _ _

theorem onBlocks_sameFrame (change : Slot → Nat → Slot → Slot) (f f2 : Filter) :
    f.SameFrame (onBlocks change f f2) :=
  (SameFrame.refl f).forLoop fun _ _ same => same.onSlot _ _

theorem not_sameFrame (f : Filter) : f.SameFrame f.not :=
  (SameFrame.refl f).forLoop fun _ _ same => same.onSlot _ _

theorem Buffered.of_sameFrame (buffered : f.Buffered) (same : f.SameFrame f2) : f2.Buffered := by
  obtain ⟨slots, rfl⟩ := same
  exact ⟨buffered.reset_inBlock, buffered.set_inBlock⟩

theorem InBlock.negative {block stats stats2 : Int} (inBlock : f.InBlock block stats)
    (negative : stats2 < 0) : f.InBlock block stats2 := by
  intro pending
  obtain ⟨lt, _⟩ := inBlock pending
  exact ⟨lt, by omega⟩

theorem Buffered.setAll (buffered : f.Buffered) : f.setAll.Buffered := by
  rw [Filter.setAll]
  split
  · exact buffered
  · exact ⟨buffered.reset_inBlock.negative (negSucc_lt_zero 0), buffered.set_inBlock⟩

theorem Buffered.resetAll (buffered : f.Buffered) : f.resetAll.Buffered :=
  ⟨buffered.reset_inBlock.negative (negSucc_lt_zero 0), buffered.set_inBlock⟩

theorem clone_buffered (f : Filter) : f.clone.Buffered :=
  ⟨fun none => absurd none (lt_irrefl _), fun none => absurd none (lt_irrefl _)⟩

theorem ofRows_buffered {allOnes : Bool} (built : ofRows rows allOnes = .ok f) : f.Buffered := by
  rw [ofRows] at built
  split at built
  · cases built
  · cases built
    exact ⟨fun none => absurd none (lt_irrefl _), fun none => absurd none (lt_irrefl _)⟩

theorem Shows.blockSize_grow (shown : f.Shows rows bits) (growSize : Nat) (value : Bool)
    (lt : b < f.noBlocks) :
    b < (f.grow growSize value).noBlocks ∧ f.blockSize b ≤ (f.grow growSize value).blockSize b := by
  have grown := shown.grow growSize value
  have inGrown : b < (f.grow growSize value).noBlocks := by
    rw [grown.noBlocks_eq]
    rw [shown.noBlocks_eq] at lt
    omega
  refine ⟨inGrown, ?_⟩
  rw [grown.blockSize_eq inGrown, shown.blockSize_eq lt]
  omega

theorem InBlock.grow {block stats : Int} (inBlock : f.InBlock block stats)
    (shown : f.Shows rows bits) (growSize : Nat) (value : Bool) :
    (f.grow growSize value).InBlock block stats := by
  intro pending
  obtain ⟨lt, small⟩ := inBlock pending
  obtain ⟨inGrown, le⟩ := shown.blockSize_grow growSize value lt
  exact ⟨inGrown, by omega⟩

theorem grow_delayed (f : Filter) (growSize : Nat) (value : Bool) :
    (f.grow growSize value).delayedStats = f.delayedStats ∧
      (f.grow growSize value).delayedBlock = f.delayedBlock ∧
      (f.grow growSize value).delayedStatsSet = f.delayedStatsSet ∧
      (f.grow growSize value).delayedBlockSet = f.delayedBlockSet := by
  rw [grow]
  split
  · exact ⟨rfl, rfl, rfl, rfl⟩
  · rw [growLastBlock]
    split
    · exact ⟨rfl, rfl, rfl, rfl⟩
    · exact ⟨rfl, rfl, rfl, rfl⟩

theorem Buffered.grow (buffered : f.Buffered) (shown : f.Shows rows bits) (growSize : Nat)
    (value : Bool) : (f.grow growSize value).Buffered := by
  obtain ⟨stats, block, statsSet, blockSet⟩ := grow_delayed f growSize value
  refine ⟨?_, ?_⟩
  · rw [stats, block]
    exact buffered.reset_inBlock.grow shown growSize value
  · rw [statsSet, blockSet]
    exact buffered.set_inBlock.grow shown growSize value

/-! ## Valid filters -/

/-- The filter stands for an array of `rows` bits and its buffers are in order. -/
structure Valid (f : Filter) (rows : Nat) : Prop where
  shows_bits : ∃ bits, f.Shows rows bits
  buffered : f.Buffered

/-- One of the two buffers: how one row and the first rows of a block are changed at once, and
the buffered block with its last buffered row. -/
structure Buffer where
  one : Filter → Nat → Nat → Filter
  front : Filter → Nat → Nat → Filter
  block : Filter → Int
  stats : Filter → Int
  put : Filter → Int → Int → Filter

namespace Buffer

abbrev resets : Buffer where
  one := Filter.resetAt
  front f b n := f.resetBetweenBlocks b 0 b n
  block := delayedBlock
  stats := delayedStats
  put f block stats := { f with delayedBlock := block, delayedStats := stats }

abbrev sets : Buffer where
  one := Filter.setAt
  front f b n := f.setBetweenBlocks b 0 b n
  block := delayedBlockSet
  stats := delayedStatsSet
  put f block stats := { f with delayedBlockSet := block, delayedStatsSet := stats }

def add (u : Buffer) (ready : Filter) (b n : Nat) : Filter :=
  if (n : Int) = u.stats ready + 1 then u.put ready (u.block ready) (u.stats ready + 1)
  else if u.stats ready + 1 < n then
    let done := u.one (if 0 ≤ u.stats ready then u.front ready b (u.stats ready).toNat
      else ready) b n
    u.put done (u.block done) (-2)
  else ready

end Buffer

namespace Valid

theorem of_shows (valid : f.Valid rows) (shown : f2.Shows rows bits) (same : f.SameFrame f2) :
    f2.Valid rows :=
  ⟨⟨bits, shown⟩, valid.buffered.of_sameFrame same⟩

structure Keeps (u : Buffer) (rows : Nat) : Prop where
  one : ∀ {f : Filter} {b n : Nat}, f.Valid rows → b < f.noBlocks → n < f.blockSize b →
    (u.one f b n).Valid rows
  front : ∀ {f : Filter} {b n : Nat}, f.Valid rows → b < f.noBlocks → n < f.blockSize b →
    (u.front f b n).Valid rows
  put : ∀ {f : Filter} {block stats : Int}, f.Valid rows → f.InBlock block stats →
    (u.put f block stats).Valid rows
  inBlock : ∀ {f : Filter}, f.Valid rows → f.InBlock (u.block f) (u.stats f)
  block_put : ∀ {f : Filter} {block stats : Int}, u.block (u.put f block stats) = block

theorem keeps_resets : Keeps .resets rows where
  one valid lt small := by
    obtain ⟨bits, shown⟩ := valid.shows_bits
    exact valid.of_shows (shown.resetAt lt small) ⟨_, rfl⟩
  front valid lt small := by
    obtain ⟨bits, shown⟩ := valid.shows_bits
    exact valid.of_shows (Shows.resetBetween_overwrites.betweenBlocks shown lt (zero_le _) small
      (.inr ⟨rfl, zero_le _⟩)) ⟨_, if_pos rfl⟩
  put valid inBlock := by
    obtain ⟨bits, shown⟩ := valid.shows_bits
    exact ⟨⟨bits, shown.of_slots rfl rfl shown.slot⟩, inBlock, valid.buffered.set_inBlock⟩
  inBlock valid := valid.buffered.reset_inBlock
  block_put := rfl

theorem keeps_sets : Keeps .sets rows where
  one valid lt small := by
    obtain ⟨bits, shown⟩ := valid.shows_bits
    exact valid.of_shows (shown.setAt lt small) ⟨_, rfl⟩
  front valid lt small := by
    obtain ⟨bits, shown⟩ := valid.shows_bits
    exact valid.of_shows (Shows.setBetween_overwrites.betweenBlocks shown lt (zero_le _) small
      (.inr ⟨rfl, zero_le _⟩)) ⟨_, if_pos rfl⟩
  put valid inBlock := by
    obtain ⟨bits, shown⟩ := valid.shows_bits
    exact ⟨⟨bits, shown.of_slots rfl rfl shown.slot⟩, valid.buffered.reset_inBlock, inBlock⟩
  inBlock valid := valid.buffered.set_inBlock
  block_put := rfl

theorem in_filter (valid : f.Valid rows) (valid2 : f2.Valid rows)
    (inFilter : b < f.noBlocks ∧ n < f.blockSize b) : b < f2.noBlocks ∧ n < f2.blockSize b := by
  obtain ⟨bits, shown⟩ := valid.shows_bits
  obtain ⟨bits2, shown2⟩ := valid2.shows_bits
  rw [shown2.noBlocks_same shown.toShaped, shown2.blockSize_same shown.toShaped]
  exact inFilter

namespace Keeps

variable {u : Buffer} (keeps : Keeps u rows) (valid : f.Valid rows)
include keeps valid

theorem commit (status : Prop) [Decidable status] :
    Valid (if -1 < u.block f then
        u.put (if status ∧ 0 ≤ u.stats f then u.front f (u.block f).toNat (u.stats f).toNat else f)
          (-1) (-1)
      else f) rows := by
  split
  · rename_i pending
    obtain ⟨lt, small⟩ := keeps.inBlock valid pending
    refine keeps.put ?_ (fun none => absurd none (by decide))
    split
    · exact keeps.front valid lt (by omega)
    · exact valid
  · exact valid

variable (inFilter : b < f.noBlocks ∧ n < f.blockSize b)
include inFilter

theorem add (current : u.block f = b) : (u.add f b n).Valid rows := by
  obtain ⟨lt, small⟩ := inFilter
  rw [Buffer.add]
  split
  · refine keeps.put valid fun _ => ?_
    rw [current, toNat_natCast]
    exact ⟨lt, by omega⟩
  · split
    · have before : Valid (if 0 ≤ u.stats f then u.front f b (u.stats f).toNat else f) rows := by
        split
        · have inBlock := (keeps.inBlock valid (by omega)).2
          rw [current, toNat_natCast] at inBlock
          exact keeps.front valid lt (by omega)
        · exact valid
      obtain ⟨lt, small⟩ := valid.in_filter before ⟨lt, small⟩
      have done := keeps.one before lt small
      exact keeps.put done fun pending => ⟨(keeps.inBlock done pending).1, by omega⟩
    · exact valid

theorem delayed (committed : f.commit.Valid rows) :
    (u.add (if u.block f ≠ b then u.put f.commit b (-1) else f) b n).Valid rows := by
  split
  · have ready : (u.put f.commit b (-1)).Valid rows := keeps.put committed fun _ =>
      ⟨(valid.in_filter committed inFilter).1, by omega⟩
    exact keeps.add ready (valid.in_filter ready inFilter) keeps.block_put
  · rename_i current
    exact keeps.add valid inFilter (not_not.mp current)

end Keeps

section
variable (valid : f.Valid rows)
include valid

theorem commit : f.commit.Valid rows := keeps_sets.commit (keeps_resets.commit valid _) _

variable (inFilter : b < f.noBlocks ∧ n < f.blockSize b)
include inFilter

theorem resetDelayedAt : (f.resetDelayedAt b n).Valid rows := by
  rw [Filter.resetDelayedAt]
  split
  · exact keeps_resets.one valid inFilter.1 inFilter.2
  · exact valid
  · exact keeps_resets.delayed valid inFilter valid.commit

theorem setDelayedAt : (f.setDelayedAt b n).Valid rows := by
  rw [Filter.setDelayedAt]
  split
  · exact keeps_sets.one valid inFilter.1 inFilter.2
  · exact valid
  · exact keeps_sets.delayed valid inFilter valid.commit

end

end Valid

end Brighthouse.Core.Filter
