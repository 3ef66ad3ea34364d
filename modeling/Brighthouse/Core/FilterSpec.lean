import Brighthouse.Core.FilterSlotBitwise

/-!
# What filters show

`Shows` relates a filter to a plain array of bits: the number of rows and, block by
block, their bits.  Each operation of a filter is matched by the same operation on the
array.
-/

set_option autoImplicit false

namespace Brighthouse.Core.Filter

open Library.BitCount Library.Loop Function

/-- The number of blocks and the size of the last one fit the number of rows. -/
structure Shaped (f : Filter) (rows : Nat) : Prop where
  noBlocks_eq : f.noBlocks = (rows + 65535) / 65536
  bits_eq : f.noOfBitsInLastBlock = rows - (f.noBlocks - 1) * 65536

structure Shows (f : Filter) (rows : Nat) (bits : Nat → Bool) : Prop extends Shaped f rows where
  slot : ∀ b < f.noBlocks, (f.slots b).Shows (f.blockSize b) (fun m => bits (b * 65536 + m))

variable {f f2 : Filter} {rows b n n1 n2 growSize b1 : Nat} {bits bits2 : Nat → Bool}
  {value allOnes : Bool}

namespace Shaped

section
variable (shaped : f.Shaped rows)
include shaped

theorem noObj_eq : f.noObj = rows := by
  have blocks := shaped.noBlocks_eq
  have last := shaped.bits_eq
  rw [noObj]
  split <;> omega

theorem blockSize_eq (lt : b < f.noBlocks) : f.blockSize b = min 65536 (rows - b * 65536) := by
  have blocks := shaped.noBlocks_eq
  have last := shaped.bits_eq
  rw [blockSize]
  split
  · omega
  · omega

theorem noBlocks_same (shaped2 : f2.Shaped rows) : f.noBlocks = f2.noBlocks := by
  rw [shaped.noBlocks_eq, shaped2.noBlocks_eq]

theorem blockSize_same (shaped2 : f2.Shaped rows) (b : Nat) : f.blockSize b = f2.blockSize b := by
  rw [blockSize, blockSize, shaped.bits_eq, shaped2.bits_eq, shaped.noBlocks_same shaped2]

theorem block_lt (lt : n < rows) : n / 65536 < f.noBlocks := by
  rw [shaped.noBlocks_eq]
  omega

theorem offset_lt (lt : n < rows) : n % 65536 < f.blockSize (n / 65536) := by
  rw [shaped.blockSize_eq (shaped.block_lt lt)]
  omega

theorem blockSize_pos (lt : b < f.noBlocks) : 0 < f.blockSize b := by
  rw [shaped.noBlocks_eq] at lt
  rw [shaped.blockSize_eq (by rw [shaped.noBlocks_eq]; exact lt)]
  omega

theorem blockSize_le (lt : b < f.noBlocks) : f.blockSize b ≤ 65536 := by
  rw [shaped.blockSize_eq lt]
  exact min_le_left _ _

/-! The local variables of `Grow`. -/

theorem bitsAddedToBlock_eq (growSize : Nat) :
    f.bitsAddedToBlock growSize =
      min growSize (65536 - (rows - (f.noBlocks - 1) * 65536)) := by
  rw [bitsAddedToBlock, shaped.bits_eq]
  split <;> omega

theorem grown_noBlocks (growSize : Nat) :
    f.noBlocks + f.newBlocks growSize = (rows + growSize + 65535) / 65536 := by
  have blocks := shaped.noBlocks_eq
  rw [newBlocks, shaped.bits_eq]
  split <;> omega

theorem grown_bits (growSize : Nat) (grows : growSize ≠ 0) :
    f.newBitsInLast growSize =
      rows + growSize - (f.noBlocks + f.newBlocks growSize - 1) * 65536 := by
  have blocks := shaped.noBlocks_eq
  rw [shaped.grown_noBlocks growSize, newBitsInLast, shaped.bits_eq]
  split <;> omega

theorem grown_last_size (growSize : Nat) (last : b + 1 = f.noBlocks) :
    f.blockSize b + f.bitsAddedToBlock growSize = min 65536 (rows + growSize - b * 65536) := by
  have blocks := shaped.noBlocks_eq
  rw [shaped.blockSize_eq (by omega), shaped.bitsAddedToBlock_eq]
  omega

theorem grown_newSize (grows : growSize ≠ 0) (last : b + 1 = f.noBlocks) :
    (if f.newBlocks growSize = 0 then f.newBitsInLast growSize else 65536) =
      f.blockSize b + f.bitsAddedToBlock growSize := by
  have newBlocks := shaped.grown_noBlocks growSize
  rw [shaped.grown_last_size growSize last, shaped.grown_bits growSize grows]
  split
  · omega
  · omega

end

end Shaped

namespace Shows

section
variable (shown : f.Shows rows bits)
include shown

theorem congr (same : ∀ n < rows, bits n = bits2 n) : f.Shows rows bits2 := by
  refine ⟨⟨shown.noBlocks_eq, shown.bits_eq⟩, fun b lt => ?_⟩
  refine (shown.slot b lt).congr fun m small => same _ ?_
  rw [shown.blockSize_eq lt] at small
  omega

theorem get_eq (lt : n < rows) : f.get n = bits n := by
  have block := shown.block_lt lt
  have position : n / 65536 * 65536 + n % 65536 = n := by omega
  rw [get, if_neg (by omega), (shown.slot _ block).get_eq (shown.offset_lt lt), position]

theorem count_block (lt : b < f.noBlocks) :
    ones bits (min rows (b * 65536)) + (f.slots b).noOnes =
      ones bits (min rows ((b + 1) * 65536)) := by
  have blocks := shown.noBlocks_eq
  have stop : min rows ((b + 1) * 65536) = b * 65536 + f.blockSize b := by
    rw [shown.blockSize_eq lt]
    omega
  have start : min rows (b * 65536) = b * 65536 := min_eq_right (by omega)
  have small : f.blockSize b < 2 ^ 32 := by
    omega
  rw [(shown.slot b lt).noOnes_eq small, start, stop]
  exact (ones_add bits (b * 65536) (f.blockSize b)).symm

theorem noOnes_eq : f.noOnes = ones bits rows := by
  have blocks := shown.noBlocks_eq
  rw [noOnes]
  split
  · have noRows : rows = 0 := by omega
    rw [noRows, ones_zero]
  · have start : 0 = ones bits (min rows (0 * 65536)) := by
      rw [zero_mul, min_zero, ones_zero]
    have loop := forLoop_induct (fun b count => count = ones bits (min rows (b * 65536))) f.noBlocks
      start fun b count _ high inv =>
        (congrArg (· + (f.slots b).noOnes) inv).trans (shown.count_block (by omega))
    have all : min rows ((0 + f.noBlocks) * 65536) = rows := by omega
    rw [all] at loop
    exact loop

/-! ## Changing one block -/

variable {change : Nat → Slot → Slot}

theorem onSlot
    (here : b < f.noBlocks → (change (f.blockSize b) (f.slots b)).Shows (f.blockSize b)
      (fun m => bits2 (b * 65536 + m))) (others : ∀ n < rows, n / 65536 ≠ b → bits n = bits2 n) :
    (f.onSlot b change).Shows rows bits2 := by
  refine ⟨⟨shown.noBlocks_eq, shown.bits_eq⟩, fun c lt => ?_⟩
  show (update f.slots b (change (f.blockSize b) (f.slots b)) c).Shows (f.blockSize c) _
  by_cases same : c = b
  · subst same
    rw [update_self]
    exact here lt
  · rw [update_of_ne same]
    refine (shown.slot c lt).congr fun m small => others _ ?_ ?_
    · rw [shown.blockSize_eq lt] at small
      omega
    · rw [shown.blockSize_eq lt] at small
      omega

theorem onSlot_fill {stop : Nat} (inBlock : stop ≤ 65536)
    (change_shows : ∀ p, (f.slots b).Shows (f.blockSize b) p →
      (change (f.blockSize b) (f.slots b)).Shows (f.blockSize b) (fill p n1 stop value)) :
    (f.onSlot b change).Shows rows (fill bits (b * 65536 + n1) (b * 65536 + stop) value) := by
  refine shown.onSlot (fun lt => ?_) fun n lt other => ?_
  · exact (change_shows _ (shown.slot b lt)).congr fun m _ => fill_shift (b * 65536) m
  · exact (fill_outside (by omega)).symm

section
variable (lt : b < f.noBlocks)
include lt

theorem onSlot_fill_block {change : Nat → Slot → Slot}
    (change_shows : ∀ p q, (f.slots b).Shows (f.blockSize b) p →
      (∀ m < f.blockSize b, q m = value) →
        (change (f.blockSize b) (f.slots b)).Shows (f.blockSize b) q) :
    (f.onSlot b change).Shows rows (fill bits (b * 65536) ((b + 1) * 65536) value) := by
  have result : (f.onSlot b change).Shows rows
      (fill bits (b * 65536 + 0) (b * 65536 + 65536) value) := by
    refine shown.onSlot_fill (le_refl 65536) fun p shownSlot => change_shows p _ shownSlot ?_
    intro m small
    exact fill_inside (Nat.zero_le m) (lt_of_lt_of_le small (shown.blockSize_le lt))
  rw [add_zero, ← Nat.succ_mul] at result
  exact result

theorem setBlock : (f.setBlock b).Shows rows (fill bits (b * 65536) ((b + 1) * 65536) true) :=
  shown.onSlot_fill_block lt fun _ _ _ allBits =>
    Slot.setBlock_shows (shown.blockSize_pos lt) allBits

theorem resetBlock : (f.resetBlock b).Shows rows (fill bits (b * 65536) ((b + 1) * 65536) false) :=
  shown.onSlot_fill_block lt fun _ _ shownSlot noBit => shownSlot.resetBlock noBit

theorem setAt (small : n < f.blockSize b) :
    (f.setAt b n).Shows rows (fill bits (b * 65536 + n) (b * 65536 + (n + 1)) true) :=
  shown.onSlot_fill (Nat.le_trans small (shown.blockSize_le lt))
    fun _ shownSlot => shownSlot.set small

theorem resetAt (small : n < f.blockSize b) :
    (f.resetAt b n).Shows rows (fill bits (b * 65536 + n) (b * 65536 + (n + 1)) false) :=
  shown.onSlot_fill (Nat.le_trans small (shown.blockSize_le lt))
    fun _ shownSlot => shownSlot.reset (shown.blockSize_le lt) small

end

theorem set (lt : n < rows) : (f.set n).Shows rows (fill bits n (n + 1) true) := by
  have position : n / 65536 * 65536 + n % 65536 = n := by omega
  have result := shown.setAt (shown.block_lt lt) (shown.offset_lt lt)
  rw [← add_assoc, position] at result
  exact result

theorem reset (lt : n < rows) : (f.reset n).Shows rows (fill bits n (n + 1) false) := by
  have position : n / 65536 * 65536 + n % 65536 = n := by omega
  have result := shown.resetAt (shown.block_lt lt) (shown.offset_lt lt)
  rw [← add_assoc, position] at result
  exact result

end

/-! ## Ranges over several blocks -/

section Ranges

variable {within : Nat → Nat → Nat → Slot → Slot} {whole : Filter → Nat → Filter}

/-- `within` and `whole` overwrite a range of one block and a whole block with `value`. -/
structure Overwrites (within : Nat → Nat → Nat → Slot → Slot) (whole : Filter → Nat → Filter)
    (value : Bool) : Prop where
  within_shows : ∀ {s : Slot} {size n1 n2 : Nat} {p : Nat → Bool}, s.Shows size p → n1 ≤ n2 →
    n2 < size → (within n1 n2 size s).Shows size (fill p n1 (n2 + 1) value)
  whole_shows : ∀ {f : Filter} {rows b : Nat} {bits : Nat → Bool}, f.Shows rows bits →
    b < f.noBlocks → (whole f b).Shows rows (fill bits (b * 65536) ((b + 1) * 65536) value)

section
variable (writes : Overwrites within whole value)
include writes

theorem Overwrites.onSlot (shown : f.Shows rows bits) (lt : b < f.noBlocks) (le : n1 ≤ n2)
    (small : n2 < f.blockSize b) :
    (f.onSlot b (within n1 n2)).Shows rows
      (fill bits (b * 65536 + n1) (b * 65536 + (n2 + 1)) value) := by
  exact shown.onSlot_fill (le_trans small (shown.blockSize_le lt))
    fun _ shownSlot => writes.within_shows shownSlot le small

theorem Overwrites.wholeBlocks {first start : Nat}
    (shown : f.Shows rows (fill bits start (first * 65536) value)) (le : start ≤ first * 65536)
    (turns : Nat) (inRange : first + turns ≤ f.noBlocks) :
    (forLoop (fun i f => whole f i) first turns f).Shows rows
      (fill bits start ((first + turns) * 65536) value) := by
  have blocks := shown.noBlocks_eq
  refine forLoop_induct (fun i (g : Filter) => g.Shows rows (fill bits start (i * 65536) value))
    turns shown fun i g low high inv => ?_
  have inBlocks : i < g.noBlocks := by
    rw [inv.noBlocks_eq]
    omega
  have next := writes.whole_shows inv inBlocks
  rw [fill_fill (le_trans le (Nat.mul_le_mul_right 65536 low))
    (Nat.mul_le_mul_right 65536 (Nat.le_succ i))] at next
  exact next

theorem Overwrites.firstBlock (shown : f.Shows rows bits) (lt : b1 + 1 < f.noBlocks)
    (offset : n1 ≤ 65535) :
    (if n1 = 0 then whole f b1 else f.onSlot b1 (within n1 65535)).Shows rows
      (fill bits (b1 * 65536 + n1) ((b1 + 1) * 65536) value) := by
  split
  · rename_i aligned
    rw [aligned, add_zero]
    exact writes.whole_shows shown (by omega)
  · have size : 65535 < f.blockSize b1 := by
      rw [blockSize, if_neg (by omega)]
      decide
    have result := writes.onSlot shown (by omega : b1 < f.noBlocks) offset size
    rw [← Nat.succ_mul] at result
    exact result

theorem Overwrites.betweenBlocks (shown : f.Shows rows bits) {b2 : Nat} (lt2 : b2 < f.noBlocks)
    (offset1 : n1 ≤ 65535) (offset2 : n2 < f.blockSize b2) (le : b1 < b2 ∨ b1 = b2 ∧ n1 ≤ n2) :
    (Filter.betweenBlocks within whole f b1 n1 b2 n2).Shows rows
      (fill bits (b1 * 65536 + n1) (b2 * 65536 + (n2 + 1)) value) := by
  rw [Filter.betweenBlocks]
  rcases le with before | ⟨same, le⟩
  · have stop : b1 + 1 + (b2 - (b1 + 1)) = b2 := by omega
    have first := writes.firstBlock shown (by omega : b1 + 1 < f.noBlocks) offset1
    have inner := writes.wholeBlocks first (by omega) (b2 - (b1 + 1))
      (by rw [first.noBlocks_same shown.toShaped]; omega)
    rw [stop] at inner
    have last := writes.onSlot inner (inner.noBlocks_same shown.toShaped ▸ lt2) (Nat.zero_le n2)
      (inner.blockSize_same shown.toShaped b2 ▸ offset2)
    rw [add_zero (b2 * 65536), fill_fill (by omega) (by omega)] at last
    rw [if_neg (ne_of_lt before)]
    exact last
  · subst same
    rw [if_pos rfl]
    exact writes.onSlot shown lt2 le offset2

end

theorem setBetween_overwrites :
    Overwrites (fun n1 n2 size s => s.setBetween size n1 n2) Filter.setBlock true :=
  ⟨fun shown le lt => shown.setBetween le lt, fun shown lt => shown.setBlock lt⟩

theorem resetBetween_overwrites :
    Overwrites (fun n1 n2 size s => s.resetBetween size n1 n2) Filter.resetBlock false :=
  ⟨fun shown le lt => shown.resetBetween le lt, fun shown lt => shown.resetBlock lt⟩

theorem between (writes : Overwrites within whole value) (shown : f.Shows rows bits)
    (lt : n2 < rows) (le : n1 ≤ n2) :
    (Filter.betweenBlocks within whole f (n1 / 65536) (n1 % 65536) (n2 / 65536)
      (n2 % 65536)).Shows rows (fill bits n1 (n2 + 1) value) := by
  have position1 := Nat.div_add_mod' n1 65536
  have position2 := Nat.div_add_mod' n2 65536
  have order : n1 / 65536 < n2 / 65536 ∨ n1 / 65536 = n2 / 65536 ∧ n1 % 65536 ≤ n2 % 65536 := by
    rcases lt_or_eq_of_le (Nat.div_le_div_right (c := 65536) le) with before | same
    · exact Or.inl before
    · exact Or.inr ⟨same, by omega⟩
  have result := writes.betweenBlocks shown (shown.block_lt lt)
    (Nat.le_of_lt_succ (Nat.mod_lt n1 (by decide))) (shown.offset_lt lt) order
  rw [position1, ← add_assoc, position2] at result
  exact result

end Ranges

section
variable (shown : f.Shows rows bits)
include shown

theorem setBetween (le : n1 ≤ n2) (lt : n2 < rows) :
    (f.setBetween n1 n2).Shows rows (fill bits n1 (n2 + 1) true) := by
  rw [Filter.setBetween]
  split
  · rename_i same
    subst same
    exact shown.set lt
  · exact between setBetween_overwrites shown lt le

theorem resetBetween (le : n1 ≤ n2) (lt : n2 < rows) :
    (f.resetBetween n1 n2).Shows rows (fill bits n1 (n2 + 1) false) := by
  rw [Filter.resetBetween]
  split
  · rename_i same
    subst same
    exact shown.reset lt
  · exact between resetBetween_overwrites shown lt le

/-! ## Changing all blocks -/

theorem of_slots (blocks : f2.noBlocks = f.noBlocks)
    (lastBits : f2.noOfBitsInLastBlock = f.noOfBitsInLastBlock)
    (each : ∀ b < f.noBlocks, (f2.slots b).Shows (f.blockSize b) (fun m => bits2 (b * 65536 + m))) :
    f2.Shows rows bits2 := by
  refine ⟨⟨blocks.trans shown.noBlocks_eq, ?_⟩, ?_⟩
  · rw [lastBits, blocks]
    exact shown.bits_eq
  · intro b lt
    rw [blockSize, blocks, lastBits]
    exact each b (blocks ▸ lt)

theorem setAll : f.setAll.Shows rows (fun _ => true) := by
  rw [Filter.setAll]
  split
  · refine shown.congr fun n lt => ?_
    have block := shown.block_lt lt
    omega
  · refine shown.of_slots rfl rfl fun b lt => ?_
    dsimp only
    rw [if_pos lt]
    exact Slot.setBlock_shows (shown.blockSize_pos lt) fun _ _ => rfl

theorem resetAll : f.resetAll.Shows rows (fun _ => false) := by
  refine shown.of_slots rfl rfl fun b lt => ?_
  rw [Filter.resetAll]
  dsimp only
  rw [if_pos lt]
  exact (shown.slot b lt).resetBlock fun _ _ => rfl

theorem clone : f.clone.Shows rows bits :=
  shown.of_slots rfl rfl fun b lt => (shown.slot b lt).copyFrom

end

/-! ## Growing -/

theorem addNewBlocks_old (lt : b < f.noBlocks) (newBlocks : Nat) (value : Bool) (last : Nat) :
    (f.addNewBlocks newBlocks value last).slots b = f.slots b := if_neg (by omega)

theorem addNewBlocks_new {newBlocks last : Nat} (le : f.noBlocks ≤ b)
    (lt : b < f.noBlocks + newBlocks) {size : Nat}
    (size_eq : size = if b + 1 = f.noBlocks + newBlocks then last else 65536)
    (positive : 0 < size) :
    ((f.addNewBlocks newBlocks value last).slots b).Shows size (fun _ => value) := by
  have added : (f.addNewBlocks newBlocks value last).slots b =
      if value then ⟨.full, none, if b + 1 = f.noBlocks + newBlocks then last - 1 else 65535⟩
      else ⟨.empty, none, (f.slots b).lastOne⟩ := if_pos ⟨le, lt⟩
  rw [added]
  cases value with
  | false => exact .empty _ fun _ _ => rfl
  | true =>
    have whole : (if b + 1 = f.noBlocks + newBlocks then last - 1 else 65535) = size - 1 := by
      rw [size_eq]
      split <;> rfl
    rw [whole]
    exact Slot.setBlock_shows positive fun _ _ => rfl

theorem growLastBlock_other (other : b + 1 ≠ f.noBlocks) (growSize : Nat) :
    (f.growLastBlock growSize value).slots b =
      (f.addNewBlocks (f.newBlocks growSize) value (f.newBitsInLast growSize)).slots b := by
  rw [growLastBlock]
  split
  · exact update_of_ne (by omega) _ _
  · rfl

theorem growLastBlock_last (last : b + 1 = f.noBlocks) (growSize : Nat) :
    (f.growLastBlock growSize value).slots b =
      if 0 < f.bitsAddedToBlock growSize then
        (f.slots b).grow (f.blockSize b) (f.bitsAddedToBlock growSize)
          (if f.newBlocks growSize = 0 then f.newBitsInLast growSize else 65536) value
      else f.slots b := by
  have here : f.noBlocks - 1 = b := by omega
  have old := addNewBlocks_old (by omega : b < f.noBlocks) (f.newBlocks growSize) value
    (f.newBitsInLast growSize)
  rw [growLastBlock, here]
  by_cases added : 0 < f.bitsAddedToBlock growSize
  · rw [if_pos added, if_pos ⟨by omega, added⟩, ← old]
    exact update_self _ _ _
  · rw [if_neg added, if_neg (by simp [added]), old]

theorem grow_last (shown : f.Shows rows bits) (grows : growSize ≠ 0) (last : b + 1 = f.noBlocks) :
    ((f.growLastBlock growSize value).slots b).Shows (min 65536 (rows + growSize - b * 65536))
      (fun m => fill bits rows (rows + growSize) value (b * 65536 + m)) := by
  have block : b < f.noBlocks := by omega
  have blocks := shown.noBlocks_eq
  have position : b * 65536 + f.blockSize b = rows := by
    rw [shown.blockSize_eq block]
    omega
  have size := shown.grown_last_size growSize last
  rw [growLastBlock_last last, shown.grown_newSize grows last, ← size]
  split
  · rename_i added
    refine ((shown.slot b block).grow (shown.blockSize_pos block) added value).congr fun m lt => ?_
    by_cases old : m < f.blockSize b
    · rw [fill_outside (by omega), fill_outside (by omega)]
    · rw [fill_inside (by omega) (by omega), fill_inside (by omega) (by omega)]
  · have none : f.bitsAddedToBlock growSize = 0 := by omega
    rw [none]
    exact (shown.slot b block).congr fun m lt => (fill_outside (by omega)).symm

theorem grow (shown : f.Shows rows bits) (growSize : Nat) (value : Bool) :
    (f.grow growSize value).Shows (rows + growSize) (fill bits rows (rows + growSize) value) := by
  rw [Filter.grow]
  by_cases grows : growSize = 0
  · rw [grows, add_zero, fill_empty]
    exact shown
  rw [if_neg grows]
  have shaped : Shaped
      { f.growLastBlock growSize value with
        noBlocks := f.noBlocks + f.newBlocks growSize
        noOfBitsInLastBlock := f.newBitsInLast growSize } (rows + growSize) :=
    ⟨shown.grown_noBlocks growSize, shown.grown_bits growSize grows⟩
  refine ⟨shaped, fun b lt => ?_⟩
  have size := shaped.blockSize_eq lt
  rw [size]
  by_cases last : b + 1 = f.noBlocks
  · exact shown.grow_last grows last
  rw [growLastBlock_other last]
  have blocks := shown.noBlocks_eq
  by_cases old : b < f.noBlocks
  · rw [addNewBlocks_old old]
    have same : min 65536 (rows + growSize - b * 65536) = f.blockSize b := by
      rw [shown.blockSize_eq old]
      omega
    rw [same]
    refine (shown.slot b old).congr fun m small => (fill_outside (Or.inl ?_)).symm
    omega
  · have positive := shaped.blockSize_pos lt
    rw [size] at positive
    refine (addNewBlocks_new (by omega) lt size.symm positive).congr fun m small => ?_
    exact (fill_inside (by omega) (by omega)).symm

end Shows

theorem construct_shows {noBlocks lastBits : Nat}
    (shaped : (construct noBlocks lastBits allOnes).Shaped rows) :
    (construct noBlocks lastBits allOnes).Shows rows (fun _ => allOnes) := by
  refine ⟨shaped, fun b lt => ?_⟩
  have positive := shaped.blockSize_pos lt
  cases allOnes with
  | false => exact .empty _ fun _ _ => rfl
  | true =>
    have slot : (construct noBlocks lastBits true).slots b =
        Slot.setBlock ((construct noBlocks lastBits true).blockSize b) := by
      show (⟨.full, none, if b + 1 = noBlocks then lastBits - 1 else 65535⟩ : Slot) =
        ⟨.full, none, (if b + 1 = noBlocks then lastBits else 65536) - 1⟩
      split <;> rfl
    rw [slot]
    exact Slot.setBlock_shows positive fun _ _ => rfl

theorem ofRows_shows (built : ofRows rows allOnes = .ok f) : f.Shows rows (fun _ => allOnes) := by
  rw [ofRows] at built
  split at built
  · cases built
  · cases built
    refine construct_shows ⟨rfl, ?_⟩
    show (if rows = 0 then 0 else if rows % 65536 = 0 then 65536 else rows % 65536) =
      rows - ((rows + 65535) / 65536 - 1) * 65536
    split
    · omega
    · split <;> omega

end Brighthouse.Core.Filter
