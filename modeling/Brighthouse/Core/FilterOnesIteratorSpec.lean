import Brighthouse.Core.FilterOnesIterator
import Brighthouse.Core.FilterSpec

/-!
# What an iterator over the ones of a filter finds

The iterator over a filter that shows `bits` goes from a row with a one to the next row
with a one.  `At` is the state at a row, `Ready` the state just before the search for a
one of a block.
-/

set_option autoImplicit false

namespace Brighthouse.Core

open Library.BitCount List Bool Nat Int

variable {block : Block} {m start : Nat}

/-! ## Blocks of a filter -/

def blockEnd (rows b : Nat) : Nat := min rows ((b + 1) * 65536)

theorem onesIn_block {rows b n : Nat} {bits : Nat → Bool} (le : n ≤ 65536) :
    onesIn bits (b * 65536 + n) rows =
      onesIn bits (b * 65536 + n) (blockEnd rows b) ++ onesIn bits ((b + 1) * 65536) rows := by
  by_cases inRows : b * 65536 + n ≤ rows
  · rw [onesIn_append (by rw [blockEnd]; omega : b * 65536 + n ≤ blockEnd rows b)
      (min_le_left _ _ : blockEnd rows b ≤ rows)]
    by_cases more : (b + 1) * 65536 ≤ rows
    · rw [blockEnd, min_eq_right more]
    · have behind : onesIn bits ((b + 1) * 65536) rows = [] := onesIn_of_le (by omega)
      rw [blockEnd, min_eq_left (by omega), onesIn_of_le (le_refl rows), behind]
  · have behind : onesIn bits ((b + 1) * 65536) rows = [] := onesIn_of_le (by omega)
    rw [onesIn_of_le (by omega), onesIn_of_le (by rw [blockEnd]; omega), behind]
    rfl

namespace Filter.Shows

variable {f : Filter} {rows b n : Nat} {bits : Nat → Bool}

section
variable (shown : f.Shows rows bits) (lt : b < f.noBlocks)
include shown lt

theorem blockEnd_eq : blockEnd rows b = b * 65536 + f.blockSize b := by
  have size := shown.blockSize_eq lt
  have blocks := shown.noBlocks_eq
  rw [blockEnd]
  omega

theorem onesIn_of_empty (empty : (f.slots b).status = .empty) (n : Nat) :
    onesIn bits (b * 65536 + n) (blockEnd rows b) = [] := by
  rw [eq_nil_iff_forall_not_mem]
  intro r inside
  obtain ⟨⟨low, high⟩, set⟩ := mem_onesIn.mp inside
  rw [shown.blockEnd_eq lt] at high
  have slot := shown.slot b lt
  generalize f.slots b = s at empty slot
  cases slot with
  | empty lastOne noBit =>
    have row : b * 65536 + (r - b * 65536) = r := by omega
    have noSet : bits (b * 65536 + (r - b * 65536)) = false := noBit _ (by omega)
    rw [row, set] at noSet
    cases noSet
  | full => cases empty
  | mixed => cases empty

theorem full_iff (full : (f.slots b).status = .full) :
    (f.slots b).lastOne < f.blockSize b ∧
      ∀ m < f.blockSize b, bits (b * 65536 + m) = decide (m ≤ (f.slots b).lastOne) :=
  (shown.slot b lt).of_full full

theorem mixed_block (mixed : (f.slots b).status = .mixed) :
    ∃ block, (f.slots b).block = some block ∧
      block.Holds (f.blockSize b) (fun m => bits (b * 65536 + m)) := by
  have slot := shown.slot b lt
  generalize f.slots b = s at mixed slot
  cases slot with
  | empty => cases mixed
  | full => cases mixed
  | mixed lastOne block holds _ _ => exact ⟨block, rfl, holds⟩

end

theorem onesIn_of_scan (shown : f.Shows rows bits) (lt : b < f.noBlocks)
    (holds : block.Holds (f.blockSize b) fun m => bits (b * 65536 + m))
    {result : Bool × Nat × WordScan} (finds : block.ScanFinds n result) (found : result.1 = true) :
    b * 65536 + result.2.1 < blockEnd rows b ∧
      onesIn bits (b * 65536 + n) (blockEnd rows b) =
        (b * 65536 + result.2.1) :: onesIn bits (b * 65536 + result.2.1 + 1) (blockEnd rows b) := by
  obtain ⟨low, high, set, clear, -⟩ := finds.some found
  rw [holds.noObj_eq] at high
  rw [holds.get_eq _ high] at set
  have inBlock : b * 65536 + result.2.1 < blockEnd rows b := by
    rw [shown.blockEnd_eq lt]
    omega
  have passed : onesIn bits (b * 65536 + n) (b * 65536 + result.2.1) = [] := by
    rw [eq_nil_iff_forall_not_mem]
    intro r inside
    obtain ⟨⟨lower, upper⟩, isSet⟩ := mem_onesIn.mp inside
    have noBit := clear (r - b * 65536) (by omega) (by omega)
    have row : b * 65536 + (r - b * 65536) = r := by omega
    rw [holds.get_eq _ (by omega), row, isSet] at noBit
    cases noBit
  refine ⟨inBlock, ?_⟩
  rw [onesIn_append (by omega : b * 65536 + n ≤ b * 65536 + result.2.1) inBlock.le, passed,
    nil_append, onesIn_cons inBlock set]

theorem nextBlock_spec (f : Filter) (b : Nat) :
    b ≤ f.nextBlock b ∧ (∀ c, b ≤ c → c < f.nextBlock b → (f.slots c).status = .empty) ∧
      (b ≤ f.noBlocks → f.nextBlock b ≤ f.noBlocks) := by
  rw [nextBlock]
  generalize left : f.noBlocks - b = turns
  induction turns generalizing b with
  | zero =>
    rw [skipEmpty]
    exact ⟨le_rfl, fun c low high => absurd high (by omega), id⟩
  | succ turns ih =>
    rw [skipEmpty]
    by_cases empty : (f.slots b).status = .empty
    · rw [if_pos empty]
      obtain ⟨low, skipped, inside⟩ := ih (b + 1) (by omega)
      refine ⟨by omega, fun c lower upper => ?_, fun _ => inside (by omega)⟩
      by_cases here : c = b
      · rw [here, empty]
      · exact skipped c (by omega) upper
    · rw [if_neg empty]
      exact ⟨le_rfl, fun c low high => absurd high (by omega), id⟩

theorem onesIn_nextBlock (shown : f.Shows rows bits) (le : b ≤ f.noBlocks) :
    onesIn bits (b * 65536) rows = onesIn bits (f.nextBlock b * 65536) rows := by
  obtain ⟨low, skipped, inside⟩ := nextBlock_spec f b
  have inFilter := inside le
  generalize f.nextBlock b = stop at low skipped inFilter
  induction stop, low using le_induction with
  | base => rfl
  | succ stop low ih =>
    have empty := skipped stop low (lt_succ_self stop)
    have none := shown.onesIn_of_empty (b := stop) (by omega) empty 0
    have split : onesIn bits (stop * 65536 + 0) rows = _ := onesIn_block (zero_le 65536)
    rw [add_zero] at none split
    rw [ih (fun c low high => skipped c low (by omega)) (by omega), split, none, nil_append]

end Filter.Shows

/-! ## States of the iterator -/

namespace FilterOnesIterator

structure InBlock (it : FilterOnesIterator) (rows : Nat) (bits : Nat → Bool) (b : Nat) : Prop where
  shown : it.f.Shows rows bits
  inFilter : b < it.f.noBlocks
  block : it.iteratorB = b
  full : it.curBlockFull = ((it.f.slots b).status == .full)
  empty : it.curBlockEmpty = ((it.f.slots b).status == .empty)
  valid : it.valid = true
  prev : it.prevBlock ≤ b

/-- What is left of a word of block `b` begins at the last one that was found, if any. -/
def KeepsWord (it : FilterOnesIterator) (b : Nat) : Prop :=
  it.lastn = -2 ∨ ∃ m : Nat, it.lastn = m ∧ ∀ block, (it.f.slots b).block = some block →
    it.scan.Reads block m ∧ 0 < it.scan.bitsLeft

structure Ready (it : FilterOnesIterator) (rows : Nat) (bits : Nat → Bool) (b n : Nat) :
    Prop extends
    InBlock it rows bits b where
  offset : it.iteratorN = n
  small : n ≤ 65536
  upToLast : (it.f.slots b).status = .full → n ≤ (it.f.slots b).lastOne
  word : it.prevBlock = b → it.KeepsWord b

structure At (it : FilterOnesIterator) (rows : Nat) (bits : Nat → Bool) (r : Nat) : Prop extends
    Ready it rows bits (r / 65536) (r % 65536) where
  inRows : r < rows
  isSet : bits r = true
  position : it.curPosition = r

/-- The counter of a mixed block knows the ones from position `n` on: either it has to be
decremented first or it has to be read. -/
def CountsAhead (it : FilterOnesIterator) (rows : Nat) (bits : Nat → Bool) (b n : Nat) : Prop :=
  (it.f.slots b).status = .mixed →
    if it.prevBlock = b then
      it.onesLeftInBlock = (onesIn bits (b * 65536 + n) (blockEnd rows b)).length + 1
    else onesIn bits (b * 65536) (blockEnd rows b) = onesIn bits (b * 65536 + n) (blockEnd rows b)

structure Counted (it : FilterOnesIterator) (rows : Nat) (bits : Nat → Bool) (r : Nat) : Prop where
  sizeLeft : it.getPackSizeLeft = (onesIn bits r (blockEnd rows (r / 65536))).length
  inBlock : (it.f.slots (r / 65536)).status = .mixed → it.prevBlock = (r / 65536 : Nat)

variable {it : FilterOnesIterator} {rows b n r turns : Nat} {bits : Nat → Bool} {rest : List Nat}

variable (ready : it.Ready rows bits b n)
include ready

theorem Ready.currentSlot_eq : it.currentSlot = it.f.slots b := by
  rw [currentSlot, ready.block, toNat_natCast]

theorem Ready.mixed_flags
    (mixed : (it.f.slots b).status = .mixed) :
    it.curBlockFull = false ∧ it.curBlockEmpty = false := by
  rw [ready.full, ready.empty, mixed]
  exact ⟨rfl, rfl⟩

theorem Ready.full_cons (full : (it.f.slots b).status = .full) :
    b * 65536 + n < blockEnd rows b ∧ bits (b * 65536 + n) = true := by
  obtain ⟨inBlock, upTo⟩ := ready.shown.full_iff ready.inFilter full
  have le := ready.upToLast full
  rw [ready.shown.blockEnd_eq ready.inFilter]
  exact ⟨by omega, (upTo n (by omega)).trans (decide_eq_true le)⟩

omit ready

theorem row_of_block (inBlock : b * 65536 + m < blockEnd rows b) :
    b * 65536 + m < rows ∧ (b * 65536 + m) / 65536 = b ∧ (b * 65536 + m) % 65536 = m := by
  rw [blockEnd] at inBlock
  omega

theorem at_of_ready (ready : it.Ready rows bits b m) (inBlock : b * 65536 + m < blockEnd rows b)
    (set : bits (b * 65536 + m) = true) : it.setPosition.At rows bits (b * 65536 + m) := by
  obtain ⟨inRows, block, offset⟩ := row_of_block inBlock
  have same : it.setPosition.Ready rows bits b m := { ready with }
  refine
    { toReady := block.symm ▸ offset.symm ▸ same
      inRows := inRows
      isSet := set
      position := ?_ }
  rw [setPosition, ready.block, ready.offset]
  push_cast
  rfl

/-! ## The search -/

theorem iteratorBpp_f : it.iteratorBpp.2.f = it.f := by
  rw [iteratorBpp]
  split <;> rfl

theorem countOnes_f (block : Block) : (it.countOnes block).f = it.f := by
  rw [countOnes]
  split <;> rfl

theorem findOneInsidePack_f : it.findOneInsidePack.2.f = it.f := by
  rw [findOneInsidePack]
  split
  · rfl
  · dsimp only
    split <;> exact countOnes_f _

theorem seek_f (turns : Nat) (it : FilterOnesIterator) : (seek turns it).f = it.f := by
  induction turns generalizing it with
  | zero => rfl
  | succ turns ih =>
    have next : ∀ it' : FilterOnesIterator, it'.f = it.f →
        (if it'.iteratorBpp.1 then seek turns it'.iteratorBpp.2
          else { it'.iteratorBpp.2 with valid := false }).f = it.f := by
      intro it' same
      split
      · rw [ih, iteratorBpp_f, same]
      · exact iteratorBpp_f.trans same
    rw [seek]
    dsimp only
    split
    · rfl
    · split
      · exact next it rfl
      · split
        · exact findOneInsidePack_f
        · exact next _ findOneInsidePack_f

theorem increment_f (it : FilterOnesIterator) : it.increment.f = it.f := by
  rw [increment]
  dsimp only
  split
  · split
    · rw [seek_f, iteratorBpp_f]
    · exact iteratorBpp_f
  · exact seek_f _ _

theorem seekInside_f (turns : Nat) (insidePack : Bool) (it : FilterOnesIterator) :
    (seekInside turns insidePack it).2.f = it.f := by
  induction turns generalizing insidePack it with
  | zero => rfl
  | succ turns ih =>
    rw [seekInside]
    dsimp only
    split
    · rfl
    · split
      · rfl
      · split
        · exact findOneInsidePack_f
        · rw [ih]
          exact findOneInsidePack_f

theorem nextInsidePack_f (it : FilterOnesIterator) : it.nextInsidePack.2.f = it.f := by
  rw [nextInsidePack]
  split
  · exact seekInside_f _ _ _
  · exact seekInside_f _ _ _

theorem iteratorBpp_spec (shown : it.f.Shows rows bits) (valid : it.valid = true)
    (next : it.iteratorB + 1 = start) (inFilter : start ≤ it.f.noBlocks)
    (prev : it.prevBlock < start) :
    (it.iteratorBpp.1 = false ∧ onesIn bits (start * 65536) rows = []) ∨
      (it.iteratorBpp.1 = true ∧ ∃ b, start ≤ b ∧ it.iteratorBpp.2.Ready rows bits b 0 ∧
        it.iteratorBpp.2.CountsAhead rows bits b 0 ∧
        onesIn bits (start * 65536) rows = onesIn bits (b * 65536) rows) := by
  obtain ⟨low, _⟩ := Filter.Shows.nextBlock_spec it.f start
  have ahead := shown.onesIn_nextBlock inFilter
  have blocks := shown.noBlocks_eq
  rw [iteratorBpp, next, toNat_natCast]
  by_cases last : it.f.noBlocks ≤ it.f.nextBlock start
  · rw [if_pos last]
    exact Or.inl ⟨rfl, ahead.trans (onesIn_of_le (by omega))⟩
  · rw [if_neg last]
    refine Or.inr ⟨rfl, it.f.nextBlock start, low, ?_, ?_, ahead⟩
    · exact
        { shown := shown
          inFilter := not_le.mp last
          block := rfl
          offset := rfl
          small := zero_le _
          full := by rw [readStatus, currentSlot, toNat_natCast]
          empty := by rw [readStatus, currentSlot, toNat_natCast]
          valid := valid
          upToLast := fun _ => zero_le _
          prev := by rw [readStatus]; dsimp only; omega
          word := fun same => absurd same (by rw [readStatus]; dsimp only; omega) }
    · intro _
      rw [readStatus, if_neg]
      · rw [add_zero]
      · dsimp only
        omega

section
include ready

theorem Ready.countOnes (block : Block) :
    (it.countOnes block).Ready rows bits b n ∧ (it.countOnes block).prevBlock = b := by
  rw [FilterOnesIterator.countOnes]
  split
  · rename_i same
    exact ⟨{ ready with }, same.symm.trans ready.block⟩
  · exact ⟨{ ready with prev := ready.block.le, word := fun _ => Or.inl rfl }, ready.block⟩

theorem Ready.startScan (isBlock : (it.f.slots b).block = some block) (prev : it.prevBlock = b) :
    (it.startScan block).Reads block n := by
  rw [FilterOnesIterator.startScan, ready.offset]
  split
  · rename_i next
    rcases ready.word prev with fresh | ⟨m, last, kept⟩
    · omega
    · obtain ⟨reads, more⟩ := kept block isBlock
      obtain rfl : m + 1 = n := by omega
      exact reads.shift more
  · have shifted := (WordScan.reads_word block (n / 32)).shift (k := n % 32) (by dsimp only; omega)
    rwa [div_add_mod'] at shifted

variable (mixed : (it.f.slots b).status = .mixed)
include mixed

theorem Ready.countOnes_onesLeft
    (holds : block.Holds (it.f.blockSize b) fun m => bits (b * 65536 + m))
    (counts : it.CountsAhead rows bits b n) :
    (it.countOnes block).onesLeftInBlock =
      (onesIn bits (b * 65536 + n) (blockEnd rows b)).length := by
  have ahead := counts mixed
  rw [FilterOnesIterator.countOnes, ready.block]
  by_cases same : it.prevBlock = b
  · rw [if_pos same] at ahead
    rw [if_pos same.symm]
    dsimp only
    omega
  · rw [if_neg same] at ahead
    rw [if_neg (Ne.symm same)]
    rw [← ahead, holds.noSetBits_eq, ready.shown.blockEnd_eq ready.inFilter, length_onesIn]

theorem findOneInsidePack_scan : ∃ block result,
    block.Holds (it.f.blockSize b) (fun m => bits (b * 65536 + m)) ∧
      (it.f.slots b).block = some block ∧ block.ScanFinds n result ∧
      it.findOneInsidePack.1 = result.1 ∧ it.findOneInsidePack.2.InBlock rows bits b ∧
      (result.1 = true → it.findOneInsidePack.2 = { it.countOnes block with
        iteratorN := result.2.1, scan := result.2.2, lastn := result.2.1 }) := by
  obtain ⟨block, isBlock, holds⟩ := ready.shown.mixed_block ready.inFilter mixed
  obtain ⟨counted, prev⟩ := ready.countOnes block
  have slot : it.currentSlot.block = some block := by rw [ready.currentSlot_eq, isBlock]
  rw [findOneInsidePack, slot]
  dsimp only
  rw [counted.offset]
  by_cases inside : n < block.noObj
  · have reads := counted.startScan (by rwa [countOnes_f]) prev
    rw [if_pos inside]
    refine ⟨block, _, holds, isBlock, block.scan_finds 1 reads inside, rfl, ?_, ?_⟩
    · exact { counted.toInBlock with }
    · intro found
      rw [if_pos found]
  · rw [if_neg inside]
    refine ⟨block, (false, n, it.scan), holds, isBlock, ⟨fun _ => ?_, nofun⟩, rfl,
      counted.toInBlock, nofun⟩
    exact ⟨not_lt.mp inside, fun m low high => absurd high (by omega)⟩

theorem findOneInsidePack_none (none : onesIn bits (b * 65536 + n) (blockEnd rows b) = []) :
    it.findOneInsidePack.1 = false ∧ it.findOneInsidePack.2.InBlock rows bits b := by
  obtain ⟨block, result, holds, -, finds, flag, inBlock, -⟩ := findOneInsidePack_scan ready mixed
  refine ⟨?_, inBlock⟩
  rw [flag, ← Bool.not_eq_true]
  intro found
  rw [(ready.shown.onesIn_of_scan ready.inFilter holds finds found).2] at none
  cases none

/-- In a mixed block the search finds the first one from the position of the iterator on. -/
theorem findOneInsidePack_some (some : onesIn bits (b * 65536 + n) (blockEnd rows b) = r :: rest) :
    it.findOneInsidePack.1 = true ∧ it.findOneInsidePack.2.setPosition.At rows bits r ∧
      (it.CountsAhead rows bits b n → it.findOneInsidePack.2.setPosition.Counted rows bits r) := by
  obtain ⟨block, ⟨found, m, s⟩, holds, isBlock, finds, flag, inPack, moves⟩ :=
    findOneInsidePack_scan ready mixed
  obtain ⟨counted, prev⟩ := ready.countOnes block
  obtain ⟨low, high, set, here⟩ := onesIn_of_cons some
  cases found with
  | false =>
    -- The first one is a one that the search would have found.
    have size := ready.shown.blockEnd_eq ready.inFilter
    have row : b * 65536 + (r - b * 65536) = r := by omega
    have noBit := (finds.none rfl).2 (r - b * 65536) (by omega) (by rw [holds.noObj_eq]; omega)
    rw [holds.get_eq _ (by omega), row, set] at noBit
    cases noBit
  | true =>
    obtain ⟨-, -, -, -, reads⟩ := finds.some rfl
    obtain ⟨inBlock, first⟩ := ready.shown.onesIn_of_scan ready.inFilter holds finds rfl
    obtain rfl : r = b * 65536 + m := (cons.inj (some.symm.trans first)).1
    obtain ⟨inRows, block_eq, offset⟩ := row_of_block high
    have moved : Ready { it.countOnes block with iteratorN := m, scan := s, lastn := m }
        rows bits b m :=
      { counted with
        offset := rfl
        small := by omega
        upToLast := fun full => by
          rw [countOnes_f, mixed] at full
          cases full
        word := fun _ => Or.inr ⟨m, rfl, fun other isOther => by
          rw [countOnes_f, isBlock, Option.some.injEq] at isOther
          exact isOther ▸ reads⟩ }
    rw [flag, moves rfl]
    refine ⟨rfl, at_of_ready moved high set, fun counts => ⟨?_, fun _ => ?_⟩⟩
    · have notFull := (counted.mixed_flags ((countOnes_f block).symm ▸ mixed)).1
      rw [setPosition, getPackSizeLeft]
      rw [counted.valid, if_pos rfl, notFull, if_neg Bool.false_ne_true, block_eq,
        ready.countOnes_onesLeft mixed holds counts, here, some]
    · rw [block_eq]
      exact prev

end

structure Finds (it : FilterOnesIterator) (f : Filter) (rows : Nat) (bits : Nat → Bool)
    (rowsAhead : List Nat) (counts : Prop) : Prop where
  sameFilter : it.f = f
  none : rowsAhead = [] → it.valid = false
  some : ∀ r rest, rowsAhead = r :: rest →
    it.At rows bits r ∧ (counts → it.Counted rows bits r)

theorem Finds.mono {f : Filter} {rowsAhead : List Nat} {counts counts2 : Prop}
    (found : it.Finds f rows bits rowsAhead counts) (implies : counts2 → counts) :
    it.Finds f rows bits rowsAhead counts2 :=
  ⟨found.sameFilter, found.none, fun r rest split =>
    ⟨(found.some r rest split).1, fun counted => (found.some r rest split).2 (implies counted)⟩⟩

theorem nextTurn_finds (shown : it.f.Shows rows bits) (valid : it.valid = true)
    (next : it.iteratorB + 1 = start) (inFilter : start ≤ it.f.noBlocks)
    (prev : it.prevBlock < start)
    (search : ∀ b (it2 : FilterOnesIterator), start ≤ b → it2.f = it.f → it2.Ready rows bits b 0 →
      (seek turns it2).Finds it2.f rows bits (onesIn bits (b * 65536 + 0) rows)
        (it2.CountsAhead rows bits b 0)) :
    Finds (if it.iteratorBpp.1 then seek turns it.iteratorBpp.2
      else { it.iteratorBpp.2 with valid := false }) it.f rows bits
      (onesIn bits (start * 65536) rows) True := by
  have sameFilter : it.iteratorBpp.2.f = it.f := iteratorBpp_f
  rcases iteratorBpp_spec shown valid next inFilter prev with
    ⟨ended, none⟩ | ⟨entered, b, low, ready, counts, same⟩
  · rw [ended, if_neg Bool.false_ne_true, none]
    exact ⟨sameFilter, fun _ => rfl, fun r rest split => nomatch split⟩
  · have found := search b _ low sameFilter ready
    rw [entered, if_pos rfl, same]
    rw [add_zero, sameFilter] at found
    exact found.mono fun _ => counts

section
include ready

theorem Ready.isFull (full : (it.f.slots b).status = .full) :
    it.curBlockFull = true := by
  rw [ready.full, full]
  rfl

theorem Ready.at_full (full : (it.f.slots b).status = .full) :
    it.setPosition.At rows bits (b * 65536 + n) ∧
      it.setPosition.Counted rows bits (b * 65536 + n) := by
  obtain ⟨inBlock, set⟩ := ready.full_cons full
  obtain ⟨inRows, block, offset⟩ := row_of_block inBlock
  obtain ⟨lastInBlock, upTo⟩ := ready.shown.full_iff ready.inFilter full
  have le := ready.upToLast full
  refine ⟨at_of_ready ready inBlock set, ?_, fun mixed => ?_⟩
  · have isFull := ready.isFull full
    have slot : it.setPosition.currentSlot = it.f.slots b := ready.currentSlot_eq
    have last : blockEnd rows b = b * 65536 + n + (it.f.blockSize b - n) := by
      rw [ready.shown.blockEnd_eq ready.inFilter]
      omega
    have upToOffset : ∀ m < it.f.blockSize b - n,
        bits (b * 65536 + n + m) = decide (m ≤ (it.f.slots b).lastOne - n) := by
      intro m small
      rw [add_assoc, upTo (n + m) (by omega)]
      exact decide_eq_decide.mpr (by omega)
    rw [getPackSizeLeft, slot, block, last, length_onesIn, ones_congr upToOffset,
      ones_upTo (by omega)]
    rw [setPosition]
    rw [ready.valid, isFull, if_pos rfl, if_pos rfl, ready.offset]
    omega
  · rw [block] at mixed
    exact nomatch full.symm.trans mixed

theorem seek_finds (enough : it.f.noBlocks ≤ b + turns) :
    (seek turns it).Finds it.f rows bits (onesIn bits (b * 65536 + n) rows)
      (it.CountsAhead rows bits b n) := by
  induction turns generalizing it b n with
  | zero => exact absurd ready.inFilter (by omega)
  | succ turns ih =>
    have nextTurn : ∀ it0 : FilterOnesIterator, it0.f = it.f → it0.InBlock rows bits b →
        Finds (if it0.iteratorBpp.1 then seek turns it0.iteratorBpp.2
          else { it0.iteratorBpp.2 with valid := false }) it.f rows bits
          (onesIn bits ((b + 1) * 65536) rows) True := by
      intro it0 sameFilter here
      have prev := here.prev
      have next : it0.iteratorB + 1 = (b + 1 : Nat) := by rw [here.block]; rfl
      rw [← sameFilter]
      refine nextTurn_finds here.shown here.valid next here.inFilter (by omega) ?_
      intro b2 it2 low filter2 ready2
      refine ih ready2 ?_
      rw [filter2, sameFilter]
      omega
    have ahead : onesIn bits (b * 65536 + n) rows = _ := onesIn_block ready.small
    rw [seek]
    dsimp only
    cases status : (it.f.slots b).status with
    | full =>
      obtain ⟨inBlock, set⟩ := ready.full_cons status
      obtain ⟨inRows, _, _⟩ := row_of_block inBlock
      rw [ready.isFull status, if_pos rfl, onesIn_cons inRows set]
      refine ⟨rfl, (fun none => nomatch none), fun r rest split => ?_⟩
      obtain ⟨rfl, _⟩ := cons.inj split
      exact ⟨(ready.at_full status).1, fun _ => (ready.at_full status).2⟩
    | empty =>
      have notFull : it.curBlockFull = false := by rw [ready.full, status]; rfl
      have isEmpty : it.curBlockEmpty = true := by rw [ready.empty, status]; rfl
      rw [notFull, if_neg Bool.false_ne_true, isEmpty, if_pos rfl, ahead,
        ready.shown.onesIn_of_empty ready.inFilter status, nil_append]
      exact (nextTurn it rfl ready.toInBlock).mono fun _ => trivial
    | mixed =>
      obtain ⟨notFull, notEmpty⟩ := ready.mixed_flags status
      rw [notFull, if_neg Bool.false_ne_true, notEmpty, if_neg Bool.false_ne_true, ahead]
      cases inBlock : onesIn bits (b * 65536 + n) (blockEnd rows b) with
      | nil =>
        obtain ⟨missed, left⟩ := findOneInsidePack_none ready status inBlock
        rw [missed, if_neg Bool.false_ne_true, nil_append]
        exact (nextTurn _ findOneInsidePack_f left).mono fun _ => trivial
      | cons first others =>
        obtain ⟨flag, here, counts⟩ := findOneInsidePack_some ready status inBlock
        rw [flag, if_pos rfl, cons_append]
        refine ⟨findOneInsidePack_f, (fun none => nomatch none), fun r rest split => ?_⟩
        obtain ⟨rfl, _⟩ := cons.inj split
        exact ⟨here, counts⟩

end

/-! ## Steps -/

variable (here : it.At rows bits r)
include here

theorem At.none_left (last : it.isEndOfBlock = true) :
    onesIn bits (r + 1) (blockEnd rows (r / 65536)) = [] := by
  have blockEnd_eq := here.shown.blockEnd_eq here.inFilter
  have size := here.shown.blockSize_eq here.inFilter
  rw [isEndOfBlock, here.currentSlot_eq, here.offset, here.block, or_eq_true, or_eq_true,
    and_eq_true, and_eq_true, decide_eq_true_iff, beq_iff_eq, beq_iff_eq, beq_iff_eq] at last
  rcases last with (whole | ⟨lastBlock, lastBit⟩) | ⟨full, lastOne⟩
  · exact onesIn_of_le (by omega)
  · have shape := here.shown.bits_eq
    exact onesIn_of_le (by omega)
  · rw [here.full, beq_iff_eq] at full
    obtain ⟨inBlock, upTo⟩ := here.shown.full_iff here.inFilter full
    rw [eq_nil_iff_forall_not_mem]
    intro m inside
    obtain ⟨⟨low, high⟩, set⟩ := mem_onesIn.mp inside
    have bit := upTo (m - r / 65536 * 65536) (by omega)
    have same : r / 65536 * 65536 + (m - r / 65536 * 65536) = m := by omega
    rw [same, set] at bit
    have le := of_decide_eq_true bit.symm
    omega

theorem At.ready_next (inside : it.isEndOfBlock = false) :
    Ready { it with iteratorN := it.iteratorN + 1 } rows bits (r / 65536) (r % 65536 + 1) := by
  rw [isEndOfBlock, here.currentSlot_eq, here.offset, or_eq_false_iff, and_eq_false_iff]
    at inside
  exact
    { here.toReady with
      offset := by rw [here.offset]
      small := by omega
      upToLast := fun full => by
        rcases inside.2 with notFull | notLast
        · rw [here.isFull full] at notFull
          cases notFull
        · have more := of_decide_eq_false notLast
          dsimp only
          omega }

omit here

theorem onesIn_succ (rows : Nat) (bits : Nat → Bool) (r : Nat) :
    onesIn bits (r + 1) rows = onesIn bits (r + 1) (blockEnd rows (r / 65536)) ++
      onesIn bits ((r / 65536 + 1) * 65536) rows := by
  have row := div_add_mod' r 65536
  have split : onesIn bits (r / 65536 * 65536 + (r % 65536 + 1)) rows = _ := onesIn_block (by omega)
  rwa [← add_assoc, row] at split

include here

theorem At.cons :
    onesIn bits r (blockEnd rows (r / 65536)) =
      r :: onesIn bits (r + 1) (blockEnd rows (r / 65536)) := by
  have inRows := here.inRows
  exact onesIn_cons (by rw [blockEnd]; omega) here.isSet

theorem Counted.countsAhead (counted : it.Counted rows bits r) :
    CountsAhead { it with iteratorN := it.iteratorN + 1 } rows bits (r / 65536)
      (r % 65536 + 1) := by
  intro mixed
  have size := counted.sizeLeft
  rw [getPackSizeLeft, here.valid, if_pos rfl, (here.mixed_flags mixed).1,
    if_neg Bool.false_ne_true, here.cons,
    length_cons] at size
  rw [if_pos (counted.inBlock mixed), ← add_assoc, div_add_mod']
  exact size.trans (by push_cast; rfl)

theorem increment_finds :
    it.increment.Finds it.f rows bits (onesIn bits (r + 1) rows) (it.Counted rows bits r) := by
  rw [increment]
  cases last : it.isEndOfBlock with
  | true =>
    have prev := here.prev
    have next : it.iteratorB + 1 = (r / 65536 + 1 : Nat) := by rw [here.block]; rfl
    rw [if_pos rfl, onesIn_succ, here.none_left last, nil_append]
    refine (nextTurn_finds here.shown here.valid next here.inFilter (by omega) ?_).mono
      fun _ => trivial
    intro b it2 low sameFilter ready
    exact seek_finds ready (by rw [sameFilter]; omega)
  | false =>
    have enough : it.f.noBlocks ≤ r / 65536 + it.f.noBlocks := le_add_left _ _
    have found := seek_finds (here.ready_next last) enough
    rw [← add_assoc, div_add_mod'] at found
    exact found.mono (Counted.countsAhead here)

omit here

theorem nextPack_finds_behind (shown : it.f.Shows rows bits) (valid : it.valid = true)
    (block : it.iteratorB = b) (inFilter : b < it.f.noBlocks) (prev : it.prevBlock ≤ b) :
    it.nextPack.Finds it.f rows bits (onesIn bits ((b + 1) * 65536) rows) True := by
  have next : it.iteratorB + 1 = (b + 1 : Nat) := by rw [block]; rfl
  refine nextTurn_finds shown valid next inFilter (by dsimp only; omega) ?_
  intro b it2 low sameFilter ready
  exact seek_finds ready (by rw [sameFilter]; exact le_add_left _ _)

theorem nextPack_finds (here : it.At rows bits r) :
    it.nextPack.Finds it.f rows bits (onesIn bits ((r / 65536 + 1) * 65536) rows) True :=
  nextPack_finds_behind here.shown here.valid here.block here.inFilter here.prev

theorem rewind_finds (shown : it.f.Shows rows bits) :
    it.rewind.Finds it.f rows bits (onesIn bits 0 rows) True := by
  have last : it.reset.isEndOfBlock = true := rfl
  have next : it.reset.iteratorB + 1 = (0 : Nat) := rfl
  have prev : it.reset.prevBlock < (0 : Nat) := negSucc_lt_zero 0
  have start : onesIn bits 0 rows = onesIn bits (0 * 65536) rows := rfl
  rw [rewind, increment, last, if_pos rfl, start]
  refine nextTurn_finds shown rfl next (zero_le _) prev ?_
  intro b it2 low sameFilter ready
  exact seek_finds ready (by rw [sameFilter]; exact le_add_left _ _)

/-- A rewound iterator visits the set rows in order and then is invalid. -/
theorem rewind_visits (shown : it.f.Shows rows bits) {before : List Nat}
    (split : onesIn bits 0 rows = before ++ rest) :
    (increment^[before.length] it.rewind).Finds it.f rows bits rest True := by
  have found := rewind_finds shown
  generalize it.f = f, it.rewind = it, 0 = n at found split ⊢
  induction before generalizing it n with
  | nil =>
    obtain rfl : _ = rest := split
    exact found
  | cons r before ih =>
    obtain ⟨here, counts⟩ := found.some r _ split
    obtain ⟨_, inRows, set, ahead⟩ := onesIn_of_cons split
    rw [onesIn_cons inRows set, cons.injEq] at ahead
    refine ih _ _ ?_ ahead.2
    rw [← found.sameFilter]
    exact (increment_finds here).mono counts

/-- Rows 3, 40 and 69 of 70 are set, in three words of one block. -/
theorem rewind_visits_three : ∃ f it, f = (((Filter.construct 1 70 false).set 3).set 40).set 69 ∧
    it = init f ∧
      it.rewind.curPosition = 3 ∧ (increment^[1] it.rewind).curPosition = 40 ∧
      (increment^[2] it.rewind).curPosition = 69 ∧ (increment^[3] it.rewind).valid = false := by
  have shown : Filter.Shows (((Filter.construct 1 70 false).set 3).set 40 |>.set 69) 70 _ :=
    (((Filter.ofRows_shows rfl).set (by decide : 3 < 70)).set (by decide : 40 < 70)).set
      (by decide : 69 < 70)
  obtain ⟨f, isFilter⟩ : ∃ f, f = (((Filter.construct 1 70 false).set 3).set 40).set 69 := ⟨_, rfl⟩
  have same : (init f).f = f := increment_f _
  rw [← isFilter, ← same] at shown
  have none := rewind_visits shown (by decide : onesIn _ 0 70 = [] ++ [3, 40, 69])
  have one := rewind_visits shown (by decide : onesIn _ 0 70 = [3] ++ [40, 69])
  have two := rewind_visits shown (by decide : onesIn _ 0 70 = [3, 40] ++ [69])
  have three := rewind_visits shown (by decide : onesIn _ 0 70 = [3, 40, 69] ++ [])
  exact ⟨f, init f, isFilter, rfl, (none.some _ _ rfl).1.position, (one.some _ _ rfl).1.position,
    (two.some _ _ rfl).1.position, three.none rfl⟩

/-! ### Rounds through a pack -/

include ready in
theorem seekInside_some {insidePack : Bool}
    (some : onesIn bits (b * 65536 + n) (blockEnd rows b) = r :: rest) :
    (seekInside (turns + 1) insidePack it).1 = insidePack ∧
      (seekInside (turns + 1) insidePack it).2.At rows bits r ∧
      (it.CountsAhead rows bits b n →
        (seekInside (turns + 1) insidePack it).2.Counted rows bits r) := by
  rw [seekInside]
  cases status : (it.f.slots b).status with
  | full =>
    obtain ⟨inBlock, set⟩ := ready.full_cons status
    rw [onesIn_cons inBlock set] at some
    obtain ⟨rfl, _⟩ := cons.inj some
    rw [ready.isFull status, if_pos rfl]
    exact ⟨rfl, (ready.at_full status).1, fun _ => (ready.at_full status).2⟩
  | empty =>
    rw [ready.shown.onesIn_of_empty ready.inFilter status] at some
    cases some
  | mixed =>
    obtain ⟨notFull, notEmpty⟩ := ready.mixed_flags status
    obtain ⟨flag, here, counts⟩ := findOneInsidePack_some ready status some
    rw [notFull, if_neg Bool.false_ne_true, notEmpty, if_neg Bool.false_ne_true]
    dsimp only
    rw [flag, if_pos rfl]
    exact ⟨rfl, here, counts⟩

theorem nextInsidePack_more {next : Nat} (here : it.At rows bits r)
    (more : onesIn bits (r + 1) (blockEnd rows (r / 65536)) = next :: rest) :
    it.nextInsidePack.1 = true ∧ it.nextInsidePack.2.At rows bits next ∧
      (it.Counted rows bits r → it.nextInsidePack.2.Counted rows bits next) := by
  rw [nextInsidePack]
  cases last : it.isEndOfBlock with
  | true =>
    rw [here.none_left last] at more
    cases more
  | false =>
    rw [← div_add_mod' r 65536, add_assoc, div_add_mod'] at more
    obtain ⟨flag, reached, counts⟩ := seekInside_some (here.ready_next last) more
    exact ⟨flag, reached, fun counted => counts (counted.countsAhead here)⟩

theorem InBlock.restart (inBlock : it.InBlock rows bits b) {prev : Int} (before : prev < b) :
    Ready { it with iteratorN := 0, prevBlock := prev } rows bits b 0 ∧
      CountsAhead { it with iteratorN := 0, prevBlock := prev } rows bits b 0 := by
  refine ⟨{ inBlock with
    offset := rfl, small := zero_le _, upToLast := fun _ => zero_le _, prev := before.le
    word := fun same => absurd same before.ne }, ?_⟩
  intro _
  rw [if_neg before.ne, add_zero]

theorem nextInsidePack_last {first : Nat} (here : it.At rows bits r)
    (none : onesIn bits (r + 1) (blockEnd rows (r / 65536)) = [])
    (pack : onesIn bits (r / 65536 * 65536) (blockEnd rows (r / 65536)) = first :: rest) :
    it.nextInsidePack.1 = false ∧ it.nextInsidePack.2.At rows bits first ∧
      it.nextInsidePack.2.Counted rows bits first := by
  have before : (-1 : Int) < (r / 65536 : Nat) := by omega
  rw [← add_zero (r / 65536 * 65536)] at pack
  rw [nextInsidePack]
  cases last : it.isEndOfBlock with
  | true =>
    obtain ⟨restarted, counts⟩ := here.toInBlock.restart before
    obtain ⟨flag, reached, counted⟩ := seekInside_some restarted pack
    exact ⟨flag, reached, counted counts⟩
  | false =>
    have ready := here.ready_next last
    rw [← div_add_mod' r 65536, add_assoc, div_add_mod'] at none
    rw [if_neg Bool.false_ne_true, seekInside]
    cases status : (it.f.slots (r / 65536)).status with
    | full =>
      obtain ⟨inBlock, set⟩ := ready.full_cons status
      rw [onesIn_cons inBlock set] at none
      cases none
    | empty =>
      rw [ready.shown.onesIn_of_empty ready.inFilter status] at pack
      cases pack
    | mixed =>
      obtain ⟨notFull, notEmpty⟩ := here.mixed_flags status
      obtain ⟨missed, left⟩ := findOneInsidePack_none ready status none
      obtain ⟨restarted, counts⟩ := left.restart before
      obtain ⟨flag, reached, counted⟩ := seekInside_some restarted pack
      rw [if_neg (Bool.not_eq_true _ ▸ notFull), if_neg (Bool.not_eq_true _ ▸ notEmpty)]
      dsimp only
      rw [missed, if_neg Bool.false_ne_true]
      exact ⟨flag, reached, counted counts⟩

end FilterOnesIterator

end Brighthouse.Core
