import Brighthouse.Core.FilterBlock

/-!
# Filters

Functional model of `core/Filter.h` and `core/Filter.cpp`.  A filter keeps one bit for
every row, in blocks of 65536 rows.  The entries of `block_status`, `blocks` and
`block_last_one` for one block form a `Slot`: an empty block and a block that starts
with ones and continues with zeros are kept without a bit block.

Memory pools, shallow copies and the record of changed blocks are left out.  Block
numbers and counters are natural numbers; `rowLimit` says up to where the `int`
variables of the source agree with them.
-/

set_option autoImplicit false

namespace Brighthouse.Core

open Library.Loop

inductive BlockStatus where
  | full
  | empty
  | mixed
  deriving DecidableEq, Repr

/-- A full block has ones up to `lastOne` and zeros after it. -/
structure Slot where
  status : BlockStatus
  block : Option Block
  lastOne : Nat

/-! ## One block of a filter

`size` is the number of rows of the block. -/

namespace Slot

def get (s : Slot) (n : Nat) : Bool :=
  match s.status with
  | .empty => false
  | .full => decide (n ≤ s.lastOne)
  | .mixed => (s.block.map (·.get n)).getD false

def noOnes (s : Slot) : Nat :=
  if s.status = .full then s.lastOne + 1
  else
    match s.block with
    | some b => b.noOnes
    | none => 0

def setBlock (size : Nat) : Slot := { status := .full, block := none, lastOne := size - 1 }

def resetBlock (s : Slot) : Slot := { s with status := .empty, block := none }

def onBlock (s : Slot) (run : Block → Block × Bool) (finish : Slot) : Slot :=
  match s.block with
  | none => s
  | some b => if (run b).2 then finish else { s with block := some (run b).1 }

/-- A bit block with the ones of a full block that is about to become mixed. -/
def prefixBlock (s : Slot) (size : Nat) : Block :=
  ((Block.init size false).setBetween 0 s.lastOne).1

def set (s : Slot) (size n : Nat) : Slot :=
  let makeMixed := s.status == .full && decide (s.lastOne + 1 < n)
  let extended := if s.status = .full ∧ n = s.lastOne + 1 then { s with lastOne := n } else s
  let prepared :=
    if makeMixed || s.status == .empty then
      if n = 0 then { extended with status := .full, lastOne := 0 }
      else
        { extended with
          status := .mixed
          block := some (if makeMixed then s.prefixBlock size else Block.init size false) }
    else extended
  prepared.onBlock (·.set n) (setBlock size)

def setBetween (s : Slot) (size n1 n2 : Nat) : Slot :=
  let prepared :=
    if s.status = .full ∧ n1 ≤ s.lastOne + 1 then { s with lastOne := max s.lastOne n2 }
    else if s.status = .empty ∨ s.status = .full then
      if n1 = 0 then { s with status := .full, lastOne := n2 }
      else
        { s with
          status := .mixed
          block := some (if s.status = .full then s.prefixBlock size else Block.init size false) }
    else s
  prepared.onBlock (·.setBetween n1 n2) (setBlock size)

def reset (s : Slot) (size n : Nat) : Slot :=
  let makeMixed := s.status == .full && decide (n < s.lastOne)
  let prepared :=
    if s.status = .full then
      if n = s.lastOne then
        if n = 0 then { s with status := .empty } else { s with lastOne := s.lastOne - 1 }
      else if n < s.lastOne then { s with status := .mixed, block := some (Block.init size true) }
      else s
    else s
  let next := prepared.onBlock (·.reset n) prepared.resetBlock
  if makeMixed && s.lastOne != 65535 && s.lastOne != size - 1 then
    { next with block := next.block.map fun b => (b.resetBetween (s.lastOne + 1) (size - 1)).1 }
  else next

def resetBetween (s : Slot) (size n1 n2 : Nat) : Slot :=
  let prepared :=
    if s.status = .full then
      if 0 < n1 ∧ s.lastOne ≤ n2 then { s with lastOne := min (n1 - 1) s.lastOne }
      else if n1 = 0 ∧ s.lastOne ≤ n2 then { s with status := .empty }
      else
        { s with
          status := .mixed
          block := some
            (if s.lastOne = size - 1 then Block.init size true else s.prefixBlock size) }
    else s
  prepared.onBlock (·.resetBetween n1 n2) prepared.resetBlock

def copyMixed (s s2 : Slot) : Slot :=
  { s with status := .mixed, block := s2.block.map Block.copyFrom }

def and (s : Slot) (size : Nat) (s2 : Slot) : Slot :=
  match s2.status with
  | .empty => s.resetBlock
  | .mixed =>
    if s.status = .full then
      if s.lastOne < size - 1 then (s.copyMixed s2).resetBetween size (s.lastOne + 1) (size - 1)
      else s.copyMixed s2
    else
      match s2.block with
      | some b2 => s.onBlock (·.and b2) s.resetBlock
      | none => s
  | .full =>
    if s2.lastOne < size - 1 then s.resetBetween size (s2.lastOne + 1) (size - 1) else s

def or (s : Slot) (size : Nat) (s2 : Slot) : Slot :=
  match s2.status with
  | .full => s.setBetween size 0 s2.lastOne
  | .mixed =>
    if s.status = .empty then s.copyMixed s2
    else if s.block.isSome then
      match s2.block with
      | some b2 => s.onBlock (·.or b2) (setBlock size)
      | none => s
    else if s.lastOne < size - 1 then (s.copyMixed s2).setBetween size 0 s.lastOne
    else s
  | .empty => s

def not (s : Slot) (size : Nat) : Slot :=
  match s.status with
  | .full =>
    if s.lastOne < size - 1 then { s with lastOne := size - 1 }.resetBetween size 0 s.lastOne
    else { s with status := .empty }
  | .empty => { s with status := .full, lastOne := size - 1 }
  | .mixed => { s with block := s.block.map Block.not }

def andNot (s : Slot) (size : Nat) (s2 : Slot) : Slot :=
  match s2.status with
  | .full => s.resetBetween size 0 s2.lastOne
  | .mixed =>
    if s.status = .full then
      let negated := { s.copyMixed s2 with block := (s.copyMixed s2).block.map Block.not }
      if s.lastOne < size - 1 then negated.resetBetween size (s.lastOne + 1) (size - 1)
      else negated
    else
      match s2.block with
      | some b2 => s.onBlock (·.andNot b2) s.resetBlock
      | none => s
  | .empty => s

/-- `Reset(f2)` on one block.  Unlike in `AndNot`, nobody looks whether the rows after the
last one were all that was left. -/
def resetBy (s : Slot) (size : Nat) (s2 : Slot) : Slot :=
  match s2.status with
  | .full => s.resetBetween size 0 s2.lastOne
  | .mixed =>
    if s.status = .full then
      let negated := (s.copyMixed s2).block.map Block.not
      let shortened :=
        if s.lastOne < size - 1 then
          negated.map fun b => (b.resetBetween (s.lastOne + 1) (size - 1)).1
        else negated
      { s with status := .mixed, block := shortened }
    else
      match s2.block with
      | some b2 => s.onBlock (·.andNot b2) s.resetBlock
      | none => s
  | .empty => s

def copyFrom (s : Slot) : Slot := { s with block := s.block.map Block.copyFrom }

def swapPack (s s2 : Slot) : Slot × Slot :=
  let taken := if s2.status = .mixed then s2.block.map Block.copyFrom else none
  let given := if s.status = .mixed then (s.block.map Block.copyFrom).map Block.copyFrom else none
  ({ s2 with block := taken }, { s with block := given })

/-- The part of `Grow` that grows the previously last block from `size` rows by `added`
rows to `newSize` rows. -/
def grow (s : Slot) (size added newSize : Nat) (value : Bool) : Slot :=
  if value then
    match s.status with
    | .empty =>
      { s with status := .mixed, block := some (Block.init newSize false) }.onBlock
        (·.setBetween size (size + added - 1)) (setBlock size)
    | .mixed => { s with block := s.block.map (·.growBlock added true) }
    | .full =>
      if s.lastOne = size - 1 then { s with lastOne := newSize - 1 }
      else
        { s with
          status := .mixed
          block := some ((Block.init newSize true).resetBetween (s.lastOne + 1) (size - 1)).1 }
  else if s.status = .mixed then { s with block := s.block.map (·.growBlock added false) }
  else s

end Slot

/-! ## Filters -/

structure Filter where
  noBlocks : Nat
  noOfBitsInLastBlock : Nat
  slots : Nat → Slot
  delayedStats : Int
  delayedBlock : Int
  delayedStatsSet : Int
  delayedBlockSet : Int

def maxRowNumber : Nat := 0x00007FFFFFFFFFFF

/-- The rows of `2 ^ 31 - 1` blocks, the largest number of blocks an `int` can hold. -/
def rowLimit : Nat := (2 ^ 31 - 1) * 65536

namespace Filter

def construct (noBlocks noOfBitsInLastBlock : Nat) (allOnes : Bool) : Filter where
  noBlocks := noBlocks
  noOfBitsInLastBlock := noOfBitsInLastBlock
  slots := fun b =>
    { status := if allOnes then .full else .empty
      block := none
      lastOne := if b + 1 = noBlocks then noOfBitsInLastBlock - 1 else 65535 }
  delayedStats := -1
  delayedBlock := -1
  delayedStatsSet := -1
  delayedBlockSet := -1

def ofRows (noObj : Nat) (allOnes : Bool) : Except String Filter :=
  if maxRowNumber < noObj then .error "Too many tuples.    (48)"
  else
    let bits := if noObj % 65536 = 0 then 0x10000 else noObj % 65536
    .ok (construct ((noObj + 0xFFFF) / 65536) (if noObj = 0 then 0 else bits) allOnes)

variable (f : Filter)

def clone : Filter :=
  { f with
    slots := fun b => (f.slots b).copyFrom
    delayedStats := -1
    delayedBlock := -1
    delayedStatsSet := -1
    delayedBlockSet := -1 }

def noObj : Nat :=
  (f.noBlocks - if f.noOfBitsInLastBlock = 0 then 0 else 1) * 65536 + f.noOfBitsInLastBlock

def blockSize (b : Nat) : Nat :=
  if b + 1 = f.noBlocks then f.noOfBitsInLastBlock else 65536

def get (f : Filter) (n : Nat) : Bool :=
  if f.noBlocks = 0 then false else (f.slots (n / 65536)).get (n % 65536)

def noOnes (f : Filter) : Nat :=
  if f.noBlocks = 0 then 0
  else forLoop (fun b count => count + (f.slots b).noOnes) 0 f.noBlocks 0

def isEmpty : Bool :=
  (List.range f.noBlocks).all fun b => decide ((f.slots b).status = .empty)

def onSlot (b : Nat) (change : Nat → Slot → Slot) : Filter :=
  { f with slots := Function.update f.slots b (change (f.blockSize b) (f.slots b)) }

/-! ### Updates -/

def setBlock (f : Filter) (b : Nat) : Filter := f.onSlot b fun size _ => Slot.setBlock size

def resetBlock (f : Filter) (b : Nat) : Filter := f.onSlot b fun _ s => s.resetBlock

def setAt (b n : Nat) : Filter := f.onSlot b fun size s => s.set size n

def resetAt (b n : Nat) : Filter := f.onSlot b fun size s => s.reset size n

def set (n : Nat) : Filter := f.setAt (n / 65536) (n % 65536)

def reset (n : Nat) : Filter := f.resetAt (n / 65536) (n % 65536)

/-- The common shape of `SetBetween(b1, n1, b2, n2)` and `ResetBetween(b1, n1, b2, n2)`. -/
def betweenBlocks (within : Nat → Nat → Nat → Slot → Slot) (whole : Filter → Nat → Filter)
    (f : Filter) (b1 n1 b2 n2 : Nat) : Filter :=
  if b1 = b2 then f.onSlot b1 (within n1 n2)
  else
    let first := if n1 = 0 then whole f b1 else f.onSlot b1 (within n1 65535)
    let inner := forLoop (fun i f => whole f i) (b1 + 1) (b2 - (b1 + 1)) first
    inner.onSlot b2 (within 0 n2)

def setBetweenBlocks (b1 n1 b2 n2 : Nat) : Filter :=
  betweenBlocks (fun n1 n2 size s => s.setBetween size n1 n2) setBlock f b1 n1 b2 n2

def resetBetweenBlocks (b1 n1 b2 n2 : Nat) : Filter :=
  betweenBlocks (fun n1 n2 size s => s.resetBetween size n1 n2) resetBlock f b1 n1 b2 n2

def setBetween (n1 n2 : Nat) : Filter :=
  if n1 = n2 then f.setAt (n1 / 65536) (n1 % 65536)
  else f.setBetweenBlocks (n1 / 65536) (n1 % 65536) (n2 / 65536) (n2 % 65536)

def resetBetween (n1 n2 : Nat) : Filter :=
  if n1 = n2 then f.resetAt (n1 / 65536) (n1 % 65536)
  else f.resetBetweenBlocks (n1 / 65536) (n1 % 65536) (n2 / 65536) (n2 % 65536)

def setAll : Filter :=
  if f.noBlocks = 0 then f
  else
    { f with
      slots := fun b => if b < f.noBlocks then Slot.setBlock (f.blockSize b) else f.slots b
      delayedStats := -1 }

def resetAll : Filter :=
  { f with
    slots := fun b => if b < f.noBlocks then (f.slots b).resetBlock else f.slots b
    delayedStats := -1 }

/-- The last one of a new empty block is not initialised. -/
def addNewBlocks (newBlocks : Nat) (value : Bool) (newNoBitsLast : Nat) : Filter :=
  { f with
    slots := fun i =>
      if f.noBlocks ≤ i ∧ i < f.noBlocks + newBlocks then
        if value then
          { status := .full
            block := none
            lastOne := if i + 1 = f.noBlocks + newBlocks then newNoBitsLast - 1 else 65535 }
        else { f.slots i with status := .empty, block := none }
      else f.slots i }

/-! The local variables of `Grow`. -/

def newBitsInLast (growSize : Nat) : Nat :=
  let bits := (f.noOfBitsInLastBlock + growSize) % 65536
  if bits = 0 then 0x10000 else bits

def bitsAddedToBlock (growSize : Nat) : Nat :=
  if 0x10000 - f.noOfBitsInLastBlock < growSize then 0x10000 - f.noOfBitsInLastBlock else growSize

def newBlocks (growSize : Nat) : Nat :=
  if f.noOfBitsInLastBlock = 0 then (growSize + 0xFFFF) / 65536
  else (growSize + 0xFFFF - (0x10000 - f.noOfBitsInLastBlock)) / 65536

/-- The previously last block is grown after the arrays got room for the new blocks. -/
def growLastBlock (growSize : Nat) (value : Bool) : Filter :=
  let newSize := if f.newBlocks growSize = 0 then f.newBitsInLast growSize else 0x10000
  let extended := f.addNewBlocks (f.newBlocks growSize) value (f.newBitsInLast growSize)
  if 0 < f.noBlocks ∧ 0 < f.bitsAddedToBlock growSize then
    extended.onSlot (f.noBlocks - 1) fun size s =>
      s.grow size (f.bitsAddedToBlock growSize) newSize value
  else extended

def grow (growSize : Nat) (value : Bool) : Filter :=
  if growSize = 0 then f
  else
    { f.growLastBlock growSize value with
      noBlocks := f.noBlocks + f.newBlocks growSize
      noOfBitsInLastBlock := f.newBitsInLast growSize }

/-! ### Delayed updates -/

def commitReset : Filter :=
  if -1 < f.delayedBlock then
    let b := f.delayedBlock.toNat
    let done :=
      if (f.slots b).status = .full ∧ 0 ≤ f.delayedStats then
        f.resetBetweenBlocks b 0 b f.delayedStats.toNat
      else f
    { done with delayedBlock := -1, delayedStats := -1 }
  else f

def commitSet : Filter :=
  if -1 < f.delayedBlockSet then
    let b := f.delayedBlockSet.toNat
    let done :=
      if (f.slots b).status = .empty ∧ 0 ≤ f.delayedStatsSet then
        f.setBetweenBlocks b 0 b f.delayedStatsSet.toNat
      else f
    { done with delayedBlockSet := -1, delayedStatsSet := -1 }
  else f

def commit : Filter := f.commitReset.commitSet

def resetDelayedAt (b pos : Nat) : Filter :=
  match (f.slots b).status with
  | .mixed => f.resetAt b pos
  | .empty => f
  | .full =>
    let ready :=
      if f.delayedBlock ≠ b then { f.commit with delayedBlock := b, delayedStats := -1 } else f
    if (pos : Int) = ready.delayedStats + 1 then
      { ready with delayedStats := ready.delayedStats + 1 }
    else if ready.delayedStats + 1 < pos then
      let before :=
        if 0 ≤ ready.delayedStats then ready.resetBetweenBlocks b 0 b ready.delayedStats.toNat
        else ready
      { before.resetAt b pos with delayedStats := -2 }
    else ready

def setDelayedAt (b pos : Nat) : Filter :=
  match (f.slots b).status with
  | .mixed => f.setAt b pos
  | .full => f
  | .empty =>
    let ready :=
      if f.delayedBlockSet ≠ b then
        { f.commit with delayedBlockSet := b, delayedStatsSet := -1 }
      else f
    if (pos : Int) = ready.delayedStatsSet + 1 then
      { ready with delayedStatsSet := ready.delayedStatsSet + 1 }
    else if ready.delayedStatsSet + 1 < pos then
      let before :=
        if 0 ≤ ready.delayedStatsSet then ready.setBetweenBlocks b 0 b ready.delayedStatsSet.toNat
        else ready
      { before.setAt b pos with delayedStatsSet := -2 }
    else ready

def resetDelayed (n : Nat) : Filter := f.resetDelayedAt (n / 65536) (n % 65536)

def setDelayed (n : Nat) : Filter := f.setDelayedAt (n / 65536) (n % 65536)

/-! ### Operations on two filters -/

def onBlocks (change : Slot → Nat → Slot → Slot) (f f2 : Filter) : Filter :=
  forLoop (fun b f => f.onSlot b fun size s => change s size (f2.slots b)) 0
    (min f2.noBlocks f.noBlocks) f

def and (f f2 : Filter) : Filter := onBlocks Slot.and f f2

/-- `Or(f2, pack)`; without a pack all blocks are joined. -/
def or (f f2 : Filter) : Option Nat → Filter
  | none => onBlocks Slot.or f f2
  | some pack =>
    if pack < min f2.noBlocks f.noBlocks then
      f.onSlot pack fun size s => s.or size (f2.slots pack)
    else f

def not (f : Filter) : Filter :=
  forLoop (fun b f => f.onSlot b fun size s => s.not size) 0 f.noBlocks f

def andNot (f f2 : Filter) : Filter := onBlocks Slot.andNot f f2

def resetBy (f f2 : Filter) : Filter := onBlocks Slot.resetBy f f2

def swapPack (f f2 : Filter) (pack : Nat) : Filter × Filter :=
  (f.onSlot pack fun _ s => (s.swapPack (f2.slots pack)).1,
    f2.onSlot pack fun _ s2 => ((f.slots pack).swapPack s2).2)

def copyBlock (f f2 : Filter) (block : Nat) : Filter :=
  f.onSlot block fun _ _ => (f2.slots block).copyFrom

end Filter

end Brighthouse.Core
