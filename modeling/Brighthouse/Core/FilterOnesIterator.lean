import Brighthouse.Core.Filter
import Brighthouse.Core.FilterWordScan

/-!
# Iterators over the ones of a filter

Functional model of `FilterOnesIterator` of `core/Filter.h` and `core/FilterIterators.cpp`.
The iterator goes from one to one and jumps over empty blocks.

The look-ahead buffer and the limit on the number of packs are left out: the buffer is
empty and `packs_to_go` is -1.
-/

set_option autoImplicit false

namespace Brighthouse.Core

structure FilterOnesIterator where
  f : Filter
  valid : Bool
  curPosition : Int
  iteratorB : Int
  iteratorN : Nat
  curBlockFull : Bool
  curBlockEmpty : Bool
  prevBlock : Int
  onesLeftInBlock : Int
  lastn : Int
  scan : WordScan

namespace Filter

def skipEmpty (f : Filter) : Nat → Nat → Nat
  | 0, b => b
  | turns + 1, b => if (f.slots b).status = .empty then f.skipEmpty turns (b + 1) else b

def nextBlock (f : Filter) (b : Nat) : Nat := f.skipEmpty (f.noBlocks - b) b

end Filter

namespace FilterOnesIterator

variable (it : FilterOnesIterator)

def currentSlot : Slot := it.f.slots it.iteratorB.toNat

def isEndOfBlock : Bool :=
  it.iteratorN == 65535 ||
    (it.iteratorB == it.f.noBlocks - 1 && (it.iteratorN : Int) == it.f.noOfBitsInLastBlock - 1) ||
    (it.curBlockFull && decide (it.currentSlot.lastOne ≤ it.iteratorN))

def readStatus : FilterOnesIterator :=
  { it with
    curBlockFull := it.currentSlot.status == .full
    curBlockEmpty := it.currentSlot.status == .empty }

def iteratorBpp : Bool × FilterOnesIterator :=
  let b := it.f.nextBlock (it.iteratorB + 1).toNat
  let moved := { it with iteratorN := 0, iteratorB := b }
  if it.f.noBlocks ≤ b then (false, moved) else (true, moved.readStatus)

/-- The part of `FindOneInsidePack` that counts the ones that are left in the block. -/
def countOnes (block : Block) : FilterOnesIterator :=
  if it.iteratorB = it.prevBlock then { it with onesLeftInBlock := it.onesLeftInBlock - 1 }
  else
    { it with
      scan := ⟨0, 0, 0⟩
      lastn := -2
      prevBlock := it.iteratorB
      onesLeftInBlock := block.noSetBits }

/-- Behind the last one the word goes on. -/
def startScan (block : Block) : WordScan :=
  if it.lastn + 1 = it.iteratorN then
    { it.scan with b := it.scan.b >>> 1, bitsLeft := it.scan.bitsLeft - 1 }
  else
    let bitno := it.iteratorN % 32
    ⟨block.blockTable (it.iteratorN / 32) >>> bitno, it.iteratorN / 32, 32 - bitno⟩

def findOneInsidePack : Bool × FilterOnesIterator :=
  match it.currentSlot.block with
  | none => (false, it)
  | some block =>
    let it := it.countOnes block
    if it.iteratorN < block.noObj then
      -- A second turn is never needed: the first one that is left is in the first portion.
      let found := block.scan 2 it.iteratorN (it.startScan block)
      (found.1,
        { it with
          iteratorN := found.2.1
          scan := found.2.2
          lastn := if found.1 then found.2.1 else it.lastn })
    else (false, it)

def setPosition : FilterOnesIterator :=
  { it with curPosition := it.iteratorB * 65536 + it.iteratorN }

/-- The loop of `operator++`, which goes on with the next block until a one is found.  There
are at most as many turns as blocks. -/
def seek : Nat → FilterOnesIterator → FilterOnesIterator
  | 0, it => it
  | turns + 1, it =>
    let nextTurn (it : FilterOnesIterator) :=
      let next := it.iteratorBpp
      if next.1 then seek turns next.2 else { next.2 with valid := false }
    if it.curBlockFull then it.setPosition
    else if it.curBlockEmpty then nextTurn it
    else
      let found := it.findOneInsidePack
      if found.1 then found.2.setPosition else nextTurn found.2

def increment : FilterOnesIterator :=
  if it.isEndOfBlock then
    let next := it.iteratorBpp
    if next.1 then seek it.f.noBlocks next.2 else { next.2 with valid := false }
  else seek it.f.noBlocks { it with iteratorN := it.iteratorN + 1 }

def reset : FilterOnesIterator :=
  { it with
    curPosition := -1
    scan := ⟨0, 0, 0⟩
    lastn := 0
    prevBlock := -1
    valid := true
    iteratorN := 65535
    iteratorB := -1 }

def rewind : FilterOnesIterator := it.reset.increment

def nextPack : FilterOnesIterator :=
  { it with iteratorN := 65535 }.increment

/-- The loop of `NextInsidePack`.  In a block that has a one it makes at most two turns. -/
def seekInside : Nat → Bool → FilterOnesIterator → Bool × FilterOnesIterator
  | 0, insidePack, it => (insidePack, it)
  | turns + 1, insidePack, it =>
    if it.curBlockFull then (insidePack, it.setPosition)
    else if it.curBlockEmpty then (false, it)
    else
      let found := it.findOneInsidePack
      if found.1 then (insidePack, found.2.setPosition)
      else seekInside turns false { found.2 with iteratorN := 0, prevBlock := -1 }

/-- The result says whether the iterator is still in the same round through the pack. -/
def nextInsidePack : Bool × FilterOnesIterator :=
  if it.isEndOfBlock then seekInside 2 false { it with iteratorN := 0, prevBlock := -1 }
  else seekInside 2 true { it with iteratorN := it.iteratorN + 1 }

def getPackSizeLeft : Int :=
  if it.valid then
    if it.curBlockFull then it.currentSlot.lastOne + 1 - it.iteratorN else it.onesLeftInBlock
  else 0

/-- `Init`; the fields that `Reset` does not set get the values of the default constructor. -/
def init (f : Filter) : FilterOnesIterator :=
  rewind
    { f := f, valid := false, curPosition := -1, iteratorB := -1, iteratorN := 0
      curBlockFull := false, curBlockEmpty := false, prevBlock := -1, onesLeftInBlock := 0
      lastn := -2, scan := ⟨0, 0, 0⟩ }

end FilterOnesIterator

end Brighthouse.Core
