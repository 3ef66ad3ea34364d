import Brighthouse.Core.BinTools
import Brighthouse.Library.Loop
import Brighthouse.Library.WordTable

/-!
# Bit blocks of a filter

Functional model of `Filter::Block` of `core/Filter.h` and `core/Filter_Block.cpp`.
A block keeps a bit table, the number of its rows and a counter of its ones.  An
operation that tells its caller about a full or an empty block returns that flag
beside the new block.  The owner, the memory pool and its mutex are left out.
-/

set_option autoImplicit false

namespace Brighthouse.Core

open Library Library.Loop Library.WordTable

structure Block where
  blockTable : Table
  noObj : Nat
  noSetBits : Int

namespace Block

variable (b : Block)

def blockSize : Nat := (b.noObj + 31) / 32

def clean (value : Bool) : Block :=
  if value then { b with blockTable := fun _ => 0xFFFFFFFF#32, noSetBits := b.noObj }
  else { b with blockTable := cleared, noSetBits := 0 }

def init (noObj : Nat) (allFull : Bool) : Block :=
  clean { blockTable := cleared, noObj := noObj, noSetBits := 0 } allFull

/-- Words past the last row are not copied; no operation reads them before it writes them. -/
def copyFrom (block : Block) : Block :=
  { block with blockTable := fun i => if i < block.blockSize then block.blockTable i else 0#32 }

def lshift1 (i : Nat) : BitVec 32 := 1#32 <<< i

def get (n : Nat) : Bool := b.blockTable (n / 32) &&& lshift1 (n % 32) != 0#32

def noOnes : Nat := (b.noSetBits % 2 ^ 32).toNat

/-! ## Setting and resetting bits -/

def set (n : Nat) : Block × Bool :=
  let next :=
    if b.get n then b
    else { b with blockTable := setBit b.blockTable n, noSetBits := b.noSetBits + 1 }
  (next, next.noSetBits == 0 || next.noSetBits == next.noObj)

/-- `Set(n1, n2)`, which returns as soon as the block is full. -/
def setBetween (n1 n2 : Nat) : Block × Bool :=
  breakLoop (fun i b => b.set i) n1 (n2 + 1 - n1) b

def reset (n : Nat) : Block × Bool :=
  let next :=
    if b.get n then { b with blockTable := clearBit b.blockTable n, noSetBits := b.noSetBits - 1 }
    else b
  (next, next.noSetBits == 0)

def clearInWord (table : Table) (word first turns : Nat) : Table :=
  forLoop (fun i table => clearIn table word i) first turns table

/-- The branch of `Reset(n1, n2)` for a block that was just created as full. -/
def resetFullBetween (n1 n2 : Nat) : Block :=
  let bl1 := n1 / 32
  let bl2 := n2 / 32
  let off1 := n1 % 32
  let off2 := n2 % 32
  let table :=
    if bl1 = bl2 then clearInWord b.blockTable bl1 off1 (off2 + 1 - off1)
    else
      let first := clearInWord b.blockTable bl1 off1 (32 - off1)
      let inner :=
        forLoop (fun i table => Function.update table i 0#32) (bl1 + 1) (bl2 - (bl1 + 1)) first
      clearInWord inner bl2 0 (off2 + 1)
  { b with blockTable := table, noSetBits := b.noObj - (n2 - n1 + 1) }

/-- One bit of the first or the last word of `Reset(n1, n2)`.  The loop is left before
the bit is cleared when the counter reaches zero. -/
def resetInWord (word i : Nat) (b : Block) : Block × Bool :=
  if b.blockTable word &&& lshift1 i != 0#32 then
    let counted := { b with noSetBits := b.noSetBits - 1 }
    if counted.noSetBits = 0 then (counted, true)
    else ({ counted with blockTable := clearIn b.blockTable word i }, false)
  else (b, false)

def resetWord (i : Nat) (b : Block) : Block × Bool :=
  let next :=
    { b with
      noSetBits := b.noSetBits - calculateBinSum (b.blockTable i)
      blockTable := Function.update b.blockTable i 0#32 }
  (next, next.noSetBits == 0)

def resetWordsBetween (n1 n2 : Nat) : Block :=
  let bl1 := n1 / 32
  let bl2 := n2 / 32
  let off1 := n1 % 32
  let off2 := n2 % 32
  let first := (breakLoop (resetInWord bl1) off1 (32 - off1) b).1
  let inner :=
    if 0 < first.noSetBits then (breakLoop resetWord (bl1 + 1) (bl2 - (bl1 + 1)) first).1
    else first
  if 0 < inner.noSetBits then (breakLoop (resetInWord bl2) 0 (off2 + 1) inner).1 else inner

def resetBetween (n1 n2 : Nat) : Block × Bool :=
  let next :=
    if b.noSetBits = b.noObj then b.resetFullBetween n1 n2
    else if n1 / 32 = n2 / 32 then forLoop (fun i b => (b.reset i).1) n1 (n2 + 1 - n1) b
    else b.resetWordsBetween n1 n2
  (next, next.noSetBits == 0)

/-! ## Bitwise operations -/

/-- The loop of `And` and `AndNot`: bits that are not to be kept are reset. -/
def keep (kept : Nat → Bool) (mn : Nat) : Block × Bool :=
  let next := forLoop (fun n b => if b.get n && !kept n then (b.reset n).1 else b) 0 mn b
  (next, next.noSetBits == 0)

def and (b b2 : Block) : Block × Bool := b.keep b2.get (min b2.noObj b.noObj)

def andNot (b b2 : Block) : Block × Bool := b.keep (fun n => !b2.get n) (min b2.noObj b.noObj)

def or (b b2 : Block) : Block × Bool :=
  let words :=
    forLoop
      (fun i (b : Block) =>
        let word := b.blockTable i ||| b2.blockTable i
        { b with
          blockTable := Function.update b.blockTable i word
          noSetBits := b.noSetBits + calculateBinSum word })
      0 (b.noObj / 32) { b with noSetBits := 0 }
  let next :=
    forLoop
      (fun n b =>
        if b.get n then { b with noSetBits := b.noSetBits + 1 }
        else if b2.get n then (b.set n).1
        else b)
      (b.noObj / 32 * 32) (b.noObj % 32) words
  (next, next.noSetBits == 0 || next.noSetBits == next.noObj)

def not : Block :=
  let tail :=
    forLoop (fun n b => if b.get n then (b.reset n).1 else (b.set n).1)
      (b.noObj / 32 * 32) (b.noObj % 32) b
  let table :=
    forLoop (fun i table => Function.update table i (~~~table i)) 0 (b.noObj / 32) tail.blockTable
  { tail with blockTable := table, noSetBits := b.noObj - b.noSetBits }

/-! ## Growing -/

/-- `InitBits(n1, n2, value)` for the `count` bits from `n1` on. -/
def initBits (n1 count : Nat) (value : Bool) : Block :=
  forLoop
    (fun i b =>
      if value then { b with blockTable := setBit b.blockTable i, noSetBits := b.noSetBits + 1 }
      else { b with blockTable := clearBit b.blockTable i })
    n1 count b

def growBlock (growSize : Nat) (value : Bool) : Block :=
  { b.initBits b.noObj growSize value with noObj := b.noObj + growSize }

end Block

end Brighthouse.Core
