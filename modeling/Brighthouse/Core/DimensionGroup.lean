import Brighthouse.Core.FilterOnesIterator
import Brighthouse.Core.MIIterator

/-!
# Iterators of dimension groups

Functional model of the iterators of `core/DimensionGroup.h`, `core/DimensionGroup.cpp`,
`core/DimensionGroupVirtual.h` and `core/DimensionGroupVirtual.cpp`: a group is a filter on
one dimension, a set of index tables with one entry for every tuple, or a filter with
index tables beside it.

Iterators in a given order of packs are left out, and so are look-ahead and locks.  Row
numbers in index tables are one greater than the rows, zero is a null row.
-/

set_option autoImplicit false

namespace Brighthouse.Core

open GroupIterator

/-- The tuple at which the iterator of a group stands: a row of its filter, a position in
its index tables, or both. -/
inductive GroupTuple where
  | row (r : Nat)
  | index (i : Nat)
  | rowIndex (r i : Nat)
  deriving DecidableEq, Repr

/-! ## Filters -/

structure DGFilterIterator where
  fi : FilterOnesIterator
  valid : Bool

namespace DGFilterIterator

/-- The constructor; a new iterator is valid if the filter has ones. -/
def init (f : Filter) : DGFilterIterator := ⟨.init f, f.noOnes != 0⟩

def increment (it : DGFilterIterator) : DGFilterIterator := ⟨it.fi.increment, it.fi.increment.valid⟩

def rewind (it : DGFilterIterator) : DGFilterIterator := ⟨it.fi.rewind, it.fi.rewind.valid⟩

def nextInsidePack (it : DGFilterIterator) : Bool × DGFilterIterator :=
  let moved := it.fi.nextInsidePack
  (moved.1, ⟨moved.2, moved.2.valid⟩)

def nextPackrow (it : DGFilterIterator) : DGFilterIterator := ⟨it.fi.nextPack, it.fi.nextPack.valid⟩

def getPackSizeLeft (it : DGFilterIterator) : Int := it.fi.getPackSizeLeft

instance : GroupIterator DGFilterIterator GroupTuple where
  increment := increment
  rewind := rewind
  nextInsidePack := nextInsidePack
  nextPackrow := nextPackrow
  isValid := valid
  getPackSizeLeft := getPackSizeLeft
  current it := .row it.fi.curPosition.toNat

end DGFilterIterator

/-! ## Filters with index tables -/

structure DGVirtualIterator where
  fi : FilterOnesIterator
  valid : Bool
  dimPos : Int
  curPackStart : Int

namespace DGVirtualIterator

def init (f : Filter) : DGVirtualIterator := ⟨.init f, f.noOnes != 0, 0, 0⟩

/-- The start of the pack is not kept up to date here. -/
def increment (it : DGVirtualIterator) : DGVirtualIterator :=
  { it with fi := it.fi.increment, valid := it.fi.increment.valid, dimPos := it.dimPos + 1 }

def rewind (it : DGVirtualIterator) : DGVirtualIterator := ⟨it.fi.rewind, it.fi.rewind.valid, 0, 0⟩

def nextInsidePack (it : DGVirtualIterator) : Bool × DGVirtualIterator :=
  let moved := it.fi.nextInsidePack
  (moved.1,
    { it with
      fi := moved.2
      valid := moved.2.valid
      dimPos := if moved.1 then it.dimPos + 1 else it.curPackStart })

def nextPackrow (it : DGVirtualIterator) : DGVirtualIterator :=
  let dimPos := it.dimPos + it.fi.getPackSizeLeft
  ⟨it.fi.nextPack, it.fi.nextPack.valid, dimPos, dimPos⟩

def getPackSizeLeft (it : DGVirtualIterator) : Int := it.fi.getPackSizeLeft

instance : GroupIterator DGVirtualIterator GroupTuple where
  increment := increment
  rewind := rewind
  nextInsidePack := nextInsidePack
  nextPackrow := nextPackrow
  isValid := valid
  getPackSizeLeft := getPackSizeLeft
  current it := .rowIndex it.fi.curPosition.toNat it.dimPos.toNat

end DGVirtualIterator

/-! ## Index tables -/

/-- `origSize` is the number of rows of the table that the entries point to. -/
structure IndexTable where
  get64 : Nat → Nat
  blockShift : Nat
  origSize : Nat

def IndexTable.endOfCurrentBlock (t : IndexTable) (n : Nat) : Nat :=
  (n / 2 ^ t.blockShift + 1) * 2 ^ t.blockShift

def IndexTable.packAt (t : IndexTable) (n : Nat) : Nat := (t.get64 n - 1) / 65536

structure IndexedDim where
  t : IndexTable
  nullsPossible : Bool

/-- `while(loc < limit && cond(loc)) ++loc;` with `turns` entries up to the limit. -/
def scanWhile (cond : Nat → Bool) : Nat → Nat → Nat
  | 0, loc => loc
  | turns + 1, loc => if cond loc then scanWhile cond turns (loc + 1) else loc

def jumpToNextPack (t : IndexTable) (loc limit : Nat) : Nat :=
  if limit ≤ loc then loc
  else scanWhile (fun n => t.packAt n == t.packAt loc) (limit - (loc + 1)) (loc + 1)

/-- The fields of `DGMaterializedIterator` for one dimension.  A position that is not known
is -1. -/
structure DimCursor where
  dim : IndexedDim
  onePackrow : Bool
  nullsFound : Bool
  curPack : Int
  nextPack : Nat
  ahead1 : Int
  ahead2 : Int
  ahead3 : Int

namespace DimCursor

def limit (noObj : Nat) (t : IndexTable) (loc : Nat) : Nat := min noObj (t.endOfCurrentBlock loc)

def knownOrJump (t : IndexTable) (ahead : Int) (loc limit : Nat) : Nat :=
  if ahead = -1 then jumpToNextPack t loc limit else ahead.toNat

def inBlock (pos limit : Nat) : Int := if pos < limit then pos else -1

def findPackEndNoNulls (noObj : Nat) (d : DimCursor) : DimCursor :=
  let t := d.dim.t
  let stop := limit noObj t d.nextPack
  let found := { d with nullsFound := false, curPack := t.packAt d.nextPack }
  if t.origSize ≤ 0xFFFF then
    { found with nextPack := stop, ahead1 := -1, ahead2 := -1, ahead3 := -1 }
  else
    let pos1 := knownOrJump t d.ahead1 d.nextPack stop
    let pos2 := knownOrJump t d.ahead2 pos1 stop
    let pos3 := knownOrJump t d.ahead3 pos2 stop
    let pos4 := jumpToNextPack t pos3 stop
    { found with
      nextPack := pos1, ahead1 := inBlock pos2 stop, ahead2 := inBlock pos3 stop
      ahead3 := inBlock pos4 stop }

/-- `FindPackEnd` when null rows are possible: null rows belong to the pack of the rows
around them. -/
def findPackEndNulls (noObj : Nat) (d : DimCursor) : DimCursor :=
  let t := d.dim.t
  let stop := limit noObj t d.nextPack
  let first := scanWhile (fun n => t.get64 n == 0) (stop - d.nextPack) d.nextPack
  if first < stop then
    let last :=
      scanWhile (fun n => t.get64 n == 0 || t.packAt n == t.packAt first) (stop - (first + 1))
        (first + 1)
    { d with
      nullsFound := (List.range' d.nextPack (last - d.nextPack)).any (fun n => t.get64 n == 0)
      curPack := t.packAt first
      nextPack := last }
  else { d with nullsFound := decide (d.nextPack < first), curPack := -1, nextPack := first }

def findPackEnd (noObj : Nat) (d : DimCursor) : DimCursor :=
  if d.dim.nullsPossible then d.findPackEndNulls noObj else d.findPackEndNoNulls noObj

def initPackrow (noObj curPos : Nat) (d : DimCursor) : DimCursor :=
  if d.nextPack ≤ curPos then
    if !d.onePackrow || d.dim.nullsPossible then d.findPackEnd noObj
    else
      { d with
        nextPack := limit noObj d.dim.t curPos, curPack := d.dim.t.packAt curPos
        ahead1 := -1, ahead2 := -1, ahead3 := -1 }
  else d

def rewind (d : DimCursor) : DimCursor :=
  { d with nextPack := 0, ahead1 := -1, ahead2 := -1, ahead3 := -1 }

def init (noObj : Nat) (dim : IndexedDim) : DimCursor where
  dim := dim
  onePackrow := decide (dim.t.origSize ≤ 0xFFFF) && decide (noObj ≤ dim.t.endOfCurrentBlock 0)
  nullsFound := false
  curPack := -1
  nextPack := 0
  ahead1 := -1
  ahead2 := -1
  ahead3 := -1

end DimCursor

/-- `dims` are the dimensions that have an index table and are iterated. -/
structure DGMaterializedIterator where
  noObj : Nat
  dims : List DimCursor
  valid : Bool
  curPos : Nat
  curPackStart : Nat
  packSizeLeft : Nat

namespace DGMaterializedIterator

def initPackrow (it : DGMaterializedIterator) : DGMaterializedIterator :=
  if it.noObj ≤ it.curPos then { it with valid := false }
  else
    let dims := it.dims.map (·.initPackrow it.noObj it.curPos)
    let curEndPackrow := dims.foldl (fun stop d => min stop d.nextPack) it.noObj
    { it with
      dims := dims
      packSizeLeft := curEndPackrow - it.curPos
      curPackStart := it.curPos }

def rewind (it : DGMaterializedIterator) : DGMaterializedIterator :=
  { it with
    curPos := 0, curPackStart := 0, valid := true
    dims := it.dims.map DimCursor.rewind }.initPackrow

def init (noObj : Nat) (dims : List IndexedDim) : DGMaterializedIterator :=
  rewind
    { noObj := noObj, dims := dims.map (DimCursor.init noObj), valid := false, curPos := 0
      curPackStart := 0, packSizeLeft := 0 }

variable (it : DGMaterializedIterator)

def increment : DGMaterializedIterator :=
  let moved := { it with curPos := it.curPos + 1, packSizeLeft := it.packSizeLeft - 1 }
  if moved.packSizeLeft = 0 then moved.initPackrow else moved

def nextInsidePack : Bool × DGMaterializedIterator :=
  let moved := { it with curPos := it.curPos + 1, packSizeLeft := it.packSizeLeft - 1 }
  if moved.packSizeLeft = 0 then
    (false, { moved with
      packSizeLeft := moved.curPos - it.curPackStart, curPos := it.curPackStart })
  else (true, moved)

def nextPackrow : DGMaterializedIterator :=
  { it with curPos := it.curPos + it.packSizeLeft }.initPackrow

def getPackSizeLeft : Int := it.packSizeLeft

instance : GroupIterator DGMaterializedIterator GroupTuple where
  increment := increment
  rewind := rewind
  nextInsidePack := nextInsidePack
  nextPackrow := nextPackrow
  isValid := valid
  getPackSizeLeft := getPackSizeLeft
  current it := .index it.curPos

end DGMaterializedIterator

/-! ## Groups -/

inductive DimensionGroup where
  | filter (f : Filter)
  | materialized (noObj : Nat) (dims : List IndexedDim)
  | virtual (f : Filter)

inductive DimensionGroupIterator where
  | filter (it : DGFilterIterator)
  | materialized (it : DGMaterializedIterator)
  | virtual (it : DGVirtualIterator)

namespace DimensionGroupIterator

def isFilter : DimensionGroupIterator → Bool
  | .filter _ => true
  | _ => false

instance : GroupIterator DimensionGroupIterator GroupTuple where
  increment
    | .filter it => .filter (increment it)
    | .materialized it => .materialized (increment it)
    | .virtual it => .virtual (increment it)
  rewind
    | .filter it => .filter (rewind it)
    | .materialized it => .materialized (rewind it)
    | .virtual it => .virtual (rewind it)
  nextInsidePack
    | .filter it => (nextInsidePack it).map id .filter
    | .materialized it => (nextInsidePack it).map id .materialized
    | .virtual it => (nextInsidePack it).map id .virtual
  nextPackrow
    | .filter it => .filter (nextPackrow it)
    | .materialized it => .materialized (nextPackrow it)
    | .virtual it => .virtual (nextPackrow it)
  isValid
    | .filter it => isValid it
    | .materialized it => isValid it
    | .virtual it => isValid it
  getPackSizeLeft
    | .filter it => getPackSizeLeft it
    | .materialized it => getPackSizeLeft it
    | .virtual it => getPackSizeLeft it
  current
    | .filter it => current it
    | .materialized it => current it
    | .virtual it => current it

end DimensionGroupIterator

def DimensionGroup.newIterator : DimensionGroup → DimensionGroupIterator
  | .filter f => .filter (.init f)
  | .materialized noObj dims => .materialized (.init noObj dims)
  | .virtual f => .virtual (.init f)

/-- The iterators of the groups as `Init` creates them, in the order in which they are to be
iterated. -/
def MIIterator.created (dg : List DimensionGroup) : MIIterator DimensionGroupIterator GroupTuple :=
  let it := dg.map fun g => (⟨g.newIterator, none⟩ : GroupCursor DimensionGroupIterator GroupTuple)
  { it := it
    oneFilter := it.length == 1 && it.all (·.it.isFilter)
    valid := false
    packSizeLeft := 0
    nextPackStarted := false }

def MIIterator.init (dg : List DimensionGroup) : MIIterator DimensionGroupIterator GroupTuple :=
  (created dg).rewind

end Brighthouse.Core
