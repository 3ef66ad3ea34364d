import Brighthouse.Core.BinTools

/-!
# Iterators of a multiindex

Functional model of `core/MIIterator.h` and `core/MIIterator.cpp`.  An iterator walks
through the combinations of the tuples of several dimension groups.  Every group has its
own iterator, an object of a class derived from `DimensionGroup::Iterator`.

The part of `cur_pos` that `FillCurrentPos` writes for a group is kept beside the iterator
of the group.  Locks, omitted groups, `cur_pack` and the number of tuples are left out.
-/

set_option autoImplicit false

namespace Brighthouse.Core

open Library.Word64

/-- The virtual methods of `DimensionGroup::Iterator` that an iterator of a multiindex
calls.  `current` is what `FillCurrentPos` reads. -/
class GroupIterator (σ : Type) (τ : outParam Type) where
  increment : σ → σ
  rewind : σ → σ
  nextInsidePack : σ → Bool × σ
  nextPackrow : σ → σ
  isValid : σ → Bool
  getPackSizeLeft : σ → Int
  current : σ → τ

open GroupIterator

/-- An iterator of a group with its part of `cur_pos`, which is null before the first
`FillCurrentPos`. -/
structure GroupCursor (σ τ : Type) where
  it : σ
  curPos : Option τ

/-- `oneFilter` says that `one_filter_dim` is not -1. -/
structure MIIterator (σ τ : Type) where
  it : List (GroupCursor σ τ)
  oneFilter : Bool
  valid : Bool
  packSizeLeft : Int
  nextPackStarted : Bool

variable {σ τ : Type} [GroupIterator σ τ]

def fillCurrentPos (it : σ) : GroupCursor σ τ := ⟨it, some (current it)⟩

/-! ## Loops over the groups

Each loop returns whether it was left with success and the groups after it. -/

def rewindGroups : List (GroupCursor σ τ) → Bool × List (GroupCursor σ τ)
  | [] => (true, [])
  | c :: cs =>
    let it := rewind c.it
    if isValid it then
      let rest := rewindGroups cs
      (rest.1, fillCurrentPos it :: rest.2)
    else (false, { c with it := it } :: cs)

/-- The first loop of `GeneralIncrement` ends at the first group that stays in its pack. -/
def nextInsidePacks : List (GroupCursor σ τ) → Bool × List (GroupCursor σ τ)
  | [] => (false, [])
  | c :: cs =>
    let moved := nextInsidePack c.it
    if moved.1 then (true, fillCurrentPos moved.2 :: cs)
    else
      let rest := nextInsidePacks cs
      (rest.1, fillCurrentPos moved.2 :: rest.2)

/-- The second loop of `GeneralIncrement` and the loop of `NextPackrow` end at the first
group that has another packrow.  Only the first of them rewinds the last group. -/
def nextPackrows (rewindLast : Bool) : List (GroupCursor σ τ) → Bool × List (GroupCursor σ τ)
  | [] => (false, [])
  | c :: cs =>
    let it := nextPackrow c.it
    if isValid it then (true, fillCurrentPos it :: cs)
    else if cs.isEmpty && !rewindLast then (false, [{ c with it := it }])
    else
      let again := rewind it
      if isValid again then
        let rest := nextPackrows rewindLast cs
        (rest.1, fillCurrentPos again :: rest.2)
      else (false, { c with it := again } :: cs)

namespace MIIterator

variable (m : MIIterator σ τ)

def getPackSizeLeft : Int := m.packSizeLeft

def packrowStarted : Bool := m.nextPackStarted

def curPos (m : MIIterator σ τ) : List (Option τ) := m.it.map GroupCursor.curPos

def packrowSize (cs : List (GroupCursor σ τ)) : Int :=
  cs.foldl (fun size c => safeMultiplication size (GroupIterator.getPackSizeLeft c.it)) 1

def initNextPackrow : MIIterator σ τ :=
  if m.valid then { m with packSizeLeft := packrowSize m.it, nextPackStarted := true } else m

def rewind : MIIterator σ τ :=
  if m.it.isEmpty then { m with valid := false, packSizeLeft := 0 }
  else
    let groups := rewindGroups m.it
    if groups.1 then
      { m with
        it := groups.2
        valid := true
        packSizeLeft := 0
        nextPackStarted := true }.initNextPackrow
    else { m with it := groups.2, valid := false, packSizeLeft := 0 }

def generalIncrement : MIIterator σ τ :=
  let inside := nextInsidePacks m.it
  if inside.1 then { m with it := inside.2 }
  else
    let next := nextPackrows true inside.2
    { m with it := next.2, valid := m.valid && next.1 }

def filterIncrement : MIIterator σ τ :=
  match m.it with
  | [] => m
  | c :: cs =>
    let it := increment c.it
    if isValid it then
      let moved :=
        { m with it := fillCurrentPos it :: cs, valid := true, packSizeLeft := m.packSizeLeft - 1 }
      if moved.packSizeLeft = 0 then moved.initNextPackrow else moved
    else
      { m with it := { c with it := it } :: cs, valid := false, packSizeLeft := m.packSizeLeft - 1 }

def increment : MIIterator σ τ :=
  let started := { m with nextPackStarted := false }
  if m.oneFilter then started.filterIncrement
  else
    let moved := started.generalIncrement
    -- A packrow whose size is not known is too large to be iterated through.
    if moved.packSizeLeft = nullValue64 then moved
    else
      let counted := { moved with packSizeLeft := moved.packSizeLeft - 1 }
      if counted.packSizeLeft = 0 then counted.initNextPackrow else counted

def nextPackrow : MIIterator σ τ :=
  if m.valid then
    let next := nextPackrows false m.it
    if next.1 then { m with it := next.2 }.initNextPackrow
    else { m with it := next.2, valid := false }
  else m

/-- The first loop of `Skip`; `none` if it takes more turns than given. -/
def skipPackrows (offset : Int) : Nat → Int → MIIterator σ τ → Option (Int × MIIterator σ τ)
  | 0, _, _ => none
  | turns + 1, skipped, m =>
    let next := wrap64 (skipped + m.packSizeLeft)
    if m.valid ∧ next < offset then skipPackrows offset turns next m.nextPackrow
    else some (skipped, m)

def skipTuples : Nat → MIIterator σ τ → MIIterator σ τ
  | 0, m => m
  | left + 1, m => if m.valid then skipTuples left m.increment else m

def skip (turns : Nat) (offset : Int) (m : MIIterator σ τ) : Option (MIIterator σ τ) :=
  (skipPackrows offset turns 0 m).map fun (skipped, m) => skipTuples (offset - skipped).toNat m

end MIIterator

end Brighthouse.Core
