import Brighthouse.Core.DimensionGroup

/-!
# Iterators that remove tuples of a multiindex

Source: `core/MIUpdatingIterator.{h,cpp}` and `MultiIndex::MIFilterAnd` of
`core/MultiIndex.cpp`, for multiindices whose tuples are not one plain filter.  The iterator
then collects the removed tuples in a filter over their numbers.
-/

set_option autoImplicit false

namespace Brighthouse.Core

structure MIUpdatingIterator (σ τ : Type) where
  mit : MIIterator σ τ
  noObj : Nat
  changed : Bool
  multiDimFilter : Filter
  multiFilterPos : Int
  multiFilterPackStart : Int

variable {σ τ : Type} [GroupIterator σ τ]

namespace MIUpdatingIterator

def resetCurrent (u : MIUpdatingIterator σ τ) : MIUpdatingIterator σ τ :=
  { u with changed := true, multiDimFilter := u.multiDimFilter.resetDelayed u.multiFilterPos.toNat }

def resetCurrentPack (u : MIUpdatingIterator σ τ) : MIUpdatingIterator σ τ :=
  { u with
    changed := true
    multiDimFilter := u.multiDimFilter.commit.resetBetween u.multiFilterPackStart.toNat
      (u.multiFilterPos + u.mit.packSizeLeft - 1).toNat }

def increment (u : MIUpdatingIterator σ τ) : MIUpdatingIterator σ τ :=
  let mit := u.mit.increment
  let pos := u.multiFilterPos + 1
  { u with
    mit := mit
    multiFilterPos := pos
    multiFilterPackStart := if mit.nextPackStarted then pos else u.multiFilterPackStart }

def nextPackrow (u : MIUpdatingIterator σ τ) : MIUpdatingIterator σ τ :=
  { u with
    mit := u.mit.nextPackrow
    multiFilterPos := u.multiFilterPos + u.mit.packSizeLeft }

end MIUpdatingIterator

/-! ## Commit -/

def MIIterator.filterAnd (fd : Filter) : Nat → MIIterator σ τ → Nat → List (List (Option τ))
  | 0, _, _ => []
  | turns + 1, mit, fPos =>
    if mit.valid then
      (if fd.get fPos then [mit.curPos] else []) ++ filterAnd fd turns mit.increment (fPos + 1)
    else []

def MIIterator.tuples : Nat → MIIterator σ τ → List (List (Option τ))
  | 0, _ => []
  | turns + 1, mit => if mit.valid then mit.curPos :: tuples turns mit.increment else []

/-- The tuples of the multiindex after `Commit`. -/
def MIUpdatingIterator.commit (u : MIUpdatingIterator σ τ) : List (List (Option τ)) :=
  if u.changed then u.mit.rewind.filterAnd u.multiDimFilter.commit u.noObj 0
  else u.mit.rewind.tuples u.noObj

/-! ## Construction -/

def DimensionGroup.noTuples : DimensionGroup → Nat
  | .filter f => f.noOnes
  | .materialized noObj _ => noObj
  | .virtual f => f.noOnes

/-- The part of `MIIterator::Init` that computes `no_obj` from the groups of the multiindex. -/
def MIIterator.noObj (dimGroups : List DimensionGroup) (valid : Bool) : Int :=
  if dimGroups.isEmpty || !valid then 0
  else dimGroups.foldl (fun noObj g => safeMultiplication noObj g.noTuples) 1

/-- `Filter(no_obj)` with the number of blocks as an `int`.  That `no_obj` is not negative is
asserted in debug builds only. -/
def Filter.ofNoObj (noObj : Int) : Except String Filter :=
  if 0 ≤ noObj then Filter.ofRows noObj.toNat false
  else
    .ok (Filter.construct ((noObj + 0xFFFF) / 65536 % 2 ^ 32).toNat
      (if noObj % 65536 = 0 then 0x10000 else (noObj % 65536).toNat) false)

/-- The iterator goes through the groups of `dimGroups` in the order `dg`.  Where they are one
plain filter it works on that filter and makes no `multi_dim_filter`. -/
def MIUpdatingIterator.init (dimGroups dg : List DimensionGroup) :
    Except String (Option (MIUpdatingIterator DimensionGroupIterator GroupTuple)) :=
  let mit := MIIterator.init dg
  let noObj := MIIterator.noObj dimGroups mit.valid
  if mit.oneFilter then .ok none
  else (Filter.ofNoObj noObj).map fun f => some
    { mit := mit
      noObj := noObj.toNat
      changed := false
      multiDimFilter := f.setAll
      multiFilterPos := 0
      multiFilterPackStart := 0 }

end Brighthouse.Core
