import Brighthouse.Core.Pack
import Brighthouse.Core.PackrowWalk
import Brighthouse.Library.Word64

/-!
# Evaluating a condition on a packrow

The data of a column and `EvaluatePack_NotNull` of `core/RCAttr_exeq.cpp`.
-/

set_option autoImplicit false

namespace Brighthouse.Core

open Library Library.Word64

/-- A data pack node and the pack itself.  A trivial pack is not stored, and the functions of
its pack are not called. -/
structure PackNode extends Dpn where
  trivial : Bool
  localMin : Int
  localMax : Int
  packIsNull : Nat → Bool
  packGetVal64 : Nat → Int

structure RCAttr where
  dpns : Nat → PackNode
  noObj : Nat
  value : Nat → Option Int

namespace RCAttr

variable (a : RCAttr)

def evaluatePackNotNull (mit : PackrowWalk) : PackrowWalk :=
  match mit.getCurPackrow with
  | none => mit.resetCurrentPack.nextPackrow
  | some pack =>
    let dpn := a.dpns pack
    if dpn.trivial = false ∧ dpn.noNulls ≠ 0 then
      mit.walkPackrow fun mit => mit.curPos.isNone || dpn.packIsNull mit.getCurInpack
    else
      let done :=
        if dpn.nullsOnly then mit.resetCurrentPack
        else if mit.nullsPossibleInPack then mit.walkPackrow fun mit => mit.curPos.isNone
        else mit
      done.nextPackrow

/-! ## Sound columns -/

def packSize (k : Nat) : Nat := min 65536 (a.noObj - k * 65536)

def packRows (k : Nat) : List (Option Int) :=
  (List.range (a.packSize k)).map fun i => a.value (k * 65536 + i)

/-- The nodes describe which rows are null.  A pack that is trivial although it has nulls has
nothing else. -/
structure SoundNulls : Prop where
  counts : ∀ k, 0 < a.packSize k → (a.dpns k).toDpn.Counts (a.packRows k)
  trivial_nulls : ∀ k, (a.dpns k).trivial = true → (a.dpns k).noNulls ≠ 0 →
    (a.dpns k).fileNullsOnly = true
  isNull : ∀ obj < a.noObj, (a.dpns (obj / 65536)).trivial = false →
    ((a.dpns (obj / 65536)).packIsNull (obj % 65536) = true ↔ a.value obj = none)

/-- The nodes describe the values of a numeric column, which are stored as the unsigned
differences to the smallest one. -/
structure SoundValues : Prop where
  bounds : ∀ obj < a.noObj, ∀ v, a.value obj = some v →
    (a.dpns (obj / 65536)).localMin ≤ v ∧ v ≤ (a.dpns (obj / 65536)).localMax
  isInt64 : ∀ k, IsInt64 (a.dpns k).localMin ∧ IsInt64 (a.dpns k).localMax
  getVal64 : ∀ obj < a.noObj, (a.dpns (obj / 65536)).trivial = false → ∀ v, a.value obj = some v →
    (a.dpns (obj / 65536)).packGetVal64 (obj % 65536) =
      wrap64 (v - (a.dpns (obj / 65536)).localMin)
  trivial_uniform : ∀ k, (a.dpns k).trivial = true → (a.dpns k).fileNullsOnly = false →
    (a.dpns k).localMin = (a.dpns k).localMax

/-- The value of a tuple; a null row of an outer join counts as a null. -/
def rowValue (r : Option Nat) : Option Int := r.bind a.value

end RCAttr

end Brighthouse.Core
