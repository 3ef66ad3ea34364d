import Brighthouse.Core.RCAttrPack

/-!
# Comparing integers on a packrow

Source: `EvaluatePack_BetweenInt` and `EvaluatePack_AttrAttr` of `core/RCAttr_exeq.cpp`.  Both
compare differences to the smallest value of a pack, in signed 64-bit words.
-/

set_option autoImplicit false

namespace Brighthouse.Core

open Library Library.Word64

def CompareOp.holds : CompareOp → Int → Int → Bool
  | eq, v1, v2 => v1 = v2
  | notEq, v1, v2 => v1 ≠ v2
  | less, v1, v2 => v1 < v2
  | lessEq, v1, v2 => v1 ≤ v2
  | more, v1, v2 => v1 > v2
  | moreEq, v1, v2 => v1 ≥ v2

namespace PackNode

variable (dpn : PackNode)

def lowerOffset (pv1 : Int) : Int :=
  if pv1 ≠ minusInf64 then wrap64 (pv1 - dpn.localMin) else 0

def upperOffset (pv2 : Int) : Int :=
  if pv2 ≠ plusInf64 then wrap64 (pv2 - dpn.localMin) else wrap64 (dpn.localMax - dpn.localMin)

end PackNode

namespace RCAttr

variable (a : RCAttr)

def isBetween (notBetween : Bool) (pv1 pv2 v : Int) : Bool :=
  (decide (pv1 ≤ v) && decide (v ≤ pv2)) != notBetween

def evaluatePackBetweenInt (pv1 pv2 : Int) (notBetween : Bool) (mit : PackrowWalk) : PackrowWalk :=
  match mit.getCurPackrow with
  | none => mit.resetCurrentPack.nextPackrow
  | some pack =>
    let dpn := a.dpns pack
    let low := dpn.lowerOffset pv1
    let high := dpn.upperOffset pv2
    if dpn.fileNullsOnly then mit.resetCurrentPack.nextPackrow
    else if dpn.localMin ≠ dpn.localMax then
      if notBetween = false ∧ mit.nullsPossibleInPack = false ∧ dpn.noNulls = 0 then
        -- easy and fast case: nulls are not looked for
        mit.walkPackrow fun mit =>
          decide (low > dpn.packGetVal64 mit.getCurInpack) ||
            decide (dpn.packGetVal64 mit.getCurInpack > high)
      else
        mit.walkPackrow fun mit =>
          mit.curPos.isNone || dpn.packIsNull mit.getCurInpack ||
            !isBetween notBetween low high (dpn.packGetVal64 mit.getCurInpack)
    else if (low > 0 ∨ high < 0) ∧ notBetween = false ∨ low ≤ 0 ∧ high ≥ 0 ∧ notBetween = true then
      mit.resetCurrentPack.nextPackrow
    else a.evaluatePackNotNull mit

/-- A pack that is not stored is a null pointer in the source, and its nulls are not read. -/
def packNull (dpn : PackNode) (inpack : Nat) : Bool := !dpn.trivial && dpn.packIsNull inpack

/-- The difference of a row to the smallest value of its pack. -/
def packOffset (dpn : PackNode) (inpack : Nat) : Int :=
  if dpn.localMin = dpn.localMax then 0 else dpn.packGetVal64 inpack

/-- `a2` is a column of the same table. -/
def evaluatePackAttrAttr (a2 : RCAttr) (op : CompareOp) (mit : PackrowWalk) : PackrowWalk :=
  match mit.getCurPackrow with
  | none => mit.resetCurrentPack.nextPackrow
  | some pack =>
    let dpn1 := a.dpns pack
    let dpn2 := a2.dpns pack
    if dpn1.noNulls = dpn1.noObjs + 1 ∨ dpn2.noNulls = dpn2.noObjs + 1 then
      mit.resetCurrentPack.nextPackrow
    else
      let val1Offset := wrap64 (dpn1.localMin - dpn2.localMin)
      mit.walkPackrow fun mit =>
        mit.curPos.isNone || packNull dpn1 mit.getCurInpack || packNull dpn2 mit.getCurInpack ||
          !op.holds (wrap64 (packOffset dpn1 mit.getCurInpack + val1Offset))
            (packOffset dpn2 mit.getCurInpack)

end RCAttr

end Brighthouse.Core
