import Brighthouse.Core.CommonDefinitions
import Brighthouse.Library.WordTable
import Brighthouse.Types.BString

/-!
# Character maps

Functional model of the update and query part of `core/RSI_CMap.cpp`.  For every
pack and each of the first `noPositions` string positions the map keeps 256 bits,
one for each character that occurs there.
-/

set_option autoImplicit false

namespace Brighthouse.Core

open Library Library.WordTable Types.BString

structure CMap where
  noPositions : Nat
  positions_pos : 0 < noPositions
  packBuf : Int → Table

namespace CMap

variable (m : CMap)

def clearPack (pack : Int) : CMap :=
  { m with packBuf := Function.update m.packBuf pack cleared }

/-- Positions are `32 / sizeof(int)` words apart. -/
def isSet (pack : Int) (c : Byte) (pos : Nat) : Bool :=
  (m.packBuf pack (pos * 32 / 4 + c.val / 32) >>> (c.val % 32)) % 2#32 == 1#32

def set (pack : Int) (c : Byte) (pos : Nat) : CMap :=
  let i := pos * 32 / 4 + c.val / 32
  let word := m.packBuf pack i ||| 1#32 <<< (c.val % 32)
  { m with packBuf := Function.update m.packBuf pack (Function.update (m.packBuf pack) i word) }

def isAnySet (pack : Int) (first last : Byte) (pos : Nat) : Bool :=
  anyBetween (fun c => m.isSet pack (Fin.ofNat 256 c.toNat) pos) first.val last.val

def setChars (m : CMap) (pack : Int) : Bytes → Nat → CMap
  | [], _ => m
  | c :: rest, pos => setChars (m.set pack c pos) pack rest (pos + 1)

def putValue (v : Bytes) (pack : Int) : CMap := m.setChars pack (v.take m.noPositions) 0

/-- `ClearPack` followed by `PutValue` for every string. -/
def fill (pack : Int) (strings : List Bytes) : CMap :=
  strings.foldl (fun m v => m.putValue v pack) (m.clearPack pack)

def allSet (m : CMap) (pack : Int) : Bytes → Nat → Bool
  | [], _ => true
  | c :: rest, pos => m.isSet pack c pos && allSet m pack rest (pos + 1)

/-- An absent bound is a null string, which has length zero and is equal to nothing. -/
def isValue (minV maxV : Option Bytes) (pack : Int) : RSValue :=
  if minV.isSome && minV == maxV then
    if m.allSet pack ((minV.getD []).take m.noPositions) 0 then .some else .none
  else
    let f := (minV.getD []).head?.getD 0
    let l := (maxV.getD []).head?.getD 255
    if f > l || !m.isAnySet pack f l 0 then .none else .some

def isLikeFrom (m : CMap) (pack : Int) (esc : Byte) : Bytes → Nat → RSValue
  | [], _ => .some
  | c :: rest, pos =>
    if m.noPositions ≤ pos then .some
    else if c = percent ∨ c = esc then .some
    else if c ≠ underscore ∧ m.isSet pack c pos = false then .none
    else isLikeFrom m pack esc rest (pos + 1)

def isLike (pattern : Bytes) (pack : Int) (esc : Byte) : RSValue :=
  m.isLikeFrom pack esc pattern 0

end CMap

end Brighthouse.Core
