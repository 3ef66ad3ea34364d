import Brighthouse.Core.CommonDefinitions
import Brighthouse.Library.Binary64
import Brighthouse.Library.Word64
import Brighthouse.Library.WordTable

/-!
# Pack histograms

Functional model of `core/RSI_Histogram.h` and the update and query part of
`core/RSI_Histogram.cpp`, as compiled for release (assertions are removed).
A histogram keeps 32 words for every pack it holds in memory; `packBuf` is the
function of that name.  Signed 64-bit subtraction wraps around, `_uint64(x)`
reads the same word as unsigned, and every operation on `double` rounds its
exact result to 53 bits.
-/

set_option autoImplicit false

namespace Brighthouse.Core.Histogram

open Library Library.Binary64 Library.Word64 Library.WordTable

/-- `RSI_HIST_INT_RES`, the number of words of one pack. -/
def intRes : Nat := 32

/-- `outside pack i` is the bit that a read at an index outside the 1024 bits of
`pack` delivers; nothing is assumed about it. -/
structure Hist where
  fixed : Bool
  startPack : Int
  endPack : Int
  packBuf : Int → Table
  outside : Int → Int → Bool

def intervalTooLarge (packMin packMax : Int) : Bool :=
  packMin < -4611686018427387900 && packMax > 4611686018427387900

def exactMode (packMin packMax : Int) : Bool := toU64 (packMax - packMin) ≤ 32 * intRes - 2

def asDouble (x : Int) : Float := Float.ofBits (UInt64.ofInt x)

def intervalLen (x : Int) : ℚ := round53 (round53 x / (32 * intRes))

def intervalBit (x : Int) (len : ℚ) : Int := truncate (round53 (round53 x / len))

namespace Hist

def clearPack (h : Hist) (pack : Int) : Hist :=
  if pack ≥ h.startPack ∧ pack ≤ h.endPack then
    { h with packBuf := Function.update h.packBuf pack cleared }
  else h

def readBit (h : Hist) (pack i : Int) : Bool :=
  if 0 ≤ i ∧ i < 32 * intRes then testBit (h.packBuf pack) i.toNat else h.outside pack i

/-! ## Recording values -/

def setPackBit (h : Hist) (pack bit : Int) : Hist :=
  { h with packBuf := Function.update h.packBuf pack (setBit (h.packBuf pack) bit.toNat) }

/-- The bit of `v` in a floating-point histogram, `none` for a pack end. -/
def doubleBit (v packMin packMax : Int) : Option Int :=
  if asDouble v == asDouble packMin || asDouble v == asDouble packMax then none
  else
    let len := (asDouble packMax - asDouble packMin) / (32 * intRes).toFloat
    some ((asDouble v - asDouble packMin) / len).toInt32.toInt

/-- The bit of `v` in a fixed-point histogram, `none` for a pack end. -/
def fixedBit (v packMin packMax : Int) : Option Int :=
  if v = packMin ∨ v = packMax then none
  else if exactMode packMin packMax then some (wrap64 (v - packMin - 1))
  else some (intervalBit (toU64 (v - packMin - 1)) (intervalLen (toU64 (packMax - packMin - 1))))

def putValue (h : Hist) (v pack packMin packMax : Int) : Hist :=
  if pack < h.startPack ∨ pack > h.endPack then h
  else if v = nullValue64 ∨ intervalTooLarge packMin packMax then h
  else
    match if h.fixed then fixedBit v packMin packMax else doubleBit v packMin packMax with
    | none => h
    | some bit =>
      if bit ≥ 32 * intRes then h
      else h.setPackBit pack bit

def fill (h : Hist) (pack : Int) (values : List Int) (packMin packMax : Int) : Hist :=
  values.foldl (fun h v => h.putValue v pack packMin packMax) (h.clearPack pack)

/-! ## Asking for values -/

/-- The early answers of `IsValue` on a floating-point histogram, or the two bits. -/
def doubleBits (minV maxV packMin packMax : Int) : Except RSValue (Int × Int) :=
  let dminV := asDouble minV
  let dmaxV := asDouble maxV
  let dpackMin := asDouble packMin
  let dpackMax := asDouble packMax
  if dmaxV < dpackMin || dminV > dpackMax then .error .none
  else if dmaxV ≥ dpackMax && dminV ≤ dpackMin then .error .all
  else if dmaxV ≥ dpackMax || dminV ≤ dpackMin then .error .some
  else
    let len := (dpackMax - dpackMin) / (32 * intRes).toFloat
    .ok (((dminV - dpackMin) / len).toInt32.toInt, ((dmaxV - dpackMin) / len).toInt32.toInt)

/-- The early answers of `IsValue` on a fixed-point histogram, or the two bits. -/
def fixedBits (minV maxV packMin packMax : Int) : Except RSValue (Int × Int) :=
  if maxV < packMin ∨ minV > packMax then .error .none
  else if maxV ≥ packMax ∧ minV ≤ packMin then .error .all
  else if maxV ≥ packMax ∨ minV ≤ packMin then .error .some
  else if exactMode packMin packMax then
    .ok (wrap64 (minV - packMin - 1), wrap64 (maxV - packMin - 1))
  else
    let len := intervalLen (wrap64 (packMax - packMin - 1))
    .ok (intervalBit (wrap64 (minV - packMin - 1)) len,
      intervalBit (wrap64 (maxV - packMin - 1)) len)

def isValue (h : Hist) (minV maxV pack packMin packMax : Int) : RSValue :=
  if pack < h.startPack ∨ pack > h.endPack then .some
  else if intervalTooLarge packMin packMax || intervalTooLarge minV maxV then .some
  else
    match if h.fixed then fixedBits minV maxV packMin packMax
      else doubleBits minV maxV packMin packMax with
    | .error answer => answer
    | .ok (minBit, maxBit) =>
      if maxBit ≥ 32 * intRes then .some
      else if anyBetween (h.readBit pack) minBit maxBit then .some
      else .none

/-- The scan of `Intersection` reads both bits from the words of this histogram's pack. -/
def intersection (h : Hist) (pack packMin packMax : Int) (sec : Hist)
    (pack2 packMin2 packMax2 : Int) : Bool :=
  if !h.fixed || !sec.fixed then true
  else if intervalTooLarge packMin packMax || intervalTooLarge packMin2 packMax2 then true
  else if sec.isValue packMin packMin pack2 packMin2 packMax2 ≠ .none ∨
      sec.isValue packMax packMax pack2 packMin2 packMax2 ≠ .none ∨
      h.isValue packMin2 packMin2 pack packMin packMax ≠ .none ∨
      h.isValue packMax2 packMax2 pack packMin packMax ≠ .none then true
  else if exactMode packMin packMax && exactMode packMin2 packMax2 then
    let minV := wrap64 (if packMin < packMin2 then packMin2 + 1 else packMin + 1)
    let maxV := wrap64 (if packMax > packMax2 then packMax2 - 1 else packMax - 1)
    anyBetween (fun v =>
      h.readBit pack (wrap64 (v - packMin - 1)) &&
        h.readBit pack (wrap64 (v - packMin2 - 1))) minV maxV
  else true

end Hist

end Brighthouse.Core.Histogram
