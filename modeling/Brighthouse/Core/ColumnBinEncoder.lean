import Brighthouse.Core.CommonDefinitions
import Brighthouse.Library.SortKey
import Brighthouse.Library.Word64

/-!
# Sort and join keys of integers

The encoders of `core/ColumnBinEncoder.cpp` that write a value as an integer: `EncoderInt`,
`EncoderDecimal`, `EncoderDate`, `EncoderYear` and `EncoderLookup`, and how `PrepareEncoder`
chooses between them.  `PrepareEncoder` has no result here where it takes one of the other
encoders.  The statistics of found values have no influence on the codes and are left out.
-/

set_option autoImplicit false

namespace Brighthouse.Core.ColumnBinEncoder

open Library Library.SortKey Library.Word64

/-! ## Columns -/

structure Collation where
  id : Nat
  requiresUTFConversions : Bool
  strCmp : Bytes → Bytes → Int

structure ColumnType where
  typeName : AttributeType
  scale : Nat
  isLookup : Bool
  scale_le : scale ≤ 18

namespace ColumnType

def new : ColumnType := ⟨.int, 0, false, by decide⟩

def isFixed (t : ColumnType) : Bool := t.typeName.isIntegerType || t.typeName == .num

def isFloat (t : ColumnType) : Bool := t.typeName.isRealType

def isString (t : ColumnType) : Bool :=
  t.typeName == .string || t.typeName == .varchar || t.typeName == .bin || t.typeName == .byte ||
    t.typeName == .varByte

def isDateTime (t : ColumnType) : Bool := t.typeName.isDateTimeType

end ColumnType

/-- What the encoders ask of a column. -/
structure VirtualColumn where
  type : ColumnType
  collation : Collation
  nullsPossible : Bool
  roughMin : Int
  roughMax : Int
  /-- The strings of a lookup column by their codes. -/
  dictionary : List Bytes
  min_isInt64 : IsInt64 roughMin
  max_isInt64 : IsInt64 roughMax

variable (vc : VirtualColumn)

namespace VirtualColumn

def decodeValueS (code : Int) : Bytes := vc.dictionary.getD code.toNat []

def encodeValueS (s : Bytes) : Int :=
  match vc.dictionary.idxOf? s with
  | some code => code
  | none => -1

end VirtualColumn

/-! ## Numbers -/

def uint64 (x : Int) : Nat := (toU64 x).toNat

def uint64Max : Nat := 2 ^ 64 - 1

def int32 (x : Int) : Int := Int.bmod x (2 ^ 32)

def byteSizeLoop : Nat → Nat → Nat
  | 0, _ => 0
  | turns + 1, n => if n = 0 then 0 else byteSizeLoop turns (n >>> 8) + 1

/-- 0 -> 0, 1 -> 1, 255 -> 1, 256 -> 2 etc.; the argument has 8 bytes. -/
def calculateByteSize (n : Nat) : Nat := byteSizeLoop 8 n

def powOfTen (exponent : Nat) : Int := 10 ^ exponent

/-- The values of a date without the bits of `shift`; the infinities stay. -/
def sortEncoding (shift : Nat) (v : Int) : Int :=
  if v ≠ minusInf64 ∧ v ≠ plusInf64 then v >>> shift else v

/-- omit sec, min, hour (6+6+16 bits) -/
def dateSortEncoding (v : Int) : Int := sortEncoding 28 v

/-- omit sec, min, hour, day, month (6+6+16+5+4 bits) -/
def yearSortEncoding (v : Int) : Int := sortEncoding 37 v

/-! ## `EncoderInt` -/

/-- `nullStatus` is 0 for no nulls, 1 where 0 encodes null, 2 for a separate byte. -/
structure EncoderInt where
  descending : Bool
  nullStatus : Nat
  minVal : Int
  maxCode : Nat
  size : Nat
  deriving DecidableEq

variable (e : EncoderInt)

namespace EncoderInt

def nullShift : Nat := if e.nullStatus = 1 then 1 else 0

def flagSize (nullStatus : Nat) : Nat := if nullStatus = 2 then 1 else 0

def new (nullsPossible descending : Bool) : EncoderInt :=
  let minVal := vc.roughMin
  let maxCode := uint64 (vc.roughMax - minVal)
  let nullStatus := if nullsPossible then if maxCode < uint64Max then 1 else 2 else 0
  let maxCode := if nullStatus = 1 then maxCode + 1 else maxCode
  { descending, nullStatus, minVal, maxCode
    size := calculateByteSize maxCode + flagSize nullStatus }

def maxVal : Int := wrap64 (e.maxCode + e.minVal - e.nullShift)

/-- The end of `SecondColumn`: the range is extended and the size calculated again. -/
def extend (maxVal newMinVal newMaxVal : Int) : EncoderInt :=
  let minVal := if e.minVal > newMinVal then newMinVal else e.minVal
  let maxVal := if maxVal < newMaxVal then newMaxVal else maxVal
  let maxCode := uint64 (maxVal - minVal)
  let nullStatus := if e.nullStatus = 1 ∧ maxCode = uint64Max then 2 else e.nullStatus
  { e with minVal, maxCode, nullStatus, size := calculateByteSize maxCode + flagSize nullStatus }

def secondColumn (first : ColumnType) (vc : VirtualColumn) : Option EncoderInt :=
  if !vc.type.isFixed && !(first.isDateTime && vc.type.isDateTime) then none
  else
    let isTimestamp1 := first.typeName == .timestamp
    let isTimestamp2 := vc.type.typeName == .timestamp
    if isTimestamp1 || isTimestamp2 && !(isTimestamp1 && isTimestamp2) then none
    else some (e.extend e.maxVal vc.roughMin vc.roughMax)

def setNull : Bytes :=
  if e.descending then
    if e.nullStatus = 1 then bigEndian e.size e.maxCode
    else 1 :: List.replicate (e.size - 1) 0
  else List.replicate e.size 0

def encode (v : Int) : Bytes :=
  if 0 < e.nullStatus ∧ v = nullValue64 then e.setNull
  else
    let codedVal := uint64 (uint64 (v - e.minVal) + e.nullShift)
    let codedVal := if e.descending then uint64 (e.maxCode - codedVal) else codedVal
    if e.nullStatus = 2 then (if e.descending then 0 else 1) :: bigEndian (e.size - 1) codedVal
    else bigEndian e.size codedVal

end EncoderInt

/-! ## The encoders made of it -/

structure EncoderDecimal extends EncoderInt where
  scale : Nat
  deriving DecidableEq

namespace EncoderDecimal

/-- The size does not count the separate byte for nulls here; `SecondColumn` does. -/
def new (vc : VirtualColumn) (nullsPossible descending : Bool) : EncoderDecimal :=
  let e := EncoderInt.new vc nullsPossible descending
  { e with size := calculateByteSize e.maxCode, scale := vc.type.scale }

def secondColumn (e : EncoderDecimal) (vc : VirtualColumn) : EncoderDecimal :=
  let newScale := vc.type.scale
  let multiplier := powOfTen (newScale - e.scale)
  let secMultiplier := powOfTen (e.scale - newScale)
  { EncoderInt.extend { e.toEncoderInt with minVal := wrap64 (e.minVal * multiplier) }
      (wrap64 (e.maxVal * multiplier)) (wrap64 (vc.roughMin * secMultiplier))
      (wrap64 (vc.roughMax * secMultiplier)) with
    scale := max newScale e.scale }

def encode (e : EncoderDecimal) (type : ColumnType) (v : Int) : Bytes :=
  e.toEncoderInt.encode
    (if type.scale < e.scale then wrap64 (v * powOfTen (e.scale - type.scale)) else v)

end EncoderDecimal

/-- `EncoderDate` and `EncoderYear` are alike but for `SecondColumn`. -/
def newSortEncoded (sortEncoding : Int → Int) (vc : VirtualColumn)
    (nullsPossible descending : Bool) : EncoderInt :=
  let pmin := sortEncoding vc.roughMin
  let pmax := sortEncoding vc.roughMax
  let maxCode := uint64 (pmax - pmin)
  let maxCode := if nullsPossible ∧ maxCode ≠ uint64Max then maxCode + 1 else maxCode
  { descending, nullStatus := if nullsPossible then 1 else 0, minVal := pmin, maxCode
    size := calculateByteSize maxCode }

namespace EncoderDate

def new (nullsPossible descending : Bool) : EncoderInt :=
  newSortEncoded dateSortEncoding vc nullsPossible descending

/-- Whether there is a code for null depends on the largest code before. -/
def secondColumn (vc : VirtualColumn) : Option EncoderInt :=
  if vc.type.typeName ≠ .date then none
  else
    let newMinVal := dateSortEncoding vc.roughMin
    let maxVal := e.maxVal
    let newMaxVal := dateSortEncoding vc.roughMax
    let minVal := if e.minVal > newMinVal then newMinVal else e.minVal
    let maxVal := if maxVal < newMaxVal then newMaxVal else maxVal
    let maxCode := uint64 (uint64 (maxVal - minVal) +
      (if e.nullStatus = 1 ∧ e.maxCode ≠ uint64Max then 1 else 0 : Nat))
    some { e with minVal, maxCode, size := calculateByteSize maxCode }

end EncoderDate

namespace EncoderYear

def new (nullsPossible descending : Bool) : EncoderInt :=
  newSortEncoded yearSortEncoding vc nullsPossible descending

/-- Whether there is a code for null depends on the new range. -/
def secondColumn (vc : VirtualColumn) : Option EncoderInt :=
  if vc.type.typeName ≠ .year then none
  else
    let newMinVal := yearSortEncoding vc.roughMin
    let maxVal := e.maxVal
    let newMaxVal := yearSortEncoding vc.roughMax
    let minVal := if e.minVal > newMinVal then newMinVal else e.minVal
    let maxVal := if maxVal < newMaxVal then newMaxVal else maxVal
    let maxCode := uint64 (maxVal - minVal)
    let maxCode := if maxCode ≠ uint64Max ∧ e.nullStatus = 1 then maxCode + 1 else maxCode
    some { e with minVal, maxCode, size := calculateByteSize maxCode }

end EncoderYear

structure EncoderLookup extends EncoderInt where
  /-- `translate2`, the codes of the first column; -1 where there is none -/
  translate2 : List Int
  deriving DecidableEq

namespace EncoderLookup

def new (descending : Bool) : EncoderLookup :=
  let maxCode := uint64 (uint64 (vc.roughMax - vc.roughMin) + 1)
  { descending, nullStatus := 1, minVal := vc.roughMin, maxCode
    size := calculateByteSize maxCode, translate2 := [] }

/-- The search for one string of the second column among the values of the first one;
without result if it is found twice. -/
def searchCode (first : VirtualColumn) (val2 : Bytes) : List Int → Int → Option Int
  | [], code => some code
  | j :: rest, code =>
    if first.collation.strCmp (first.decodeValueS j) val2 = 0 then
      if code ≠ -1 then none else searchCode first val2 rest j
    else searchCode first val2 rest code

def searchCodes (first second : VirtualColumn) (values : List Int) : List Nat → Option (List Int)
  | [] => some []
  | i :: rest => do
      let code ← searchCode first (second.decodeValueS i) values (-1)
      let codes ← searchCodes first second values rest
      some (code :: codes)

/-- The contents of `translate2`; without result if a translation is ambiguous. -/
def translation (first second : VirtualColumn) (minVal maxVal : Int) : Option (List Int) :=
  let noSecValues := (int32 second.roughMax + 1).toNat
  if first.collation.requiresUTFConversions then
    let start := int32 minVal
    let values := (List.range (wrap64 (maxVal + 1) - start).toNat).map fun i : Nat => start + i
    searchCodes first second values (List.range noSecValues)
  else
    some ((List.range noSecValues).map fun i : Nat =>
      let code := first.encodeValueS (second.decodeValueS i)
      if code < 0 then -1 else code)

def secondColumn (e : EncoderLookup) (first vc : VirtualColumn) : Option EncoderLookup :=
  if first.collation.id ≠ vc.collation.id then none
  else do
    let maxVal := wrap64 (e.maxCode + e.minVal - 1)
    let translate2 ← translation first vc e.minVal maxVal
    let minVal := if e.minVal > vc.roughMin then vc.roughMin else e.minVal
    let maxVal := if maxVal < vc.roughMax then vc.roughMax else maxVal
    let maxCode := uint64 (maxVal - minVal)
    some { e with minVal, maxCode, size := calculateByteSize maxCode, translate2 }

end EncoderLookup

/-! ## `PrepareEncoder` -/

inductive ColumnValueEncoder where
  | int (e : EncoderInt)
  | decimal (e : EncoderDecimal)
  | date (e : EncoderInt)
  | year (e : EncoderInt)
  | lookup (e : EncoderLookup)
  deriving DecidableEq

structure Flags where
  ignoreNulls : Bool
  monotonicEncoding : Bool
  descending : Bool

def nullsPossible (flags : Flags) (vc : VirtualColumn) (vc2 : Option VirtualColumn) : Bool :=
  !flags.ignoreNulls && (vc.nullsPossible || vc2.any (·.nullsPossible))

inductive Kind where
  | int
  | decimal
  | date
  | year
  | lookup
  deriving DecidableEq

def encoderKind (flags : Flags) (vc : VirtualColumn) (vc2 : Option VirtualColumn) : Option Kind :=
  let vct := vc.type
  let vct2 := (vc2.map (·.type)).getD ColumnType.new
  if vct.isFixed && (vc2.isNone || vct2.isFixed && vct.scale == vct2.scale) then some .int
  else if vct.isFloat || vc2.isSome && vct2.isFloat then none
  else if vct.isFixed && !vct2.isString then some .decimal
  else if vct.typeName == .date then some .date
  else if vct.typeName == .year then some .year
  else if !flags.monotonicEncoding && vct.isLookup && vc2.isNone &&
      !vc.collation.requiresUTFConversions then some .lookup
  else if !flags.monotonicEncoding && vct.isLookup && vc2.isSome && vct2.isLookup then some .lookup
  else if vct.isString || vct2.isString then none
  else if vct.isDateTime then some .int
  else none

def newEncoder (kind : Kind) (vc : VirtualColumn) (nulls descending : Bool) : ColumnValueEncoder :=
  match kind with
  | .int => .int (EncoderInt.new vc nulls descending)
  | .decimal => .decimal (EncoderDecimal.new vc nulls descending)
  | .date => .date (EncoderDate.new vc nulls descending)
  | .year => .year (EncoderYear.new vc nulls descending)
  | .lookup => .lookup (EncoderLookup.new vc descending)

def secondColumn (vc : VirtualColumn) (e : ColumnValueEncoder) (vc2 : VirtualColumn) :
    Option ColumnValueEncoder :=
  match e with
  | .int e => (e.secondColumn vc.type vc2).map .int
  | .decimal e => some (.decimal (e.secondColumn vc2))
  | .date e => (EncoderDate.secondColumn e vc2).map .date
  | .year e => (EncoderYear.secondColumn e vc2).map .year
  | .lookup e => (e.secondColumn vc vc2).map .lookup

def prepareEncoder (flags : Flags) (vc : VirtualColumn) (vc2 : Option VirtualColumn) :
    Option ColumnValueEncoder := do
  let kind ← encoderKind flags vc vc2
  let e := newEncoder kind vc (nullsPossible flags vc vc2) flags.descending
  match vc2 with
  | none => some e
  | some vc2 => secondColumn vc e vc2

def ColumnValueEncoder.toInt : ColumnValueEncoder → EncoderInt
  | .int e => e
  | .decimal e => e.toEncoderInt
  | .date e => e
  | .year e => e
  | .lookup e => e.toEncoderInt

/-- `Encode` for a row of a column of the given type with the value `v`, which is not null;
`second` says whether it is the second column.  There is no result where `translate2` has no
entry. -/
def ColumnValueEncoder.encode (e : ColumnValueEncoder) (type : ColumnType) (second : Bool)
    (v : Int) : Option Bytes :=
  match e with
  | .int e => some (e.encode v)
  | .decimal e => some (e.encode type v)
  | .date e => some (e.encode (dateSortEncoding v))
  | .year e => some (e.encode (yearSortEncoding v))
  | .lookup e =>
    if second then
      (if 0 ≤ v then e.translate2[v.toNat]? else none).map fun v =>
        if v = -1 then e.setNull else e.toEncoderInt.encode v
    else some (e.toEncoderInt.encode v)

end Brighthouse.Core.ColumnBinEncoder
