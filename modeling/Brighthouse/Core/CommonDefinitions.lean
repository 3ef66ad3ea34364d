import Brighthouse.Library.RoughAnswer

/-!
# Common definitions

The rough answers `RS_NONE`, `RS_SOME`, `RS_ALL`, the reserved 64-bit codes and the
attribute types of `common/CommonDefinitions.h`, with the tests of
`core/RCAttrTypeInfo.h` on them.
-/

set_option autoImplicit false

namespace Brighthouse.Core

abbrev RSValue := Library.RoughAnswer

def plusInf64 : Int := 2 ^ 63 - 1
def minusInf64 : Int := -2 ^ 63
def nullValue64 : Int := minusInf64 + 1

inductive AttributeType where
  | string
  | varchar
  | int
  | num
  | date
  | time
  | byteInt
  | smallInt
  | bin
  | byte
  | varByte
  | real
  | dateTime
  | timestamp
  | dateTimeN
  | timestampN
  | timeN
  | float
  | year
  | mediumInt
  | bigInt
  | unknown
  deriving DecidableEq, Repr

namespace AttributeType

def isInteger32Type (attrType : AttributeType) : Bool :=
  attrType == int || attrType == byteInt || attrType == smallInt || attrType == mediumInt

def isIntegerType (attrType : AttributeType) : Bool :=
  attrType.isInteger32Type || attrType == bigInt

def isRealType (attrType : AttributeType) : Bool := attrType == float || attrType == real

def isDateTimeType (attrType : AttributeType) : Bool :=
  attrType == date || attrType == time || attrType == year || attrType == dateTime ||
    attrType == timestamp

end AttributeType

/-- The comparison operators `O_EQ`, `O_NOT_EQ`, `O_LESS`, `O_LESS_EQ`, `O_MORE`, `O_MORE_EQ`. -/
inductive CompareOp where
  | eq
  | notEq
  | less
  | lessEq
  | more
  | moreEq
  deriving DecidableEq, Repr

def CompareOp.Compares {α : Type} [LT α] [LE α] (op : CompareOp) (x y : α) : Prop :=
  match op with
  | .eq => x = y
  | .notEq => x ≠ y
  | .less => x < y
  | .lessEq => x ≤ y
  | .more => x > y
  | .moreEq => x ≥ y

end Brighthouse.Core
