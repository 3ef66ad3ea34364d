import Brighthouse.Library.Binary64
import Brighthouse.Library.Bytes

/-!
# The dictionary of a lookup column

Functional model of `FTree` (`core/ftree.cpp`).  The strings stand one after the other in
`mem`; the tables `len` and `value_offset` give their places, and a hash table leads from
a string to its code.  An exception, an endless loop and a sum that leaves `int` give no
result.
-/

set_option autoImplicit false

namespace Brighthouse.Core

open Library Library.Binary64

/-! ## HashValue -/

def hashMix (val word : BitVec 32) : BitVec 32 :=
  val ^^^ (word + 0x9e3779b9#32 + (val <<< 10) + (val >>> 2))

def hashWords : BitVec 32 → Bytes → BitVec 32 × Bytes
  | val, a :: b :: c :: d :: rest =>
    hashWords (hashMix val (BitVec.ofNat 32 (ofLittleEndian [a, b, c, d]))) rest
  | val, rest => (val, rest)

def hashValue (data : Bytes) : BitVec 32 :=
  let len4 := data.length / 4 * 4
  let (val, rest) :=
    -- `i` stays at 0 here, so the bytes of the word are mixed in once more
    if len4 = 4 then (BitVec.ofNat 32 (ofLittleEndian (data.take 4)) + 0x9e3779b9#32, data)
    else hashWords 0#32 data
  let val := rest.foldl (fun val byte => hashMix val (BitVec.ofNat 32 byte.val)) val
  val ^^^ ((val >>> 11) + (val <<< 21))

/-! ## The state -/

structure FTree where
  mem : Option Memory
  len : Nat → Nat
  valueOffset : Nat → Int
  dicSize : Nat
  totalDicSize : Nat
  totalBufSize : Nat
  lastCode : Int
  valueSize : Nat
  changed : Bool
  compressedSize : Nat
  compMode : Int
  hashTable : Option (Nat → Int)
  hashSize : Nat

namespace FTree

def nullValue32 : Int := -2147483648

def new : FTree where
  mem := none
  len := fun _ => 0
  valueOffset := fun _ => 0
  dicSize := 0
  totalDicSize := 0
  totalBufSize := 0
  lastCode := -1
  valueSize := 0
  changed := false
  compressedSize := 0
  compMode := -1
  hashTable := none
  hashSize := 0

variable (t : FTree)

def init (width : Nat) : FTree :=
  { t with
    valueSize := width, dicSize := 0, totalDicSize := 10, totalBufSize := width * 10 + 10
    mem := some fun _ => 0, lastCode := -1, changed := false }

def memory : Memory := t.mem.getD fun _ => 0

/-- The first `length` bytes at the place of the value `i`. -/
def bytesAt (i length : Nat) : Bytes := t.memory.load (t.valueOffset i).toNat length

def getRealValue (v : Int) : Option Bytes :=
  if 0 ≤ v ∧ v < t.dicSize then
    if t.len v.toNat = 0 then some [] else some (t.bytesAt v.toNat (t.len v.toNat))
  else none

/-! ## The hash table -/

def mulDouble (n : Nat) (factor : ℚ) : ℚ := round53 (n * round53 factor)

/-- The loop that looks for a size that is not divisible by 2, 3, 5, 7.  It ends within 10
turns. -/
def nextHashSize : Nat → Nat → Nat
  | 0, size => size
  | turns + 1, size =>
    if size % 2 = 0 ∨ size % 3 = 0 ∨ size % 5 = 0 ∨ size % 7 = 0 then
      nextHashSize turns (size + 1)
    else size

def hashSizeFor (dicSize : Nat) : Nat :=
  nextHashSize 10
    (if dicSize < 30 then 97 else (truncate (mulDouble (dicSize + 10) (5 / 2))).toNat)

def crcCode (v : Bytes) : Nat := if v.length = 0 then 0 else (hashValue v).toNat

def home (hashSize : Nat) (v : Bytes) : Nat := crcCode v % hashSize

def hashStep (v : Bytes) : Nat := 3 + crcCode v % 8

def isValueAt (i : Nat) (v : Bytes) : Bool :=
  t.len i == v.length && (v.length == 0 || t.bytesAt i v.length == v)

/-- The loop of `HashFind`, up to the row where it ends.  There are at most as many turns as
rows. -/
def findRow (t : FTree) (table : Nat → Int) (v : Bytes) : Nat → Nat → Option Nat
  | 0, _ => none
  | turns + 1, row =>
    if table row = -1 then some row
    else if t.isValueAt (table row).toNat v then some row
    else findRow t table v turns ((row + hashStep v) % t.hashSize)

def tooManyValues : Prop := mulDouble t.hashSize (9 / 10) < t.dicSize

instance (t : FTree) : Decidable t.tooManyValues := inferInstanceAs (Decidable (_ < _))

/-- The loop of `InitHash` from the value `i` on, with `find` for `HashFind`. -/
def insertValues (find : FTree → Bytes → Int → Option (FTree × Int)) :
    Nat → Nat → FTree → Option FTree
  | 0, _, t => some t
  | count + 1, i, t => do
      let (t, _) ← find t (t.bytesAt i (t.len i)) i
      insertValues find count (i + 1) t

def initHash (find : FTree → Bytes → Int → Option (FTree × Int)) (t : FTree) : Option FTree :=
  insertValues find t.dicSize 0
    { t with hashSize := hashSizeFor t.dicSize, hashTable := some fun _ => -1 }

/-- `HashFind`, which calls itself again through `InitHash`; `depth` bounds the nesting. -/
def hashFindNested : Nat → FTree → Bytes → Int → Option (FTree × Int)
  | 0, _, _, _ => none
  | depth + 1, t, v, positionIfNotFound => do
      let t ← if t.hashTable.isNone then initHash (hashFindNested depth) t else some t
      let table ← t.hashTable
      let row ← findRow t table v t.hashSize (home t.hashSize v)
      if table row = -1 then
        if positionIfNotFound > -1 then
          if t.tooManyValues then
            let t ← initHash (hashFindNested depth) t
            let (t, _) ← hashFindNested depth t v positionIfNotFound
            some (t, positionIfNotFound)
          else
            some ({ t with hashTable := some (Function.update table row positionIfNotFound) },
              positionIfNotFound)
        else some (t, -1)
      else some (t, table row)

def hashFind (v : Bytes) (positionIfNotFound : Int) : Option (FTree × Int) :=
  hashFindNested 2 t v positionIfNotFound

def getEncodedValue (str : Bytes) : Option (FTree × Int) :=
  if t.mem.isNone then some (t, -1)
  else if t.lastCode > -1 ∧ str.length = t.len t.lastCode.toNat ∧
      t.bytesAt t.lastCode.toNat str.length = str then some (t, t.lastCode)
  else t.hashFind str (-1)

/-! ## Add -/

def enlargeTables : FTree :=
  if t.totalDicSize < t.dicSize + 1 then
    let scaled := (truncate (mulDouble (t.totalDicSize + 10) (6 / 5))).toNat
    let newDicSize := if scaled > 536870910 then t.totalDicSize + 10 else scaled
    { t with
      len := fun i => if t.totalDicSize ≤ i ∧ i < newDicSize then 0 else t.len i
      valueOffset := fun i =>
        if t.totalDicSize ≤ i ∧ i < newDicSize then nullValue32 else t.valueOffset i
      totalDicSize := newDicSize }
  else t

def enlargeBuffer (newValueOffset : Int) (length : Nat) : Option FTree :=
  if t.totalBufSize < newValueOffset + length then
    let scaled := (truncate (mulDouble (t.totalBufSize + length + 10) (6 / 5))).toNat
    let newBufSize := if scaled > 2147483647 then t.totalBufSize + length else scaled
    if newBufSize > 2147483647 then none
    else
      some
        { t with
          mem := some fun i => if t.totalBufSize ≤ i ∧ i < newBufSize then 0 else t.memory i
          totalBufSize := newBufSize }
  else some t

def append (newValueOffset : Int) (str : Bytes) : FTree :=
  { t with
    mem := some (t.memory.store newValueOffset.toNat str)
    valueOffset := Function.update t.valueOffset t.dicSize newValueOffset
    len := Function.update t.len t.dicSize (str.length % 2 ^ 16)
    dicSize := t.dicSize + 1 }

def add (str : Bytes) : Option (FTree × Int) :=
  if t.dicSize > 214748300 then none
  else do
    let (t, code) ← t.hashFind str t.dicSize
    if code < t.dicSize then some (t, code)
    else
      let t := { t with changed := true }.enlargeTables
      let newValueOffset : Int :=
        if t.dicSize = 0 then 0 else t.valueOffset (t.dicSize - 1) + t.len (t.dicSize - 1)
      let t ← t.enlargeBuffer newValueOffset str.length
      some (t.append newValueOffset str, t.dicSize)

/-! ## Saving -/

def lenSum : Nat := ((List.range t.dicSize).map t.len).sum

def byteSize : Option (FTree × Nat) :=
  if t.changed = false ∧ t.compressedSize > 0 then some (t, t.compressedSize)
  else
    let headerSize := 12 + 2 * t.dicSize
    if t.dicSize = 0 then some ({ t with compMode := -1 }, headerSize)
    else if headerSize + t.lenSum < 2 ^ 31 then
      some ({ t with compMode := -1, compressedSize := headerSize + t.lenSum },
        headerSize + t.lenSum)
    else none

def saveData : Option Bytes :=
  let header := [0] ++ littleEndian 4 t.dicSize ++ littleEndian 2 t.valueSize ++
    littleEndian 4 t.compressedSize ++ littleEndian 1 (t.compMode % 256).toNat
  if t.dicSize = 0 then some header
  else if (List.range t.dicSize).any fun i => t.len i > t.valueSize then none
  else
    let lenSum := (t.valueOffset (t.dicSize - 1) + t.len (t.dicSize - 1)).toNat
    some (header ++ (List.range t.dicSize).flatMap (fun i => littleEndian 2 (t.len i)) ++
      t.memory.load 0 lenSum)

/-- A number of the given size at the beginning of a buffer, and the buffer after it. -/
def readNumber (size : Nat) (buf : Bytes) : Option (Nat × Bytes) :=
  if size ≤ buf.length then some (ofLittleEndian (buf.take size), buf.drop size) else none

def readLens : Nat → Bytes → Option (List Nat × Bytes)
  | 0, buf => some ([], buf)
  | count + 1, buf => do
      let (len, buf) ← readNumber 2 buf
      let (lens, buf) ← readLens count buf
      some (len :: lens, buf)

/-- `Init(unsigned char*& buf)`, with the buffer from `buf` on as the call leaves it: behind the
lengths, in front of the strings. -/
def initFrom (buf : Bytes) : Option (FTree × Bytes) := do
  let (format, buf) ← readNumber 1 buf
  if format ≠ 0 then some (t, buf)
  else
    let (dicSize, buf) ← readNumber 4 buf
    let (valueSize, buf) ← readNumber 2 buf
    let (compressedSize, buf) ← readNumber 4 buf
    let (compMode, buf) ← readNumber 1 buf
    let (lens, buf) ← readLens dicSize buf
    if lens.sum ≤ buf.length then
      some
        ({ t with
          dicSize, totalDicSize := dicSize, valueSize, compressedSize
          compMode := Int.bmod compMode 256
          len := fun i => lens.getD i 0
          valueOffset := fun i => (lens.take i).sum
          totalBufSize := if dicSize < 3 then valueSize * 10 + 10 else lens.sum
          mem := some (Memory.store (fun _ => 0) 0 (buf.take lens.sum))
          lastCode := -1, changed := false }, buf)
    else none

end FTree

end Brighthouse.Core
