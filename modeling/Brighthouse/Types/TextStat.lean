import Brighthouse.Compress.Tools
import Brighthouse.Library.Bytes

/-!
# Text statistics

Functional model of `TextStat` (`types/RCBString.cpp`), which turns short strings into
integer codes.  The tables are functions of a position and an index: the source's cell
`i + 256 * pos` is `table pos i`.  A function that reports `false` in the source leaves
an object which its callers drop, so it returns `none` here; `NULL_VALUE_64` of
`Encode` is `none` too, since codes are not negative.
-/

set_option autoImplicit false

namespace Brighthouse.Types

open Library Compress

def maxPositions : Nat := 48

abbrev CharTable := Nat → Nat → Nat

def CharTable.set (table : CharTable) (pos i value : Nat) : CharTable :=
  fun p j => if p = pos ∧ j = i then value else table p j

structure TextStat where
  lenTable : Nat → Nat
  encodeTable : CharTable
  charsFound : CharTable
  charsFoundForDecoding : Bool
  maxStringSize : Nat
  maxCode : Nat

namespace TextStat

def illegal : Nat := 255

def new : TextStat where
  lenTable := fun _ => 0
  encodeTable := fun _ _ => illegal
  charsFound := fun _ _ => 0
  charsFoundForDecoding := false
  maxStringSize := 0
  maxCode := 0

/-! ## Collecting strings -/

def addChars (found : CharTable) : Nat → Bytes → Option CharTable
  | _, [] => some found
  | i, c :: rest => if c = 0 then none else addChars (found.set i c.val 1) (i + 1) rest

variable (t : TextStat)

def addString (s : Bytes) : Option TextStat :=
  if maxPositions < s.length then none
  else do
    let found ← addChars t.charsFound 0 s
    -- the value of length n puts 0 on position n
    let found := if s.length < maxPositions then found.set s.length 0 1 else found
    some { t with charsFound := found, maxStringSize := max t.maxStringSize s.length }

def addStrings : TextStat → List Bytes → Option TextStat
  | t, [] => some t
  | t, s :: rest => do
      let t ← addString t s
      addStrings t rest

/-! ## Creating the encoding -/

/-- The loop over the characters of one position: the next free code goes to every
character found, but the code 255 must not be used. -/
def assignCodes (found : Nat → Nat) : List Nat → (Nat → Nat) → Nat → Option ((Nat → Nat) × Nat)
  | [], codes, next => some (codes, next)
  | i :: rest, codes, next =>
    if found i = 1 then
      if next = illegal then none
      else assignCodes found rest (fun j => if j = i then next else codes j) (next + 1)
    else assignCodes found rest codes next

/-- The binary size of a position with `count` different characters. -/
def fieldWidth (count : Nat) : Nat := if 1 < count then getBitLen (count - 1) else 0

/-- One turn of the outer loop of `CreateEncoding`; `totalLen` is the number of bits
used by the positions before. -/
def encodePosition (pos totalLen : Nat) : Option (TextStat × Nat) := do
  let (codes, count) ← assignCodes (t.charsFound pos) (List.range 256) (t.encodeTable pos) 0
  let len := fieldWidth count
  let maxCode := if 1 < count then t.maxCode <<< len + (count - 1) else t.maxCode
  if 63 < totalLen + len then none
  else some ({ t with
      encodeTable := fun p j => if p = pos then codes j else t.encodeTable p j
      lenTable := fun p => if p = pos then len else t.lenTable p
      maxCode := maxCode }, totalLen + len)

def encodePositions : Nat → Nat → Nat → TextStat → Option TextStat
  | 0, _, _, t => some t
  | left + 1, pos, totalLen, t => do
      let (t, totalLen) ← encodePosition t pos totalLen
      encodePositions left (pos + 1) totalLen t

def createEncoding : Option TextStat :=
  if t.charsFoundForDecoding then none
  else encodePositions t.maxStringSize 0 0 { t with maxCode := 0 }

/-! ## Encoding -/

/-- The code of one character, with the special cases for encoding pack bounds. -/
def charCode (i : Nat) (c : Byte) : Option Nat :=
  if c = 0 then some 0
  else if c = 255 ∧ t.encodeTable i 255 = illegal then some (1 <<< t.lenTable i - 1)
  else if t.encodeTable i c.val = illegal then none
  else some (t.encodeTable i c.val)

def encodeChars (t : TextStat) : Nat → Bytes → Nat → Option Nat
  | _, [], res => some res
  | i, c :: rest, res => do
      let code ← charCode t i c
      encodeChars t (i + 1) rest (res <<< t.lenTable i + code)

def encodeEnd (len res : Nat) : Option Nat :=
  if len < t.maxStringSize then
    if t.encodeTable len 0 = illegal then none
    else if 0 < t.lenTable len then some (res <<< t.lenTable len + t.encodeTable len 0)
    else some res
  else some res

/-- The last loops of `Encode`: the positions from `i` on, as many as are left, get
`value`. -/
def fill (t : TextStat) (value : Nat → Nat) : Nat → Nat → Nat → Nat
  | 0, _, res => res
  | left + 1, i, res =>
    fill t value left (i + 1)
      (if 0 < t.lenTable i then res <<< t.lenTable i + value (t.lenTable i) else res)

def encode (s : Bytes) (roundUp : Bool) : Option Nat :=
  if maxPositions < s.length then none
  else do
    let res ← encodeChars t 0 s 0
    if roundUp then
      some (fill t (fun len => 1 <<< len - 1) (t.maxStringSize - s.length) s.length res)
    else do
      let res ← encodeEnd t s.length res
      some (fill t (fun _ => 0) (t.maxStringSize - (s.length + 1)) (s.length + 1) res)

/-! ## Decoding -/

def decodingRow (codes row : Nat → Nat) : Nat → Nat :=
  (List.range 256).foldl
    (fun row j => if codes j = illegal then row else fun i => if i = codes j then j else row i)
    (fun i => if i = 0 then 0 else row i)

/-- The first decoding redefines `chars_found` as the decoding dictionary. -/
def prepareDecoding : TextStat :=
  if t.charsFoundForDecoding then t
  else { t with
    charsFoundForDecoding := true
    charsFound := fun p i =>
      if p < t.maxStringSize then decodingRow (t.encodeTable p) (t.charsFound p) i
      else t.charsFound p i }

/-- The loop of `Decode`, from the last position down. -/
def decodeLoop (t : TextStat) : Nat → Nat → Nat → Bytes → Nat × Bytes
  | 0, _, len, buf => (len, buf)
  | i + 1, code, len, buf =>
    let charcode := if 0 < t.lenTable i then code &&& (1 <<< t.lenTable i - 1) else 0
    let code := if 0 < t.lenTable i then code >>> t.lenTable i else code
    let c : Byte := Fin.ofNat 256 (t.charsFound i charcode)
    decodeLoop t i code (if c = 0 then i else len) (c :: buf)

/-- `RCBString(buf_val, len, true)`: for `len = 0` the constructor looks for the
terminating zero. -/
def materialize (buf : Bytes) (len : Nat) : Bytes :=
  if len = 0 then buf.takeWhile (· != 0) else buf.take len

def decode (code : Nat) : Bytes × TextStat :=
  let t := prepareDecoding t
  let (len, buf) := decodeLoop t t.maxStringSize code t.maxStringSize [0]
  (materialize buf len, t)

def decodeAll : TextStat → List Nat → List Bytes
  | _, [] => []
  | t, code :: rest =>
    let (s, t) := decode t code
    s :: decodeAll t rest

end TextStat

end Brighthouse.Types
