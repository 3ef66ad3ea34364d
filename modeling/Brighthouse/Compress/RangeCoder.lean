import Brighthouse.Library.ByteWindow

/-!
# The carry-less range coder

Functional model of `compress/RangeCoder.h`.  The coder registers `low`, `code`
and `range` are unsigned 32-bit words, so every sum, product and left shift goes
through `u32`.  The buffer is seen from the moving pointer `pos`: the encoder
keeps the bytes written so far and the room left before `stop`, the decoder
keeps the bytes still to be read before `stop`.  `OutByte` and `InByte` throw
`CPRS_ERR_BUF` at `stop`, which also bounds both renormalisation loops.
-/

set_option autoImplicit false

namespace Brighthouse.Compress.RangeCoder

open Library Library.ByteWindow

def top : Nat := 2 ^ 24
def bot : Nat := 2 ^ 16
def maxTotal : Nat := bot
def uniNbit : Nat := 16
def uniMask : Nat := 2 ^ uniNbit - 1

inductive CprsErr where
  | buf
  | cor
  deriving DecidableEq, Repr

structure Encoder where
  low : Nat
  range : Nat
  out : List Byte
  room : Nat
  deriving DecidableEq, Repr

/-- `held` is a history variable: every value that `range` has held so far,
latest first.  No operation reads it. -/
structure Decoder where
  low : Nat
  code : Nat
  range : Nat
  input : List Byte
  held : List Nat
  deriving DecidableEq, Repr

/-- The unsigned types the uniform templates are instantiated with. -/
inductive UIntType where
  | uchar
  | ushort
  | uint
  | uint64
  deriving DecidableEq, Repr

def UIntType.bits : UIntType → Nat
  | .uchar => 8
  | .ushort => 16
  | .uint => 32
  | .uint64 => 64

/-- The condition of the renormalisation loop together with its side effect on
`range`: `none` leaves the loop, `some r` runs the body with `range = r`. -/
def loopRange (low range : Nat) : Option Nat :=
  if low ^^^ u32 (low + range) < top then some range
  else if range < bot then some (u32 (2 ^ 32 - low) &&& (bot - 1))
  else none

def shiftOut : Nat → Nat → Nat → List Byte → Except CprsErr Encoder
  | room, low, range, out =>
    match loopRange low range, room with
    | none, room => .ok ⟨low, range, out, room⟩
    | some _, 0 => .error .buf
    | some r, room + 1 =>
      shiftOut room (u32 (low <<< 8)) (u32 (r <<< 8)) (out ++ [Fin.ofNat 256 (low >>> 24)])

def shiftIn : List Byte → Nat → Nat → Nat → List Nat → Except CprsErr Decoder
  | input, low, range, code, held =>
    match loopRange low range, input with
    | none, input => .ok ⟨low, code, range, input, held⟩
    | some _, [] => .error .buf
    | some r, next :: rest =>
      shiftIn rest (u32 (low <<< 8)) (u32 (r <<< 8)) (u32 (code <<< 8) ||| next.val)
        (u32 (r <<< 8) :: r :: held)

def initCompress (len : Nat) : Encoder := ⟨0, 2 ^ 32 - 1, [], len⟩

/-- `EndCompress`: four times `OutByte(low>>24), low<<=8`. -/
def flush : Nat → Encoder → Except CprsErr Encoder
  | 0, e => .ok e
  | n + 1, e =>
    match e.room with
    | 0 => .error .buf
    | room + 1 =>
      flush n ⟨u32 (e.low <<< 8), e.range, e.out ++ [Fin.ofNat 256 (e.low >>> 24)], room⟩

def endCompress (e : Encoder) : Except CprsErr Encoder := flush 4 e

/-- The reading loop of `InitDecompress`: `code = code<<8 | InByte()`. -/
def fetch : Nat → Nat → List Byte → Except CprsErr (Nat × List Byte)
  | 0, code, input => .ok (code, input)
  | _ + 1, _, [] => .error .buf
  | n + 1, code, next :: rest => fetch n (u32 (code <<< 8) ||| next.val) rest

def initDecompress (input : List Byte) : Except CprsErr Decoder := do
  let (code, rest) ← fetch 4 0 input
  .ok ⟨0, code, 2 ^ 32 - 1, rest, [2 ^ 32 - 1]⟩

def encode (e : Encoder) (cumFreq freq total : Nat) : Except CprsErr Encoder :=
  let r := e.range / total
  shiftOut e.room (u32 (e.low + u32 (r * cumFreq))) (u32 (r * freq)) e.out

variable (d : Decoder)

def getCount (total : Nat) : Except CprsErr (Nat × Decoder) :=
  let r := d.range / total
  let tmp := u32 (d.code + (2 ^ 32 - d.low)) / r
  if total ≤ tmp then .error .cor else .ok (tmp, { d with range := r, held := r :: d.held })

def decode (cumFreq freq : Nat) : Except CprsErr Decoder :=
  shiftIn d.input (u32 (d.low + u32 (d.range * cumFreq))) (u32 (d.range * freq)) d.code
    (u32 (d.range * freq) :: d.held)

def encodeShift (e : Encoder) (cumFreq freq shift : Nat) : Except CprsErr Encoder :=
  let r := e.range >>> shift
  shiftOut e.room (u32 (e.low + u32 (r * cumFreq))) (u32 (r * freq)) e.out

def getCountShift (shift : Nat) : Except CprsErr (Nat × Decoder) :=
  let r := d.range >>> shift
  let tmp := u32 (d.code + (2 ^ 32 - d.low)) / r
  if 1 <<< shift ≤ tmp then .error .cor else .ok (tmp, { d with range := r, held := r :: d.held })

def decodeShift (cumFreq freq : Nat) : Except CprsErr Decoder :=
  shiftIn d.input (u32 (d.low + u32 (d.range * cumFreq))) (u32 (d.range * freq)) d.code
    (u32 (d.range * freq) :: d.held)

/-! ## Uniform symbols

The width of the template type only matters where a decoded group is stored
back into a `T`. -/

def encodeUniformLoop (e : Encoder) (val maxval bitmax : Nat) : Except CprsErr Encoder :=
  if uniNbit < bitmax then do
    let e ← encodeShift e (val &&& uniMask) 1 uniNbit
    encodeUniformLoop e (val >>> uniNbit) (maxval >>> uniNbit) (bitmax - uniNbit)
  else encode e (u32 val) 1 (u32 (u32 maxval + 1))
termination_by bitmax
decreasing_by simp only [uniNbit] at *; omega

def encodeUniform (e : Encoder) (val maxval bitmax : Nat) : Except CprsErr Encoder :=
  if maxval = 0 then .ok e else encodeUniformLoop e val maxval bitmax

def decodeUniformLoop (T : UIntType) (maxval bitmax : Nat) (d : Decoder) (val shift : Nat) :
    Except CprsErr (Nat × Decoder) :=
  if shift + uniNbit < bitmax then do
    let (v, d) ← getCountShift d uniNbit
    let d ← decodeShift d v 1
    decodeUniformLoop T maxval bitmax d (val ||| v <<< shift % 2 ^ T.bits) (shift + uniNbit)
  else do
    let total := u32 (u32 (maxval >>> shift) + 1)
    let (v, d) ← getCount d total
    let d ← decode d v 1
    .ok (val ||| v <<< shift % 2 ^ T.bits, d)
termination_by bitmax - shift
decreasing_by simp only [uniNbit] at *; omega

def decodeUniform (T : UIntType) (d : Decoder) (maxval bitmax : Nat) :
    Except CprsErr (Nat × Decoder) :=
  if maxval = 0 then .ok (0, d) else decodeUniformLoop T maxval bitmax d 0 0

/-- The specialisations for `uchar` and `ushort` write a single group for any `shift`. -/
def encodeUniShift (T : UIntType) (e : Encoder) (x shift : Nat) : Except CprsErr Encoder :=
  if T.bits ≤ uniNbit ∨ shift ≤ uniNbit then encodeShift e (u32 x) 1 shift
  else do
    let e ← encodeShift e (u32 x &&& uniMask) 1 uniNbit
    encodeUniShift T e (x >>> uniNbit) (shift - uniNbit)
termination_by shift
decreasing_by simp only [uniNbit] at *; omega

def decodeUniShift (T : UIntType) (d : Decoder) (shift : Nat) : Except CprsErr (Nat × Decoder) :=
  if shift ≤ uniNbit then do
    let (x, d) ← getCountShift d shift
    let d ← decodeShift d (x % 2 ^ T.bits) 1
    .ok (x % 2 ^ T.bits, d)
  else do
    let (tmp, d) ← getCountShift d uniNbit
    let d ← decodeShift d tmp 1
    let (x, d) ← decodeUniShift T d (shift - uniNbit)
    .ok (x <<< uniNbit % 2 ^ T.bits ||| tmp % 2 ^ T.bits, d)
termination_by shift
decreasing_by simp only [uniNbit] at *; omega

/-! ## Symbol sequences -/

inductive Symbol where
  | freq (cumFreq freq total : Nat)
  | shift (cumFreq freq shift : Nat)
  | uniform (T : UIntType) (val maxval bitmax : Nat)
  | uniShift (T : UIntType) (x shift : Nat)
  deriving DecidableEq, Repr

def encodeSymbol (e : Encoder) : Symbol → Except CprsErr Encoder
  | .freq cumFreq freq total => encode e cumFreq freq total
  | .shift cumFreq freq shift => encodeShift e cumFreq freq shift
  | .uniform _ val maxval bitmax => encodeUniform e val maxval bitmax
  | .uniShift T x shift => encodeUniShift T e x shift

/-- The matching decoder call.  A reader of `freq` or `shift` symbols looks the
count up in its model and confirms the interval that holds it, which is the
interval the writer used. -/
def decodeSymbol : Symbol → Except CprsErr (Nat × Decoder)
  | .freq cumFreq freq total => do
      let (count, d) ← getCount d total
      let d ← decode d cumFreq freq
      .ok (count, d)
  | .shift cumFreq freq shift => do
      let (count, d) ← getCountShift d shift
      let d ← decodeShift d cumFreq freq
      .ok (count, d)
  | .uniform T _ maxval bitmax => decodeUniform T d maxval bitmax
  | .uniShift T _ shift => decodeUniShift T d shift

def encodeSymbols : List Symbol → Encoder → Except CprsErr Encoder
  | [], e => endCompress e
  | s :: rest, e => do
      let e ← encodeSymbol e s
      encodeSymbols rest e

def decodeSymbols : List Symbol → Decoder → Except CprsErr (List Nat × Decoder)
  | [], d => .ok ([], d)
  | s :: rest, d => do
      let (count, d) ← decodeSymbol d s
      let (counts, d) ← decodeSymbols rest d
      .ok (count :: counts, d)

def compress (len : Nat) (symbols : List Symbol) : Except CprsErr (List Byte) := do
  let e ← encodeSymbols symbols (initCompress len)
  .ok e.out

def decompress (bytes : List Byte) (symbols : List Symbol) :
    Except CprsErr (List Nat × Decoder) := do
  let d ← initDecompress bytes
  decodeSymbols symbols d

end Brighthouse.Compress.RangeCoder
