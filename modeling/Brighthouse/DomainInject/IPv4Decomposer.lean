import Brighthouse.DomainInject.Concatenator

/-!
# Decomposition of internet addresses

`IPv4_Decomposer::Decompose` keeps an address as four numbers and, for each of them, the
number of zeros in front of it, all in blocks of `uchar`.  Strings that are not addresses are
outliers.  `IPv4_Decomposer::Compose` prints the addresses again, in a loop of its own if there
are no outliers.
-/

set_option autoImplicit false

namespace Brighthouse.DomainInject.IPv4Decomposer

open Library
open Concatenator (Composition)

def uchar (n : Nat) : Nat := n % 2 ^ 8

def dot : Byte := 46

/-! ## Parsing -/

structure Part where
  licz : Nat
  lzer : Nat
  deriving DecidableEq

def parsePart (last : Bool) (src : Bytes) : Option (Part × Bytes) :=
  let lzer := uchar (src.takeWhile (· == Decimal.zero)).length
  let afterZeros := src.dropWhile (· == Decimal.zero)
  let tmp := (afterZeros.takeWhile fun c => decide (Decimal.IsDigit c)).take 3
  let number :=
    if tmp = [] then if lzer = 0 then none else some ⟨0, lzer - 1⟩
    else if Decimal.value tmp = 0 ∨ 255 < Decimal.value tmp then none
    else some ⟨Decimal.value tmp, lzer⟩
  match last, afterZeros.drop tmp.length with
  | true, [] => number.map (·, [])
  | true, _ :: _ => none
  | false, [] => none
  | false, c :: rest => if c = dot then number.map (·, rest) else none

def parseIp (src : Bytes) : Option (Fin 4 → Part) := do
  let (first, rest) ← parsePart false src
  let (second, rest) ← parsePart false rest
  let (third, rest) ← parsePart false rest
  let (fourth, _) ← parsePart true rest
  some ![first, second, third, fourth]

/-! ## Decompose -/

structure Decomposition where
  h : Fin 4 → List Nat
  hLzer : Fin 4 → List Nat
  outliers : List Bytes
  outlMask : List Nat
  outlCnt : Nat
  stats : CompressionStatistics

def decomposeRow (o : Nat) (s : Bytes) (d : Decomposition) : Decomposition :=
  match parseIp s with
  | none =>
    { d with
      outliers := d.outliers ++ [s], outlMask := d.outlMask ++ [1], outlCnt := d.outlCnt + 1
      stats :=
        if d.stats.previousNoObj ≤ o then
          { d.stats with newNoOutliers := (d.stats.newNoOutliers + 1) % 2 ^ 32 }
        else d.stats }
  | some parts =>
    { d with
      h := fun i => d.h i ++ [(parts i).licz], hLzer := fun i => d.hLzer i ++ [(parts i).lzer]
      outlMask := d.outlMask ++ [0] }

def decomposeRows : Nat → List Bytes → Decomposition → Decomposition
  | _, [], d => d
  | o, s :: rest, d => decomposeRows (o + 1) rest (decomposeRow o s d)

def decompose (input : StringDataBlock) (stats : CompressionStatistics) :
    List DataBlock × CompressionStatistics :=
  let d := decomposeRows 0 input.rows ⟨fun _ => [], fun _ => [], [], [], 0, stats⟩
  ((if 0 < d.outlCnt then [.uchar d.outlMask, .string d.outliers] else []) ++
    (List.finRange 4).flatMap (fun i => [.uchar (d.h i), .uchar (d.hLzer i)]), d.stats)

/-! ## Compose -/

def noDigits (x : Nat) : Nat := if 99 < x then 3 else if 9 < x then 2 else 1

def digitChar (d : Nat) : Byte := Fin.ofNat 256 (48 + d)

/-- The `switch` over the number of digits, which falls through. -/
def numberText (licz : Nat) : Bytes :=
  (if 3 ≤ noDigits licz then [digitChar (licz / 100)] else []) ++
    (if 2 ≤ noDigits licz then [digitChar (licz % 100 / 10)] else []) ++ [digitChar (licz % 10)]

def Part.text (part : Part) : Bytes := List.replicate part.lzer Decimal.zero ++ numberText part.licz

/-- The characters are written one by one; `len` counts modulo `modulus`. -/
def putText (modulus shift : Nat) (s : Bytes) (state : Memory × Nat) : Memory × Nat :=
  s.foldl (fun (data, len) c => (data.store (shift + len) [c], (len + 1) % modulus)) state

def readPart (blocks : List DataBlock) (i row : Nat) : Option Part :=
  match blocks[2 * i]?, blocks[2 * i + 1]? with
  | some (.uchar h), some (.uchar hLzer) => do
      let licz ← h[row]?
      let lzer ← hLzer[row]?
      some ⟨licz, lzer⟩
  | _, _ => none

def composeRow (modulus : Nat) (blocks : List DataBlock) (row shift : Nat) :
    List Nat → Memory × Nat → Option (Memory × Nat)
  | [], state => some state
  | i :: rest, state => do
      let part ← readPart blocks i row
      composeRow modulus blocks row shift rest
        (putText modulus shift ((if i ≠ 0 then [dot] else []) ++ part.text) state)

def addString (p : Composition) (data : Memory) (len : Nat) : Composition :=
  { p with data, out := p.out ++ [(p.shift, len)], shift := (p.shift + len) % 2 ^ 32 }

def composeAddress (modulus : Nat) (blocks : List DataBlock) (p : Composition) :
    Option Composition := do
  let (data, len) ← composeRow modulus blocks p.parsedCnt p.shift (List.range 4) (p.data, 0)
  some { addString p data len with parsedCnt := p.parsedCnt + 1 }

def composeOutlier (outliers : List Bytes) (p : Composition) : Option Composition := do
  let s ← outliers[p.outlCnt]?
  some { addString p (p.data.store p.shift s) s.length with outlCnt := p.outlCnt + 1 }

def composeRows (modulus : Nat) (outliers : List Bytes) (blocks : List DataBlock) :
    List Nat → Composition → Option Composition
  | [], p => some p
  | value :: rest, p =>
    (if value = 0 then composeAddress modulus blocks p else composeOutlier outliers p).bind
      (composeRows modulus outliers blocks rest)

/-- The length of an address is a `uchar` where there are no outliers and a `ushort` where there
are some.  With too few blocks `outliers` stays as it was. -/
def compose (input : List DataBlock) (data : Memory) (outliers : Nat) : Option (List Bytes × Nat) :=
  let p : Composition := ⟨data, 0, [], 0, 0⟩
  if input.length < 8 then some ([], outliers)
  else if input.length = 8 then do
    let first ← input[0]?
    let p ← composeRows (2 ^ 8) [] input (List.replicate first.getNObj 0) p
    some (p.strings, 0)
  else
    match input with
    | .uchar mask :: .string outliers :: blocks => do
        let p ← composeRows (2 ^ 16) outliers blocks mask p
        some (p.strings, p.outlCnt)
    | _ => none

end Brighthouse.DomainInject.IPv4Decomposer
