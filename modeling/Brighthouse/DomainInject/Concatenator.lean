import Brighthouse.Library.Decimal

/-!
# Decomposition of strings by a rule

A rule is a text with places for numbers (`%d`) and strings (`%s`).  `Concatenator::Decompose`
splits the strings of a pack by it into blocks, one for each place; strings that do not follow
the rule are outliers and get a block of their own.  `Concatenator::Compose` builds the strings
from the blocks.  Where the source leaves the bounds of a vector or of an `int`, there is no
result.
-/

set_option autoImplicit false

namespace Brighthouse.DomainInject

open Library

def ushort (n : Nat) : Nat := n % 2 ^ 16

/-! ## Blocks -/

/-- The lengths of the strings in a block are kept as `ushort`. -/
structure StringDataBlock where
  rows : List Bytes
  short : ∀ s ∈ rows, s.length < 2 ^ 16

/-- The blocks of a decomposition: `NumericDataBlock<uchar>`, `NumericDataBlock<_uint64>` and
`StringDataBlock`. -/
inductive DataBlock where
  | uchar (values : List Nat)
  | uint64 (values : List Nat)
  | string (rows : List Bytes)
  deriving DecidableEq

def DataBlock.getNObj : DataBlock → Nat
  | .uchar values => values.length
  | .uint64 values => values.length
  | .string rows => rows.length

structure CompressionStatistics where
  previousNoObj : Nat
  previousNoOutliers : Nat
  newNoOutliers : Nat
  deriving DecidableEq

/-! ## Rules -/

namespace Concatenator

def percent : Byte := 37

def letterD : Byte := 100

def letterS : Byte := 115

def find (rule : Bytes) (c : Byte) (off : Nat) : Option Nat :=
  (List.range rule.length).find? fun pos =>
    off ≤ pos && rule[pos]? == some percent && rule[pos + 1]? == some c

def validPlaces (rule : Bytes) (c : Byte) : Nat → Nat → Option Nat → Bool
  | 0, _, _ => true
  | turns + 1, off, oldPos =>
    match find rule c off with
    | none => true
    | some pos =>
      if oldPos.any fun old => old + 2 == pos then false
      else
        validPlaces rule c turns (pos + 2)
          (if pos == 0 || rule[pos - 1]? != some percent then some pos else oldPos)

def isValid (rule : Bytes) : Bool :=
  validPlaces rule letterS (rule.length + 1) 0 none &&
    validPlaces rule letterD (rule.length + 1) 0 none

inductive MaskBlockType where
  | s
  | n
  deriving DecidableEq

/-- What a piece of the regular expression stands for: a character, `(\d{1,18})` or `(.*?)`. -/
inductive RegexItem where
  | char (c : Byte)
  | number
  | text
  deriving DecidableEq

end Concatenator

open Concatenator in
structure Concatenator where
  mask : Bytes
  blockType : List MaskBlockType
  noBlN : Nat
  noBlS : Nat
  re : List RegexItem

namespace Concatenator

variable (c : Concatenator)

def addChar (char : Byte) : Concatenator := { c with re := c.re ++ [.char char] }

def addNumber : Concatenator :=
  { c with
    re := c.re ++ [.number], blockType := c.blockType ++ [.n], noBlN := ushort (c.noBlN + 1) }

def addText : Concatenator :=
  { c with
    re := c.re ++ [.text], blockType := c.blockType ++ [.s], noBlS := ushort (c.noBlS + 1) }

/-- The loop of the constructor over the characters of the rule. -/
def readRule : Bytes → Concatenator → Concatenator
  | [], c => c
  | [char], c => c.addChar char
  | char :: next :: rest, c =>
    if char = percent then
      if next = letterD then readRule rest c.addNumber
      else if next = letterS then readRule rest c.addText
      else if next = percent then readRule rest (c.addChar percent)
      else readRule (next :: rest) (c.addChar percent)
    else readRule (next :: rest) (c.addChar char)

def new (s : Bytes) : Concatenator := readRule s ⟨s, [], 0, 0, []⟩

/-! ## Regular expressions -/

/-- The groups are a partition of the string by the expression. -/
inductive Partition : List RegexItem → List Bytes → Bytes → Prop
  | nil : Partition [] [] []
  | char (c : Byte) {re groups s}
      (rest : Partition re groups s) : Partition (.char c :: re) groups (c :: s)
  | number {group : Bytes} {re groups s}
      (digits : ∀ c ∈ group, Decimal.IsDigit c) (nonempty : group ≠ [])
      (short : group.length ≤ 18) (rest : Partition re groups s) :
      Partition (.number :: re) (group :: groups) (group ++ s)
  | text (group : Bytes) {re groups s}
      (rest : Partition re groups s) : Partition (.text :: re) (group :: groups) (group ++ s)

/-- `boost::regex_match`, with the groups it finds. -/
structure RegexMatch where
  regexMatch : List RegexItem → Bytes → Option (List Bytes)
  partition : ∀ re s groups, regexMatch re s = some groups → Partition re groups s

/-! ## Decompose -/

def charValue (c : Byte) : Int := if c.val < 128 then c.val else c.val - 256

def parseNumber (src : Bytes) : Nat :=
  src.foldl (fun val c => ((val * 10 + (charValue c - 48) : Int) % 2 ^ 64).toNat) 0

def noBlocks : Nat := c.noBlN + c.noBlS

/-- A number in the groups that would lose its leading zeros. -/
def hasLeadingZero (subgr : List Bytes) : Bool :=
  ((c.blockType.zip subgr).take c.noBlocks).any fun (type, group) =>
    type == .n && group.head? == some Decimal.zero && decide (1 < group.length)

def groupsOf (boost : RegexMatch) (c : Concatenator) (s : Bytes) : Option (List Bytes) :=
  (boost.regexMatch c.re s).filter fun subgr => !c.hasLeadingZero subgr

structure GroupBlocks where
  blockN : List (List Nat)
  blockS : List (List Bytes)

def addGroups : List (MaskBlockType × Bytes) → Nat → Nat → GroupBlocks → Option GroupBlocks
  | [], _, _, blocks => some blocks
  | (.n, group) :: rest, blNCnt, blSCnt, blocks => do
      let values ← blocks.blockN[blNCnt]?
      addGroups rest (ushort (blNCnt + 1)) blSCnt
        { blocks with blockN := blocks.blockN.set blNCnt (values ++ [parseNumber group]) }
  | (.s, group) :: rest, blNCnt, blSCnt, blocks => do
      let rows ← blocks.blockS[blSCnt]?
      addGroups rest blNCnt (ushort (blSCnt + 1))
        { blocks with
          blockS := blocks.blockS.set blSCnt (rows ++ [group.take (ushort group.length)]) }

structure Decomposition where
  blocks : GroupBlocks
  outliers : List Bytes
  outlMask : List Nat
  outlCnt : Nat
  stats : CompressionStatistics

def decomposeRow (boost : RegexMatch) (c : Concatenator) (o : Nat) (s : Bytes)
    (d : Decomposition) : Option Decomposition :=
  match c.groupsOf boost s with
  | none =>
    some
      { d with
        outliers := d.outliers ++ [s], outlMask := d.outlMask ++ [1], outlCnt := d.outlCnt + 1
        stats :=
          if d.stats.previousNoObj ≤ o then
            { d.stats with newNoOutliers := (d.stats.newNoOutliers + 1) % 2 ^ 32 }
          else d.stats }
  | some subgr =>
    (addGroups ((c.blockType.zip subgr).take c.noBlocks) 0 0 d.blocks).map fun blocks =>
      { d with blocks, outlMask := d.outlMask ++ [0] }

def decomposeRows (boost : RegexMatch) (c : Concatenator) :
    Nat → List Bytes → Decomposition → Option Decomposition
  | _, [], d => some d
  | o, s :: rest, d => (c.decomposeRow boost o s d).bind (decomposeRows boost c (o + 1) rest)

def pushBlocks : List MaskBlockType → Nat → Nat → GroupBlocks → Option (List DataBlock)
  | [], _, _, _ => some []
  | .n :: rest, blNCnt, blSCnt, blocks => do
      let values ← blocks.blockN[blNCnt]?
      let out ← pushBlocks rest (ushort (blNCnt + 1)) blSCnt blocks
      some (.uint64 values :: out)
  | .s :: rest, blNCnt, blSCnt, blocks => do
      let rows ← blocks.blockS[blSCnt]?
      let out ← pushBlocks rest blNCnt (ushort (blSCnt + 1)) blocks
      some (.string rows :: out)

def decompose (boost : RegexMatch) (c : Concatenator) (input : StringDataBlock)
    (stats : CompressionStatistics) : Option (List DataBlock × CompressionStatistics) := do
  let blocks := ⟨List.replicate c.noBlN [], List.replicate c.noBlS []⟩
  let d ← c.decomposeRows boost 0 input.rows ⟨blocks, [], [], 0, stats⟩
  let out ← pushBlocks (c.blockType.take c.noBlocks) 0 0 d.blocks
  some ((if 0 < d.outlCnt then [.uchar d.outlMask, .string d.outliers] else []) ++ out, d.stats)

/-! ## Compose -/

def groupText (type : MaskBlockType) (block : DataBlock) (row : Nat) : Option Bytes :=
  match type, block with
  | .n, .uint64 values => values[row]?.map Decimal.print
  | .s, .string rows => rows[row]?
  | _, _ => none

/-- Text at the end of the string that is being composed; its length is a `ushort`. -/
def put (shift : Nat) (s : Bytes) (state : Memory × Nat) : Memory × Nat :=
  (state.1.store (shift + state.2) s, ushort (state.2 + s.length))

/-- The loop over the mask, for one string.  `blocks` are those of the groups. -/
def composeRow (types : List MaskBlockType) (blocks : List DataBlock) (row shift : Nat) :
    Bytes → Nat → Memory × Nat → Option (Memory × Nat)
  | [], _, state => some state
  | [char], _, state => some (put shift [char] state)
  | char :: next :: rest, blockCnt, state =>
    if char ≠ percent ∨ next ≠ letterS ∧ next ≠ letterD then
      if char = percent ∧ next = percent then
        composeRow types blocks row shift rest blockCnt (put shift [char] state)
      else composeRow types blocks row shift (next :: rest) blockCnt (put shift [char] state)
    else do
      let type ← types[blockCnt]?
      let block ← blocks[blockCnt]?
      let text ← groupText type block row
      composeRow types blocks row shift rest (blockCnt + 1) (put shift text state)

/-- What `Compose` has done: the strings are places in `data_`. -/
structure Composition where
  data : Memory
  shift : Nat
  out : List (Nat × Nat)
  outlCnt : Nat
  parsedCnt : Nat

def Composition.add (p : Composition) (data : Memory) (len : Nat) : Option Composition :=
  if p.shift + len < 2 ^ 31 then
    some { p with data, out := p.out ++ [(p.shift, len)], shift := p.shift + len }
  else none

def composeParsed (blocks : List DataBlock) (p : Composition) : Option Composition := do
  let (data, len) ← composeRow c.blockType blocks p.parsedCnt p.shift c.mask 0 (p.data, 0)
  let p ← p.add data len
  some { p with parsedCnt := p.parsedCnt + 1 }

def composeOutlier (outliers : List Bytes) (p : Composition) : Option Composition := do
  let s ← outliers[p.outlCnt]?
  let p ← p.add (p.data.store p.shift s) s.length
  some { p with outlCnt := p.outlCnt + 1 }

/-- The loop with outliers, over the values of the mask of outliers. -/
def composeRows (c : Concatenator) (outliers : List Bytes) (blocks : List DataBlock) :
    List Nat → Composition → Option Composition
  | [], p => some p
  | value :: rest, p =>
    (if value = 0 then c.composeParsed blocks p else composeOutlier outliers p).bind
      (composeRows c outliers blocks rest)

/-- The strings of the block `out`, read from `data_`. -/
def Composition.strings (p : Composition) : List Bytes :=
  p.out.map fun place => p.data.load place.1 place.2

def compose (input : List DataBlock) (data : Memory) : Option (List Bytes × Nat) := do
  let noBl := ushort (c.noBlS + c.noBlN)
  let first ← input[0]?
  let p : Composition := ⟨data, 0, [], 0, 0⟩
  if input.length = noBl + 2 then
    match input with
    | .uchar mask :: .string outliers :: blocks =>
      let p ← c.composeRows outliers blocks mask p
      some (p.strings, p.outlCnt)
    | _ => none
  else if input.length = noBl then
    let p ← c.composeRows [] input (List.replicate first.getNObj 0) p
    some (p.strings, 0)
  else some ([], 0)

end Concatenator

end Brighthouse.DomainInject
