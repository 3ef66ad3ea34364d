import Brighthouse.Library.Borders
import Brighthouse.Library.Bytes

/-!
# Line terminators

Functional model of `ParsingStrategyText::GetEOL` (`loader/ParsingStrategyText.cpp`) when no
line terminator is given.  A pointer into the buffer is the text from there on; `none` is an
exception.  The rows themselves are described by a grammar.
-/

set_option autoImplicit false

namespace Brighthouse.Loader

open Library Borders List

/-- Zero stands for no qualifier or no escape character. -/
structure ParsingStrategyText where
  noColumns : Nat
  delimiter : Bytes
  stringQualifier : Byte
  escapeChar : Byte

/-! ## Searching a pattern -/

/-- One turn of `PrepareKMPNext`; `i` is one less than in the source. -/
def prepareTurn (pattern : Bytes) (s : List Int × Int) (i : Nat) : List Int × Int :=
  let b := fallBack pattern s.1 (pattern.getD i 0) (pattern.length + 1) s.2 + 1
  (s.1 ++ [if charAt pattern (i + 1) = charAt pattern b then s.1.getD b.toNat (-1) else b], b)

def prepareKMPNext (pattern : Bytes) : List Int :=
  ((range pattern.length).foldl (prepareTurn pattern) ([-1], -1)).1

namespace ParsingStrategyText

variable (p : ParsingStrategyText)

def isEscape (c : Byte) : Bool := p.escapeChar ≠ 0 ∧ c = p.escapeChar

/-- The search for a pattern of one or two bytes; `skip` bytes are passed over first. -/
def searchShort (pattern : Bytes) : Nat → Bytes → Option Bytes
  | _, [] => none
  | skip + 1, _ :: rest => searchShort pattern skip rest
  | 0, c :: rest =>
    if pattern.isPrefixOf (c :: rest) then some (c :: rest)
    else searchShort pattern (if p.isEscape c then 1 else 0) rest

/-- The search for a longer pattern, `b` bytes of which are matched before `ptr`. -/
def searchLong (pattern buf : Bytes) : Nat → Nat → Int → Bytes → Option Bytes
  | _, _, _, [] => none
  | skip + 1, ptr, b, _ :: rest => searchLong pattern buf skip (ptr + 1) b rest
  | 0, ptr, b, c :: rest =>
    let next := prepareKMPNext pattern
    if p.isEscape c then searchLong pattern buf 1 (ptr + 1) 0 rest
    else if charAt pattern b ≠ c then
      let b := if b ≠ 0 then
        fallBack pattern next c (pattern.length + 1) (next.getD b.toNat (-1)) + 1 else b
      searchLong pattern buf 0 (ptr + 1) b rest
    else if b + 1 = pattern.length then some (buf.drop (ptr + 1 - pattern.length))
    else searchLong pattern buf 0 (ptr + 1) (b + 1) rest

def searchUnescapedPattern (pattern buf : Bytes) : Option Bytes :=
  if pattern.length = 1 ∨ pattern.length = 2 then p.searchShort pattern 0 buf
  else p.searchLong pattern buf 0 0 0 buf

/-! ## The last column -/

/-- `*ptr` is a signed `char` and `string_qualifier` an unsigned one. -/
def isQualifier (c : Byte) : Bool := p.stringQualifier ≠ 0 ∧ c = p.stringQualifier ∧ c.val < 128

def isEnclosed (buf : Bytes) : Bool := buf.head?.any p.isQualifier

def skipColumns : Nat → Bytes → Option Bytes
  | 0, buf => some buf
  | columns + 1, buf =>
    let found :=
      if p.isEnclosed buf then
        (p.searchUnescapedPattern (p.stringQualifier :: p.delimiter) buf.tail).map tail
      else p.searchUnescapedPattern p.delimiter buf
    found.bind fun ptr => skipColumns columns (ptr.drop p.delimiter.length)

def terminator (text : Bytes) : Option Bytes :=
  if text.head? = some 10 then some [10]
  else if text.take 2 = [13, 10] then some [13, 10]
  else none

/-- A column in `string_qualifier` ends at the qualifier before the line terminator. -/
def columnEnd (enclosed : Bool) (text : Bytes) : Option Bytes :=
  if enclosed then if p.isEnclosed text then terminator text.tail else none
  else terminator text

/-- The number of bytes after the escape character that belong to it. -/
def escaped (enclosed : Bool) (text : Bytes) : Nat :=
  if enclosed = false ∧ text.take 2 = [13, 10] then 2 else 1

/-- The first end of the column.  `extra` bytes are passed over after an escape sequence. -/
def scanEnd (extra : Nat) (enclosed : Bool) (ends : Bytes → Option Bytes) :
    Nat → Bytes → Option Bytes
  | _, [] => none
  | skip + 1, _ :: rest => scanEnd extra enclosed ends skip rest
  | 0, c :: rest =>
    if p.isEscape c then scanEnd extra enclosed ends (escaped enclosed rest + extra) rest
    else
      match ends (c :: rest) with
      | some eol => some eol
      | none => scanEnd extra enclosed ends 0 rest

/-- `GuessUnescapedEOL` and `GuessUnescapedEOLWithEnclose` are loops that advance once more after
an escape sequence. -/
def getEOL (buf : Bytes) : Option Bytes :=
  (p.skipColumns (p.noColumns - 1) buf).bind fun ptr =>
    p.scanEnd 1 (p.isEnclosed ptr) (p.columnEnd (p.isEnclosed ptr)) 0
      (if p.isEnclosed ptr then ptr.tail else ptr)

/-! ## Rows -/

def begins (text : Bytes) : Bool := p.stringQualifier ≠ 0 ∧ text.head? = some p.stringQualifier

def mark (enclosed : Bool) : Bytes := if enclosed then [p.stringQualifier] else []

/-- The text of a column before `stop`: the first place outside the escape sequences where `stop`
stands is behind it. -/
inductive Field (stop after : Bytes) : Bytes → Prop where
  | nil : Field stop after []
  | byte {c : Byte} {field : Bytes} (plain : p.isEscape c = false)
      (other : ¬stop <+: c :: (field ++ (stop ++ after))) (rest : Field stop after field) :
      Field stop after (c :: field)
  | sequence {c e : Byte} {field : Bytes} (isEscape : p.isEscape c = true)
      (other : ¬stop <+: c :: e :: (field ++ (stop ++ after))) (rest : Field stop after field) :
      Field stop after (c :: e :: field)

/-- The columns before the last one, with flags for the enclosed ones, and the text after them. -/
inductive Columns : List Bool → Bytes → Bytes → Prop where
  | nil (last : Bytes) : Columns [] last last
  | cons {enclosed : Bool} {flags : List Bool} {field after last : Bytes}
      (first : enclosed =
        p.begins (p.mark enclosed ++ (field ++ (p.mark enclosed ++ p.delimiter ++ after))))
      (isField : p.Field (p.mark enclosed ++ p.delimiter) after field)
      (rest : Columns flags after last) :
      Columns (enclosed :: flags)
        (p.mark enclosed ++ (field ++ (p.mark enclosed ++ p.delimiter ++ after))) last

/-- The first line end of a last column that is neither escaped nor enclosed. -/
def lineEnd (last : Bytes) : Option Bytes :=
  let enclosed := p.begins last
  p.scanEnd 0 enclosed
    (fun text => if enclosed then if p.begins text then terminator text.tail else none
      else terminator text)
    0 (last.drop (p.mark enclosed).length)

/-- In the last column no escape sequence stands right before another one or before the end. -/
inductive Apart (enclosed : Bool) : Bytes → Prop where
  | ends {c : Byte} {rest : Bytes} (plain : p.isEscape c = false)
      (found : p.columnEnd enclosed (c :: rest) ≠ none) : Apart enclosed (c :: rest)
  | byte {c : Byte} {rest : Bytes} (plain : p.isEscape c = false) (after : Apart enclosed rest) :
      Apart enclosed (c :: rest)
  | sequence {c d : Byte} {front rest : Bytes} (isEscape : p.isEscape c = true)
      (whole : escaped enclosed (front ++ d :: rest) = front.length)
      (plain : p.isEscape d = false) (inside : p.columnEnd enclosed (d :: rest) = none)
      (after : Apart enclosed rest) : Apart enclosed (c :: (front ++ d :: rest))

/-- The text after a column can be searched for: a long one has no escape character. -/
structure Searchable (stop : Bytes) : Prop where
  nonempty : stop ≠ []
  plain : stop.length ≤ 2 ∨ ∀ c ∈ stop, p.isEscape c = false

end ParsingStrategyText

end Brighthouse.Loader
