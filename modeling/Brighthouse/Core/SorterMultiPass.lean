import Brighthouse.Core.SorterQuickSort

/-!
# External sort

Functional model of `SorterMultiPass` (`core/Sorter3.cpp`) with the part of `CacheableItem`
it uses.  The buffer holds whole rows; sizes and offsets are counted in bytes as in the
source and have the width of `int`.  What the memory manager, `rand` and `priority_queue`
contribute is given by the surroundings.
-/

set_option autoImplicit false

namespace Brighthouse.Core

open Library Library.Buffer

def toInt32 (x : Int) : Int := Int.bmod x (2 ^ 32)

/-- Signed arithmetic must not leave the range of `int`. -/
def checkedInt (x : Int) : Option Int := if -2 ^ 31 ≤ x ∧ x < 2 ^ 31 then some x else none

/-- `top` is the position of the element that `priority_queue::top` returns, given how many
elements were taken before and the keys in the queue. -/
structure Surroundings (c : SorterSizes) where
  memory : Nat → c.Row
  rand : Nat → Nat → Nat
  top : Nat → List Bytes → Nat
  top_least : ∀ n keys, keys ≠ [] → ∃ key, keys[top n keys]? = some key ∧
    ∀ other ∈ keys, key ≤ other

structure BlockDescription where
  blockSize : Int
  fileOffset : Int
  blockStart : Int
  /-- `-1`: the buffer is to be read; `-2`: the end of the block -/
  readOffset : Int
  bufSize : Int

structure Keyblock where
  block : Nat
  record : Int

structure SorterMultiPass (c : SorterSizes) where
  buf : Nat → c.Row
  bufBytes : Nat
  bufInputPos : Nat
  alreadySorted : Bool
  noBlocks : Nat
  blocks : List BlockDescription
  files : Nat → Option (List c.Row)
  heap : List Keyblock
  taken : Nat
  lastRow : c.Row

namespace SorterMultiPass

variable {c : SorterSizes}

variable (env : Surroundings c) (s : SorterMultiPass c)

def construct : SorterMultiPass c where
  buf := env.memory
  bufBytes := c.size * c.totalBytes
  bufInputPos := 0
  alreadySorted := true
  noBlocks := 0
  blocks := []
  files := fun _ => none
  heap := []
  taken := 0
  lastRow := env.memory 0

def rowAt (pointer : Int) : c.Row := s.buf (pointer / c.totalBytes).toNat

/-- `CI_Put` writes nothing if the size is not positive. -/
def ciPut (files : Nat → Option (List c.Row)) (block : Nat) (bytes : Int) (rows : List c.Row) :
    Nat → Option (List c.Row) :=
  if bytes ≤ 0 then files else Function.update files block (some rows)

def putBlock : Option (SorterMultiPass c) :=
  match quickSort c.key c (env.rand s.noBlocks) s.bufInputPos s.buf with
  | none => none
  | some buf =>
    let bytes := toInt32 (s.bufInputPos * c.totalBytes)
    some { s with
      buf := buf
      blocks := s.blocks ++ [⟨bytes, 0, 0, -1, 0⟩]
      files := ciPut s.files s.noBlocks bytes (elements buf s.bufInputPos)
      noBlocks := s.noBlocks + 1 }

def putValue (b : c.Row) : Option (SorterMultiPass c) :=
  let spilled :=
    if s.bufInputPos = c.size then (s.putBlock env).map ({ · with bufInputPos := 0 }) else some s
  match spilled with
  | none => none
  | some s =>
    -- without rows `buf` is `NULL`
    if c.size = 0 then none
    else some { s with
      alreadySorted := false
      buf := Function.update s.buf s.bufInputPos b
      bufInputPos := s.bufInputPos + 1 }

/-! ## GetFromBlock -/

/-- The part of the buffer from row `start` on is overwritten by the first rows given. -/
def overwrite {α : Type} (buf : Nat → α) (start count : Nat) (rows : List α) (k : Nat) : α :=
  if start ≤ k ∧ k < start + count then rows[k - start]?.getD (buf k) else buf k

/-- `CI_Get` brings whole rows to a place inside the buffer; it returns without data if the file
does not have so many. -/
def ciGet (b : Nat) (start bytes offset : Int) : Option (SorterMultiPass c) :=
  if 0 ≤ start ∧ start % c.totalBytes = 0 ∧ bytes % c.totalBytes = 0 ∧
      start + bytes ≤ s.bufBytes then
    match s.files b with
    | none => some s
    | some rows =>
      if (rows.length * c.totalBytes : Int) < offset + bytes then some s
      else some { s with
        buf := overwrite s.buf (start / c.totalBytes).toNat (bytes / c.totalBytes).toNat
          (rows.drop (offset / c.totalBytes).toNat) }
  else none

def setBlock (b : Nat) (d : BlockDescription) : SorterMultiPass c :=
  { s with blocks := s.blocks.set b d }

def nextOfBuffer (b : Nat) (d : BlockDescription) : Keyblock × SorterMultiPass c :=
  let readOffset := d.readOffset + c.totalBytes
  (⟨b, d.blockStart + d.readOffset⟩,
    s.setBlock b { d with readOffset := if d.bufSize ≤ readOffset then -1 else readOffset })

/-- The next row of a block, none at its end, and whether the buffer was reloaded. -/
def getFromBlock (b : Nat) : Option (Option Keyblock × Bool × SorterMultiPass c) :=
  match s.blocks[b]? with
  | none => none
  | some d =>
    if d.readOffset = -2 then some (none, false, s)
    else if d.readOffset = -1 then
      let reloaded := decide (0 < d.fileOffset)
      -- the last row is preserved
      let s :=
        if reloaded then { s with lastRow := s.rowAt (d.blockStart + d.bufSize - c.totalBytes) }
        else s
      let bytesToLoad := min (d.blockSize - d.fileOffset) d.bufSize
      if bytesToLoad ≤ 0 then some (none, reloaded, s.setBlock b { d with readOffset := -2 })
      else
        match s.ciGet b d.blockStart bytesToLoad d.fileOffset with
        | none => none
        | some s =>
          let (kb, s) := s.nextOfBuffer b { d with
            fileOffset := d.fileOffset + bytesToLoad
            readOffset := 0
            bufSize := bytesToLoad }
          some (some kb, reloaded, s)
    else
      let (kb, s) := s.nextOfBuffer b d
      some (some kb, false, s)

def pushHeap : Option Keyblock → SorterMultiPass c
  | none => s
  | some kb => { s with heap := kb :: s.heap }

/-! ## InitHeap -/

def initBlocks (standardBufSize lastBufSize : Int) :
    Nat → Nat → SorterMultiPass c → Option (SorterMultiPass c)
  | 0, _, s => some s
  | left + 1, i, s =>
    match checkedInt (i * standardBufSize), s.blocks[i]? with
    | some blockStart, some d =>
      let bufSize := if i < s.noBlocks - 1 then standardBufSize else lastBufSize
      let s := s.setBlock i { d with blockStart := blockStart, bufSize := bufSize }
      match s.getFromBlock i with
      | none => none
      | some (kb, _, s) => initBlocks standardBufSize lastBufSize left (i + 1) (s.pushHeap kb)
    | _, _ => none

def tooSmall : Bool := toInt32 (c.size / s.noBlocks : Nat) < 3

def rowsInSmallBuffer : Int :=
  if s.tooSmall then 3 else toInt32 (c.size / s.noBlocks : Nat)

def growBuffer : SorterMultiPass c :=
  if s.tooSmall then
    { s with buf := env.memory, bufBytes := 3 * c.totalBytes * s.noBlocks % 2 ^ 32 }
  else s

def initHeap : Option (SorterMultiPass c) :=
  -- the division by `no_blocks`
  if s.noBlocks = 0 then none
  else
    let standardBufSize := toInt32 (s.rowsInSmallBuffer * c.totalBytes)
    match checkedInt (standardBufSize * (s.noBlocks - 1)) with
    | none => none
    | some used =>
      let lastBufSize := toInt32 (c.size * c.totalBytes - used)
      initBlocks standardBufSize lastBufSize s.noBlocks 0 (s.growBuffer env)

/-! ## GetNextValue and Rewind -/

/-- On the first call the rest of the rows becomes the last block. -/
def prepare : Option (SorterMultiPass c) :=
  if s.alreadySorted then some s
  else ((s.putBlock env).bind (initHeap env)).map ({ · with alreadySorted := true })

def takeTop : Option (Option c.Row × SorterMultiPass c) :=
  if s.heap = [] then some (none, s)
  else
    let top := env.top s.taken (s.heap.map fun kb => c.key (s.rowAt kb.record))
    match s.heap[top]? with
    | none => none
    | some kb =>
      let s := { s with heap := s.heap.eraseIdx top, taken := s.taken + 1 }
      match s.getFromBlock kb.block with
      | none => none
      | some (next, reloaded, s) =>
        let s := s.pushHeap next
        some (some (if reloaded then s.lastRow else s.rowAt kb.record), s)

def getNextValue : Option (Option c.Row × SorterMultiPass c) :=
  (s.prepare env).bind (takeTop env)

def rewind : Option (SorterMultiPass c) :=
  initHeap env { s with
    heap := []
    blocks := s.blocks.map fun d => { d with fileOffset := 0, readOffset := -1 } }

/-! ## Runs -/

def putAll (env : Surroundings c) : List c.Row → SorterMultiPass c → Option (SorterMultiPass c)
  | [], s => some s
  | row :: rows, s => (s.putValue env row).bind (putAll env rows)

def getAll (env : Surroundings c) :
    Nat → SorterMultiPass c → Option (List c.Row × SorterMultiPass c)
  | 0, _ => none
  | calls + 1, s =>
    match s.getNextValue env with
    | none => none
    | some (none, s) => some ([], s)
    | some (some row, s) => (getAll env calls s).map fun (rows, s) => (row :: rows, s)

def readings (env : Surroundings c) (calls : Nat) :
    Nat → SorterMultiPass c → Option (List (List c.Row))
  | 0, s => (getAll env calls s).map fun (rows, _) => [rows]
  | rewinds + 1, s => do
      let (rows, s) ← getAll env calls s
      let s ← s.rewind env
      let more ← readings env calls rewinds s
      return rows :: more

/-- The rows put come back in order, as often as they are read. -/
def SortsRows (rows : List c.Row) : Prop :=
  ∀ rewinds, ∃ s returned, putAll env rows (construct env) = some s ∧
    readings env (rows.length + 1) rewinds s = some returned ∧ returned.length = rewinds + 1 ∧
    ∀ result ∈ returned, result.Perm rows ∧ result.Pairwise (c.key · ≤ c.key ·)

end SorterMultiPass

end Brighthouse.Core
