import Brighthouse.Core.FTree

/-!
# The hash table of a join

Functional model of `JoinerHashTable` (`core/JoinerHashTable.cpp`).  A row of the table is a
key and a multiplier; the multiplier is `0` in an empty row.  Tuple columns are kept by the
join itself.  The loops that walk the table get a number of turns here, and give no result when
it is used up.  Sizes are those of tables that fit in memory, where `_int64(n * 1.25)` and
`_int64(n * 0.9)` are exact.  `NULL_VALUE_64` as a row is `none`.
-/

set_option autoImplicit false

namespace Brighthouse.Core

open Library

structure JoinRow where
  key : Bytes
  multiplier : Nat
  deriving DecidableEq

structure JoinerHashTable where
  forCountOnly : Bool
  keyBufWidth : Nat
  noRows : Nat
  rowsLimit : Nat
  t : Nat → JoinRow
  inputBuffer : Bytes
  noOfOccupied : Nat
  tooManyConflicts : Bool
  currentRow : Option Nat
  toBeReturned : Nat
  currentIterateStep : Nat

namespace JoinerHashTable

/-! ## Construction -/

def maxHashConflicts : Nat := 128

def minPrimeNotInTable : Nat := 277

def primeSteps : List Nat :=
  [7, 11, 13, 17, 19, 23, 29, 31, 37, 41,
   43, 47, 53, 59, 61, 67, 71, 73, 79, 83,
   89, 97, 101, 103, 107, 109, 113, 127, 131, 137,
   139, 149, 151, 157, 163, 167, 173, 179, 181, 191,
   193, 197, 199, 211, 223, 227, 229, 233, 239, 241,
   251, 257, 263, 269, 271]

def avoidSteps : Nat → Nat → Nat
  | 0, noRows => noRows
  | turns + 1, noRows =>
    if primeSteps.any (noRows % · == 0) then avoidSteps turns (noRows + minPrimeNotInTable)
    else noRows

def verticalSize (noRows : Nat) : Nat :=
  let noRows :=
    if noRows < minPrimeNotInTable then minPrimeNotInTable
    else (noRows / minPrimeNotInTable + 1) * minPrimeNotInTable
  avoidSteps noRows noRows

/-- The number of rows asked for; `memoryLimit` is `TrackableObject::MaxBufferSize`. -/
def rowsWanted (maxTableSize totalWidth memoryLimit : Nat) : Nat :=
  if (maxTableSize + 1) * totalWidth * 5 < 64 * 2 ^ 20 * 4 then (maxTableSize + 1) * 5 / 4
  else
    let noRows := memoryLimit / totalWidth
    if (maxTableSize + 1) * 5 < noRows * 4 then (maxTableSize + 1) * 5 / 4 else noRows

def clearedRow (keyBufWidth : Nat) : JoinRow := ⟨List.replicate keyBufWidth 0, 0⟩

variable (h : JoinerHashTable)

def clearAll : JoinerHashTable :=
  { h with
    t := fun _ => clearedRow h.keyBufWidth
    inputBuffer := List.replicate h.keyBufWidth 0
    noOfOccupied := 0 }

/-- The constructor, `AddKeyColumn` and `AddTupleColumn` for columns of the sizes given, and
`Initialize`; without a key column there is no table. -/
def initializeTable (keySizes tupleSizes : List Nat) (maxTableSize memoryLimit : Nat) :
    Option JoinerHashTable :=
  let maxTableSize := if maxTableSize < 2 then 2 else maxTableSize
  if keySizes = [] then none
  else
    let keyBufWidth := 4 * ((keySizes.sum + 3) / 4)
    -- the multiplier is one more tuple column
    let totalWidth := keyBufWidth + (tupleSizes ++ [8]).sum
    let noRows := verticalSize (rowsWanted maxTableSize totalWidth memoryLimit)
    some (clearAll
      { forCountOnly := tupleSizes.isEmpty
        keyBufWidth := keyBufWidth
        noRows := noRows
        rowsLimit := noRows * 9 / 10
        t := fun _ => clearedRow keyBufWidth
        inputBuffer := []
        noOfOccupied := 0
        tooManyConflicts := false
        currentRow := some 0
        toBeReturned := 0
        currentIterateStep := 0 })

/-! ## Rows of a key -/

/-- What `PutKeyValue` and `PutMatchedValue` leave in the buffer. -/
def putKey (key : Bytes) : JoinerHashTable := { h with inputBuffer := key }

def crcCode (key : Bytes) : Nat := (hashValue key).toNat

def iterateStep (key : Bytes) : Nat := primeSteps.getD (crcCode key % primeSteps.length) 7

def advance (noRows row distance : Nat) : Nat :=
  if noRows ≤ row + distance then (row + distance) % noRows else row + distance

def setRow (row : Nat) (content : JoinRow) : JoinerHashTable :=
  { h with t := Function.update h.t row content }

/-! ## Insertion -/

/-- `(*multiplier)++` at a row that holds the key of the buffer -/
def countOnce (row : Nat) : JoinerHashTable :=
  h.setRow row ⟨(h.t row).key, (h.t row).multiplier + 1⟩

def noteConflicts (multiplier : Nat) : JoinerHashTable :=
  if maxHashConflicts < multiplier then { h with tooManyConflicts := true } else h

def occupy (row : Nat) : JoinerHashTable :=
  { h.setRow row ⟨h.inputBuffer, 1⟩ with noOfOccupied := h.noOfOccupied + 1 }

def addLoop (iterateStep startrow : Nat) :
    Nat → Nat → JoinerHashTable → Option (Option Nat × JoinerHashTable)
  | 0, _, _ => none
  | turns + 1, row, h =>
    let multiplier := (h.t row).multiplier
    if multiplier ≠ 0 then
      if (h.t row).key = h.inputBuffer then
        let h := h.countOnce row
        if h.forCountOnly then some (some row, h)
        else
          let h := h.noteConflicts (multiplier + 1)
          let row := advance h.noRows row (iterateStep * multiplier)
          -- search deadlock
          if row = startrow then some (none, h) else addLoop iterateStep startrow turns row h
      else
        let row := advance h.noRows row iterateStep
        if row = startrow then some (none, h) else addLoop iterateStep startrow turns row h
    else some (some row, h.occupy row)

def findAndAddCurrentRow : Option (Option Nat × JoinerHashTable) :=
  if h.rowsLimit ≤ h.noOfOccupied then some (none, h)
  else
    let row := crcCode h.inputBuffer % h.noRows
    addLoop (iterateStep h.inputBuffer) row h.noRows row h

/-! ## Search -/

/-- `InitCurrentRowToGet` from the row given: the row found and its multiplier. -/
def getLoop (h : JoinerHashTable) (iterateStep startrow : Nat) :
    Nat → Nat → Option (Option Nat × Nat)
  | 0, _ => none
  | turns + 1, row =>
    if (h.t row).multiplier ≠ 0 then
      if (h.t row).key = h.inputBuffer then some (some row, (h.t row).multiplier)
      else
        let row := advance h.noRows row iterateStep
        if row = startrow then some (none, 0) else getLoop h iterateStep startrow turns row
    else some (none, 0)

def initCurrentRowToGet : Option (Nat × JoinerHashTable) :=
  let row := crcCode h.inputBuffer % h.noRows
  let step := iterateStep h.inputBuffer
  match getLoop h step row h.noRows row with
  | none => none
  | some (found, multiplier) =>
    some (multiplier, { h with
      currentRow := found, toBeReturned := multiplier, currentIterateStep := step })

/-- The next row with the key of the buffer, or `startrow`; multipliers are not looked at. -/
def nextLoop (h : JoinerHashTable) (startrow : Nat) : Nat → Nat → Option Nat
  | 0, _ => none
  | turns + 1, row =>
    if (h.t row).key = h.inputBuffer then some row
    else
      let row := advance h.noRows row h.currentIterateStep
      if row = startrow then some row else nextLoop h startrow turns row

/-- The row returned and the table with its cursor moved; no result if the loop has not
ended. -/
def getNextRow : Option (Option Nat × JoinerHashTable) :=
  if h.toBeReturned = 0 then some (none, h)
  else
    let rowToReturn := h.currentRow
    let h := { h with toBeReturned := h.toBeReturned - 1 }
    if h.toBeReturned = 0 then some (rowToReturn, h)
    else
      -- a search that found nothing has nothing to return
      match h.currentRow with
      | none => none
      | some startrow =>
        match nextLoop h startrow h.noRows (advance h.noRows startrow h.currentIterateStep) with
        | none => none
        | some row => some (rowToReturn, { h with currentRow := some row })

/-- The answers of so many calls of `GetNextRow`, one after the other. -/
def getRows : Nat → JoinerHashTable → Option (List (Option Nat))
  | 0, _ => some []
  | calls + 1, h =>
    match h.getNextRow with
    | none => none
    | some (row, h) => (getRows calls h).map (row :: ·)

end JoinerHashTable

end Brighthouse.Core
