import Brighthouse.Library.Buffer
import Brighthouse.Library.Bytes
import Brighthouse.Library.Word64

/-!
# Sorters

Functional model of `Sorter3::CreateSorter` and `SorterOnePass` (`core/Sorter3.cpp`).  A
pointer into the buffer is the number of the row it points to, so `buf + k * total_bytes` is
`k`.  A read outside the rows, like every other access without memory behind it, has the
result `none`.  `rand` gives what the successive calls of `rand()` return.
-/

set_option autoImplicit false

namespace Brighthouse.Core

open Library Library.Buffer Library.Word64

/-! ## CreateSorter -/

def mbyte : Nat := 1048576

def memScale2BufSizeSmall (memScale : Int) : Nat :=
  if memScale < 0 then 32 * mbyte
  else if memScale = 0 then 64 * mbyte
  else if memScale ≤ 2 then 128 * mbyte
  else if memScale = 3 then 256 * mbyte
  else if memScale = 4 then 512 * mbyte
  else 1024 * mbyte

theorem memScale2BufSizeSmall_le (memScale : Int) :
    memScale2BufSizeSmall memScale ≤ 1024 * mbyte := by
  rw [memScale2BufSizeSmall]
  repeat' split
  all_goals decide

structure SorterSizes where
  size : Nat
  keyBytes : Nat
  totalBytes : Nat
  key_le : keyBytes ≤ totalBytes
  total_pos : 0 < totalBytes
  fits : size * totalBytes ≤ 2 ^ 31

inductive Sorter3 where
  | sorterLimit (sizes : SorterSizes)
  | sorterCounting (sizes : SorterSizes)
  | sorterOnePass (sizes : SorterSizes)
  | sorterMultiPass (sizes : SorterSizes)

/-- `memScale` is `MemorySettingsScale() + mem_modifier`. -/
def maxMemSize (memScale : Int) (size totalBytes : Nat) : Nat :=
  if 64 * mbyte < wrap64 (size * totalBytes * 2) then memScale2BufSizeSmall memScale * 2
  else 64 * mbyte

theorem maxMemSize_le (memScale : Int) (size totalBytes : Nat) :
    maxMemSize memScale size totalBytes ≤ 2 ^ 31 := by
  have small := memScale2BufSizeSmall_le memScale
  rw [maxMemSize]
  rw [mbyte] at *
  split <;> omega

theorem rows_fit {memScale : Int} {size totalBytes rows : Nat}
    (small : rows ≤ maxMemSize memScale size totalBytes / totalBytes) :
    rows * totalBytes ≤ 2 ^ 31 :=
  (Nat.mul_le_mul_right _ small).trans
    ((Nat.div_mul_le_self _ _).trans (maxMemSize_le memScale size totalBytes))

theorem limit_le {limit rows size : Nat} (small : limit < rows / 3 ∧ limit < size / 3) :
    limit ≤ rows := by
  omega

/-- `limit` is `none` for `-1`. -/
def createSorter (memScale : Int) (size keyBytes totalBytes : Nat) (limit : Option Nat)
    (key_le : keyBytes ≤ totalBytes) (total_pos : 0 < totalBytes) : Sorter3 :=
  let maxNoRows := maxMemSize memScale size totalBytes / totalBytes
  let sorter (rows : Nat) (small : rows ≤ maxNoRows) : SorterSizes :=
    ⟨rows, keyBytes, totalBytes, key_le, total_pos, rows_fit small⟩
  match limit with
  | some limit =>
    if small : limit < maxNoRows / 3 ∧ limit < size / 3 then
      .sorterLimit (sorter limit (limit_le small))
    else withoutLimit maxNoRows sorter
  | none => withoutLimit maxNoRows sorter
where
  withoutLimit (maxNoRows : Nat) (sorter : (rows : Nat) → rows ≤ maxNoRows → SorterSizes) :
      Sorter3 :=
    if matching : size < maxNoRows then
      if size * 2 < maxNoRows ∧ (keyBytes = 1 ∧ 1024 < size ∨ keyBytes = 2 ∧ 256000 < size) then
        .sorterCounting (sorter size (by omega))
      else .sorterOnePass (sorter size (by omega))
    else .sorterMultiPass (sorter maxNoRows (Nat.le_refl _))

namespace SorterSizes

variable (c : SorterSizes)

def Row : Type := { row : Bytes // row.length = c.totalBytes }

instance : DecidableEq c.Row :=
  inferInstanceAs (DecidableEq { row : Bytes // row.length = c.totalBytes })

def key (row : c.Row) : Bytes := row.val.take c.keyBytes

def boundQueueSize : Nat := max 10 (2 + c.size / 10)

/-- The product is a 32-bit one. -/
def bubbleSortLimit : Nat := 20 * c.totalBytes % 2 ^ 32

def isShort (rows : Nat) : Bool := rows * c.totalBytes < c.bubbleSortLimit

end SorterSizes

/-! ## BubbleSort -/

section
variable {α : Type} (key : α → Bytes)

/-- The inner loop from row `i`; the flag says whether `pom` is not `NULL`. -/
def bubblePass : Nat → Nat → (Nat → α) → Bool → (Nat → α) × Bool
  | 0, _, buf, switched => (buf, switched)
  | left + 1, i, buf, switched =>
    if key (buf (i + 1)) < key (buf i) then bubblePass left (i + 1) (swap buf i (i + 1)) true
    else bubblePass left (i + 1) buf switched

def bubbleLoop (s1 s2 : Nat) : Nat → (Nat → α) → Option (Nat → α)
  | 0, _ => none
  | turns + 1, buf =>
    let (buf, switched) := bubblePass key (s2 - s1) s1 buf false
    if switched then bubbleLoop s1 s2 turns buf else some buf

def bubbleSort (s1 s2 : Nat) (buf : Nat → α) : Option (Nat → α) :=
  bubbleLoop key s1 s2 (s2 - s1 + 1) buf

/-! ## QuickSort -/

def scanUp (buf : Nat → α) (midVal : Nat) : Nat → Nat → Option Nat
  | 0, _ => none
  | left + 1, i => if key (buf i) < key (buf midVal) then scanUp buf midVal left (i + 1) else some i

def scanDown (buf : Nat → α) (midVal : Nat) : Nat → Option Nat
  | 0 => if key (buf midVal) < key (buf 0) then none else some 0
  | j + 1 => if key (buf midVal) < key (buf (j + 1)) then scanDown buf midVal j else some (j + 1)

def exchange (buf : Nat → α) (midVal i j : Nat) : (Nat → α) × Nat :=
  if i ≠ j then (swap buf i j, if i = midVal then j else if j = midVal then i else midVal)
  else (buf, midVal)

/-- The loop that divides a part of the buffer.  `j` may get before the first row: `jEnd` is
the position after it. -/
def partitionLoop (rows : Nat) : Nat → (Nat → α) → Nat → Nat → Nat →
    Option ((Nat → α) × Nat × Nat)
  | 0, _, _, _, _ => none
  | turns + 1, buf, midVal, i, jEnd => do
      let i ← scanUp key buf midVal (rows - i) i
      let j ← scanDown key buf midVal (jEnd - 1)
      if i ≤ j then
        let (buf, midVal) := exchange buf midVal i j
        if i + 1 < j then partitionLoop rows turns buf midVal (i + 1) j
        else some (buf, i + 1, j)
      else some (buf, i, j + 1)

structure BoundQueue where
  bounds : Nat → Nat
  queueRead : Nat
  queueWrite : Nat

def BoundQueue.push (q : BoundQueue) (boundQueueSize s1 s2 : Nat) : BoundQueue where
  bounds := Function.update (Function.update q.bounds q.queueWrite s1) (q.queueWrite + 1) s2
  queueRead := q.queueRead
  queueWrite :=
    if boundQueueSize ≤ q.queueWrite + 2 then q.queueWrite + 2 - boundQueueSize
    else q.queueWrite + 2

def sortPart (c : SorterSizes) (s1 s2 : Nat) (sorting : (Nat → α) × BoundQueue) :
    Option ((Nat → α) × BoundQueue) :=
  let (buf, queue) := sorting
  if s1 < s2 then
    if c.isShort (s2 - s1) then (bubbleSort key s1 s2 buf).map (·, queue)
    else some (buf, queue.push c.boundQueueSize s1 s2)
  else some (buf, queue)

def quickTurn (c : SorterSizes) (rows random : Nat) (sorting : (Nat → α) × BoundQueue) :
    Option ((Nat → α) × BoundQueue) :=
  let (buf, q) := sorting
  let s1 := q.bounds q.queueRead
  let s2 := q.bounds (q.queueRead + 1)
  let q := { q with queueRead := (q.queueRead + 2) % c.boundQueueSize }
  if s1 = s2 then some (buf, q)
  else
    let r := 2 + random % 4
    let midVal := s1 + (s2 - s1) / 8 * r
    match partitionLoop key rows (s2 - s1 + 1) buf midVal s1 (s2 + 1) with
    | none => none
    | some (buf, i, jEnd) =>
      (sortPart key c s1 (jEnd - 1) (buf, q)).bind (sortPart key c i s2)

def quickLoop (c : SorterSizes) (rand : Nat → Nat) (rows : Nat) :
    Nat → Nat → (Nat → α) × BoundQueue → Option (Nat → α)
  | 0, _, _ => none
  | turns + 1, n, (buf, q) =>
    if q.queueRead = q.queueWrite then some buf
    else (quickTurn key c rows (rand n) (buf, q)).bind (quickLoop c rand rows turns (n + 1))

/-- `rows` is the number of rows before `buf_input_pos`. -/
def quickSort (c : SorterSizes) (rand : Nat → Nat) (rows : Nat) (buf : Nat → α) :
    Option (Nat → α) :=
  if c.keyBytes = 0 then some buf
  -- without a buffer there is no queue
  else if c.size = 0 then none
  else if c.isShort rows then bubbleSort key 0 (rows - 1) buf
  else
    let bounds := Function.update (Function.update (fun _ => 0) 0 0) 1 (rows - 1)
    quickLoop key c rand rows (2 * rows + 1) 0 (buf, ⟨bounds, 0, 2⟩)

end

end Brighthouse.Core
