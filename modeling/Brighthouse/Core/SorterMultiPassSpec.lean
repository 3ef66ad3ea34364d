import Brighthouse.Core.SorterMultiPass
import Brighthouse.Library.KWayMerge

/-!
# Reading the blocks of an external sort

While rows are returned, each block that is not at its end has one row in the heap, the rows
after it in its small buffer and the rest in its file.  The small buffers do not overlap, so
reloading one of them leaves the others alone.  What is returned is a merge of the blocks.
-/

set_option autoImplicit false

namespace Brighthouse.Core

open Library Library.KWayMerge List Function Nat

namespace SorterMultiPass

variable {c : SorterSizes} {env : Surroundings c} {s s' : SorterMultiPass c}

/-! ## Bytes and rows -/

theorem cast_total_pos (c : SorterSizes) : (0 : Int) < c.totalBytes := Int.ofNat_lt.mpr c.total_pos

theorem bytes_ediv (n : Nat) : ((n : Int) * c.totalBytes) / c.totalBytes = n :=
  Int.mul_ediv_cancel _ (Int.ne_of_gt (cast_total_pos c))

theorem bytes_lt {m n : Nat} : ((m : Int) * c.totalBytes < n * c.totalBytes) ↔ m < n := by
  rw [Int.mul_lt_mul_right (cast_total_pos c)]
  exact Int.ofNat_lt

theorem bytes_le {m n : Nat} : ((m : Int) * c.totalBytes ≤ n * c.totalBytes) ↔ m ≤ n := by
  rw [Int.mul_le_mul_right (cast_total_pos c)]
  exact Int.ofNat_le

theorem bytes_nonneg (n : Nat) : (0 : Int) ≤ n * c.totalBytes :=
  Int.mul_nonneg (Int.natCast_nonneg n) (cast_total_pos c).le

/-! ## A block that is read -/

/-- The part of a block that is in the buffer: its rows from `lo` up to but not including `hi`
stand from position `start` on; the row before `pos` is in the heap. -/
structure BlockView (c : SorterSizes) where
  rows : List c.Row
  start : Nat
  cap : Nat
  lo : Nat
  hi : Nat
  pos : Nat

def BlockView.record (v : BlockView c) : Int :=
  ((v.start + (v.pos - 1 - v.lo) : Nat) : Int) * c.totalBytes

/-- The description of a block in terms of rows. -/
def BlockView.description (v : BlockView c) : BlockDescription where
  blockSize := v.rows.length * c.totalBytes
  fileOffset := v.hi * c.totalBytes
  blockStart := v.start * c.totalBytes
  readOffset := if v.pos = v.hi then -1 else ((v.pos - v.lo : Nat) : Int) * c.totalBytes
  bufSize := ((v.hi - v.lo : Nat) : Int) * c.totalBytes

open BlockView

structure Live (s : SorterMultiPass c) (b : Nat) (v : BlockView c) : Prop where
  file : s.files b = some v.rows
  described : s.blocks[b]? = some v.description
  low : v.lo < v.pos
  high : v.pos ≤ v.hi
  length : v.hi ≤ v.rows.length
  small : v.hi - v.lo ≤ v.cap
  room : (((v.start + v.cap : Nat) : Int) * c.totalBytes) ≤ s.bufBytes
  content : ∀ k row, v.lo ≤ k → k < v.hi → v.rows[k]? = some row →
    s.buf (v.start + (k - v.lo)) = row

def Dead (s : SorterMultiPass c) (b : Nat) : Prop := ∃ d, s.blocks[b]? = some d ∧ d.readOffset = -2

/-- What a step for block `b` leaves alone: everything but its description, the rows from
`start` up to but not including `stop`, and `last_row`. -/
structure Framed (s s' : SorterMultiPass c) (b start stop : Nat) : Prop where
  files : s'.files = s.files
  heap : s'.heap = s.heap
  noBlocks : s'.noBlocks = s.noBlocks
  bufBytes : s'.bufBytes = s.bufBytes
  taken : s'.taken = s.taken
  sorted : s'.alreadySorted = s.alreadySorted
  length : s'.blocks.length = s.blocks.length
  size : ∀ d, s.blocks[b]? = some d → ∃ d', s'.blocks[b]? = some d' ∧ d'.blockSize = d.blockSize
  others : ∀ b', b' ≠ b → s'.blocks[b']? = s.blocks[b']?
  buf : ∀ k, k < start ∨ stop ≤ k → s'.buf k = s.buf k

section
variable {b : Nat} {d d' : BlockDescription} (there : s.blocks[b]? = some d)
include there

theorem setBlock_get : (s.setBlock b d').blocks[b]? = some d' := by
  rw [setBlock]
  rw [getElem?_set_self (List.getElem?_eq_some_iff.mp there).1]

theorem setBlock_framed (same : d'.blockSize = d.blockSize) (start stop : Nat) :
    Framed s (s.setBlock b d') b start stop where
  files := rfl
  heap := rfl
  noBlocks := rfl
  bufBytes := rfl
  taken := rfl
  sorted := rfl
  length := length_set
  size := by
    intro d₁ isD
    rw [there] at isD
    cases isD
    exact ⟨d', setBlock_get there, same⟩
  others := fun b' other => getElem?_set_ne (symm other)
  buf := fun _ _ => rfl

end

variable {b b' start stop : Nat} {v : BlockView c}

theorem Live.frame (live : Live s b v) (framed : Framed s s' b' start stop) (other : b ≠ b')
    (apart : v.start + v.cap ≤ start ∨ stop ≤ v.start) : Live s' b v where
  file := by rw [framed.files]; exact live.file
  described := by rw [framed.others b other]; exact live.described
  low := live.low
  high := live.high
  length := live.length
  small := live.small
  room := by rw [framed.bufBytes]; exact live.room
  content := by
    intro k row low high isRow
    have small := live.small
    rw [framed.buf _ (by omega)]
    exact live.content k row low high isRow

theorem Dead.frame (dead : Dead s b) (framed : Framed s s' b' start stop) (other : b ≠ b') :
    Dead s' b := by
  obtain ⟨d, there, isEnd⟩ := dead
  exact ⟨d, by rw [framed.others b other]; exact there, isEnd⟩

theorem Live.rowAt (live : Live s b v) {row : c.Row} (isRow : v.rows[v.pos - 1]? = some row) :
    s.rowAt v.record = row := by
  have low := live.low
  have high := live.high
  rw [record, SorterMultiPass.rowAt, bytes_ediv]
  exact live.content (v.pos - 1) row (by omega) (by omega) isRow

theorem Live.next_buffered (live : Live s b v) (more : v.pos < v.hi) :
    ∃ s', s.getFromBlock b =
        some (some ⟨b, ({ v with pos := v.pos + 1 } : BlockView c).record⟩, false, s') ∧
      Framed s s' b v.start (v.start + v.cap) ∧ s'.buf = s.buf ∧
      Live s' b { v with pos := v.pos + 1 } := by
  have low := live.low
  have positive := cast_total_pos c
  have offset : v.description.readOffset = ((v.pos - v.lo : Nat) : Int) * c.totalBytes :=
    if_neg (by omega)
  have large : (0 : Int) < ((v.pos - v.lo : Nat) : Int) * c.totalBytes :=
    Int.mul_pos (by omega) positive
  have sum : ((v.pos - v.lo : Nat) : Int) * c.totalBytes + c.totalBytes =
      ((v.pos + 1 - v.lo : Nat) : Int) * c.totalBytes := by
    rw [show v.pos + 1 - v.lo = (v.pos - v.lo) + 1 by omega, cast_add, add_mul]
    simp
  have moved : ({ v.description with
      readOffset := if v.description.bufSize ≤ v.description.readOffset + c.totalBytes then -1
        else v.description.readOffset + c.totalBytes } : BlockDescription) =
      ({ v with pos := v.pos + 1 } : BlockView c).description := by
    rw [offset, sum]
    rw [description]
    dsimp only
    congr 1
    by_cases last : v.pos + 1 = v.hi
    · rw [if_pos last, if_pos (bytes_le.mpr (by omega))]
    · rw [if_neg last, if_neg (by rw [bytes_le]; omega)]
  have pointer : v.description.blockStart + v.description.readOffset =
      ({ v with pos := v.pos + 1 } : BlockView c).record := by
    rw [offset, record, description]
    rw [Nat.add_sub_cancel, Nat.cast_add, add_mul]
  refine ⟨s.setBlock b ({ v with pos := v.pos + 1 } : BlockView c).description, ?_, ?_, rfl, ?_⟩
  · rw [getFromBlock, live.described]
    dsimp only
    rw [if_neg (by rw [offset]; omega), if_neg (by rw [offset]; omega), nextOfBuffer]
    rw [pointer, moved]
  · exact setBlock_framed live.described (by rfl) _ _
  · exact ⟨live.file, setBlock_get live.described, by dsimp only; omega, more, live.length,
      live.small, live.room, live.content⟩

variable {α : Type} {count : Nat}
variable {b start : Nat}

theorem overwrite_inside (buf : Nat → α) {k : Nat} {rows : List α} {row : α} (small : k < count)
    (isRow : rows[k]? = some row) : overwrite buf start count rows (start + k) = row := by
  rw [overwrite, if_pos ⟨Nat.le_add_right _ _, by omega⟩, Nat.add_sub_cancel_left, isRow]
  rfl

theorem ciGet_loads {count offset : Nat} {rows : List c.Row} (file : s.files b = some rows)
    (room : ((start + count : Nat) : Int) * c.totalBytes ≤ s.bufBytes)
    (there : offset + count ≤ rows.length) :
    s.ciGet b (start * c.totalBytes) (count * c.totalBytes) (offset * c.totalBytes) =
      some { s with buf := overwrite s.buf start count (rows.drop offset) } := by
  rw [cast_add, add_mul] at room
  rw [ciGet, if_pos ⟨bytes_nonneg start, Int.mul_emod_left _ _, Int.mul_emod_left _ _, room⟩, file]
  dsimp only
  have enough : ¬((rows.length : Int) * c.totalBytes <
      (offset : Int) * c.totalBytes + (count : Int) * c.totalBytes) := by
    rw [← add_mul, ← cast_add, bytes_lt]
    omega
  rw [if_neg enough, bytes_ediv, bytes_ediv, bytes_ediv]
  rfl

/-- The view after the rows from `hi` on were loaded. -/
def BlockView.reload (v : BlockView c) (count : Nat) : BlockView c :=
  { v with lo := v.hi, hi := v.hi + count, pos := v.hi + 1 }

theorem nextOfBuffer_first (s : SorterMultiPass c) (b : Nat) (v : BlockView c)
    (positive : 0 < count) :
    s.nextOfBuffer b ⟨v.rows.length * c.totalBytes, ((v.hi + count : Nat) : Int) * c.totalBytes,
        v.start * c.totalBytes, 0, count * c.totalBytes⟩ =
      (⟨b, (v.reload count).record⟩, s.setBlock b (v.reload count).description) := by
  rw [nextOfBuffer]
  have first : (v.reload count).record = (v.start : Int) * c.totalBytes + 0 := by
    rw [record, reload]
    rw [Nat.add_sub_cancel, Nat.sub_self, add_zero, add_zero]
  have test : ((count : Int) * c.totalBytes ≤ c.totalBytes) ↔ v.hi + 1 = v.hi + count := by
    have one : (c.totalBytes : Int) = ((1 : Nat) : Int) * c.totalBytes := by simp
    conv_lhs => rhs; rw [one]
    rw [bytes_le]
    omega
  rw [first, description, reload]
  dsimp only
  simp only [zero_add, test, Nat.add_sub_cancel_left, Nat.cast_one, one_mul]

theorem load_live {count : Nat} {v : BlockView c} (file : s.files b = some v.rows)
    {d : BlockDescription} (there : s.blocks[b]? = some d) (positive : 0 < count)
    (small : count ≤ v.cap) (length : v.hi + count ≤ v.rows.length)
    (room : (((v.start + v.cap : Nat) : Int) * c.totalBytes) ≤ s.bufBytes) :
    Live ({ s with buf := overwrite s.buf v.start count (v.rows.drop v.hi) }.setBlock b
      (v.reload count).description) b (v.reload count) where
  file := file
  described := setBlock_get there
  low := lt_succ_self _
  high := by
    rw [reload]
    dsimp only
    omega
  length := length
  small := by
    rw [reload]
    dsimp only
    omega
  room := room
  content := by
    intro k row low high isRow
    rw [reload] at low high isRow ⊢
    dsimp only at low high isRow ⊢
    refine overwrite_inside s.buf (by omega) ?_
    rw [getElem?_drop, show v.hi + (k - v.hi) = k by omega]
    exact isRow

theorem overwrite_outside (buf : Nat → α) {k : Nat} (rows : List α)
    (outside : k < start ∨ start + count ≤ k) : overwrite buf start count rows k = buf k :=
  if_neg (by omega)

def left (view : Nat → Option (BlockView c)) (b : Nat) : List c.Row :=
  match view b with
  | none => []
  | some v => v.rows.drop (v.pos - 1)

section
variable {b : Nat} {v : BlockView c} (live : Live s b v)
include live

variable {row : c.Row} (isRow : v.rows[v.pos - 1]? = some row)
include isRow

theorem Live.lastRow (last : v.pos = v.hi) :
    s.rowAt (v.description.blockStart + v.description.bufSize - c.totalBytes) = row := by
  have low := live.low
  have pointer : v.description.blockStart + v.description.bufSize - c.totalBytes = v.record := by
    rw [description, record]
    rw [← add_mul, ← cast_add, show v.start + (v.hi - v.lo) =
      (v.start + (v.pos - 1 - v.lo)) + 1 by omega, cast_add, add_mul]
    simp
  rw [pointer]
  exact live.rowAt isRow

theorem Live.next_reload (last : v.pos = v.hi) (more : v.hi < v.rows.length) :
    ∃ s' count, s.getFromBlock b = some (some ⟨b, (v.reload count).record⟩, true, s') ∧
      Framed s s' b v.start (v.start + v.cap) ∧ s'.lastRow = row ∧ Live s' b (v.reload count) := by
  have low := live.low
  have small := live.small
  have positive := cast_total_pos c
  obtain ⟨count, isCount⟩ : ∃ count, min (v.rows.length - v.hi) (v.hi - v.lo) = count := ⟨_, rfl⟩
  have bytes : min (v.description.blockSize - v.description.fileOffset) v.description.bufSize =
      (count : Int) * c.totalBytes := by
    rw [description]
    rw [← sub_mul, ← cast_sub live.length, ← isCount]
    rcases le_total (v.rows.length - v.hi) (v.hi - v.lo) with le | le
    · rw [min_eq_left le, min_eq_left (bytes_le.mpr le)]
    · rw [min_eq_right le, min_eq_right (bytes_le.mpr le)]
  have loaded : (0 : Int) < (count : Int) * c.totalBytes := Int.mul_pos (by omega) positive
  have fileRead : (0 : Int) < v.description.fileOffset := Int.mul_pos (by omega) positive
  have isReload : v.description.readOffset = -1 := if_pos last
  have offset : v.description.fileOffset + (count : Int) * c.totalBytes =
      ((v.hi + count : Nat) : Int) * c.totalBytes := by
    rw [description]
    rw [cast_add, add_mul]
  refine ⟨({ s with
    lastRow := row
    buf := overwrite s.buf v.start count (v.rows.drop v.hi) } : SorterMultiPass c).setBlock b
      (v.reload count).description, count, ?_, ?_, rfl, ?_⟩
  · have room : ((v.start + count : Nat) : Int) * c.totalBytes ≤ s.bufBytes :=
      (bytes_le.mpr (by omega)).trans live.room
    have load : ({ s with lastRow := row } : SorterMultiPass c).ciGet b v.description.blockStart
        (count * c.totalBytes) v.description.fileOffset = _ :=
      @ciGet_loads c { s with lastRow := row } b v.start count v.hi v.rows live.file room (by omega)
    rw [getFromBlock, live.described]
    dsimp only
    rw [if_neg (by rw [isReload]; decide), if_pos isReload, decide_eq_true fileRead,
      live.lastRow isRow last, bytes, if_neg (by omega), offset]
    rw [if_pos rfl, load]
    have step := nextOfBuffer_first ({ s with
      lastRow := row
      buf := overwrite s.buf v.start count (v.rows.drop v.hi) } : SorterMultiPass c) b v
      (show 0 < count by omega)
    exact congrArg (fun result => some (some result.1, true, result.2)) step
  · have framed := @setBlock_framed c ({ s with
      lastRow := row
      buf := overwrite s.buf v.start count (v.rows.drop v.hi) } : SorterMultiPass c) b
      v.description (v.reload count).description live.described rfl v.start (v.start + v.cap)
    exact { framed with buf := fun k outside => overwrite_outside s.buf _ (by omega) }
  · exact @load_live c { s with lastRow := row } b count v live.file _ live.described (by omega)
      (by omega) (by omega) live.room

theorem Live.next_end (last : v.pos = v.hi) (done : v.hi = v.rows.length) :
    ∃ s', s.getFromBlock b = some (none, true, s') ∧
      Framed s s' b v.start (v.start + v.cap) ∧ s'.lastRow = row ∧ Dead s' b := by
  have low := live.low
  have fileRead : (0 : Int) < v.description.fileOffset := Int.mul_pos (by omega) (cast_total_pos c)
  have isReload : v.description.readOffset = -1 := if_pos last
  have nothing : min (v.description.blockSize - v.description.fileOffset) v.description.bufSize ≤
      0 := by
    have same : v.description.blockSize - v.description.fileOffset = 0 := by
      rw [description]
      rw [done, sub_self]
    rw [same]
    exact min_le_left _ _
  refine ⟨({ s with lastRow := row } : SorterMultiPass c).setBlock b
    { v.description with readOffset := -2 }, ?_, ?_, rfl,
    ⟨_, setBlock_get (s := { s with lastRow := row }) live.described, rfl⟩⟩
  · rw [getFromBlock, live.described]
    dsimp only
    rw [if_neg (by rw [isReload]; decide), if_pos isReload, decide_eq_true fileRead, if_pos rfl,
      live.lastRow isRow last, if_pos nothing]
  · have framed := @setBlock_framed c ({ s with lastRow := row } : SorterMultiPass c) b
      v.description { v.description with readOffset := -2 } live.described rfl v.start
      (v.start + v.cap)
    exact { framed with }

/-- A step for a block: the row in the heap is returned, the row after it takes its place. -/
theorem Live.next :
    ∃ w reloaded s',
      s.getFromBlock b = some (w.map fun v' => ⟨b, v'.record⟩, reloaded, s') ∧
      Framed s s' b v.start (v.start + v.cap) ∧
      (if reloaded then s'.lastRow else s'.rowAt v.record) = row ∧ (w = none → Dead s' b) ∧
      (∀ v', w = some v' → Live s' b v' ∧ v'.start = v.start ∧ v'.cap = v.cap) ∧
      left (fun _ => w) b = v.rows.drop v.pos := by
  have high := live.high
  have length := live.length
  by_cases buffered : v.pos < v.hi
  · obtain ⟨s', result, framed, sameBuf, live'⟩ := live.next_buffered buffered
    refine ⟨some _, false, s', result, framed, ?_, nofun, fun _ isView => ?_, rfl⟩
    · have same : s'.rowAt v.record = s.rowAt v.record := by
        rw [SorterMultiPass.rowAt, sameBuf]
        rfl
      rw [same]
      exact live.rowAt isRow
    · cases isView
      exact ⟨live', rfl, rfl⟩
  · have last : v.pos = v.hi := by omega
    by_cases more : v.hi < v.rows.length
    · obtain ⟨s', count, result, framed, isLast, live'⟩ := live.next_reload isRow last more
      refine ⟨some _, true, s', result, framed, isLast, nofun, fun _ isView => ?_, ?_⟩
      · cases isView
        exact ⟨live', rfl, rfl⟩
      · rw [last]
        rfl
    · obtain ⟨s', result, framed, isLast, dead⟩ := live.next_end isRow last (by omega)
      refine ⟨none, true, s', result, framed, isLast, fun _ => dead, nofun, ?_⟩
      rw [drop_eq_nil_of_le (by omega)]
      rfl

end

/-! ## All blocks -/

structure Stored (s : SorterMultiPass c) (runs : List (List c.Row)) : Prop where
  noBlocks : s.noBlocks = runs.length
  count : s.blocks.length = runs.length
  sizes : ∀ (i : Nat) (run : List c.Row), runs[i]? = some run → ∃ d : BlockDescription,
    s.blocks[i]? = some d ∧ d.blockSize = toInt32 (run.length * c.totalBytes)
  files : ∀ i run, runs[i]? = some run → 0 < toInt32 (run.length * c.totalBytes) →
    s.files i = some run

theorem Stored.frame {runs : List (List c.Row)} {b start stop : Nat} (stored : Stored s runs)
    (framed : Framed s s' b start stop) : Stored s' runs where
  noBlocks := framed.noBlocks.trans stored.noBlocks
  count := framed.length.trans stored.count
  sizes := by
    intro i run isRun
    obtain ⟨d, there, size⟩ := stored.sizes i run isRun
    by_cases same : i = b
    · subst same
      obtain ⟨d', there', size'⟩ := framed.size d there
      exact ⟨d', there', size'.trans size⟩
    · exact ⟨d, by rw [framed.others i same]; exact there, size⟩
  files := by
    intro i run isRun positive
    rw [framed.files]
    exact stored.files i run isRun positive

/-- The state between two rows; a block without view is at its end. -/
structure Reading (s : SorterMultiPass c) (runs : List (List c.Row))
    (view : Nat → Option (BlockView c)) : Prop where
  stored : Stored s runs
  live : ∀ b v, b < runs.length → view b = some v → Live s b v
  dead : ∀ b, b < runs.length → view b = none → Dead s b
  heap : ∀ kb, kb ∈ s.heap ↔
    kb.block < runs.length ∧ ∃ v, view kb.block = some v ∧ kb.record = v.record
  nodup : (s.heap.map Keyblock.block).Nodup
  apart : ∀ b b' v v', b < runs.length → b' < runs.length → b ≠ b' → view b = some v →
    view b' = some v' → v.start + v.cap ≤ v'.start ∨ v'.start + v'.cap ≤ v.start

variable {runs : List (List c.Row)} {view : Nat → Option (BlockView c)}
variable {b : Nat} {v : BlockView c}

theorem Live.left (live : Live s b v) :
    ∃ row, v.rows[v.pos - 1]? = some row ∧ v.rows.drop (v.pos - 1) = row :: v.rows.drop v.pos := by
  have low := live.low
  have inside : v.pos - 1 < v.rows.length := by
    have := live.high
    have := live.length
    omega
  refine ⟨v.rows[v.pos - 1], getElem?_eq_getElem inside, ?_⟩
  rw [drop_eq_getElem_cons inside, show v.pos - 1 + 1 = v.pos by omega]

theorem Reading.head (reading : Reading s runs view) (inside : b < runs.length) {row : c.Row}
    {rest : List c.Row} (isLeft : left view b = row :: rest) :
    ∃ kb ∈ s.heap, s.rowAt kb.record = row := by
  cases isView : view b with
  | none =>
    rw [left, isView] at isLeft
    cases isLeft
  | some v =>
    have live := reading.live b v inside isView
    obtain ⟨first, isRow, split⟩ := live.left
    rw [left, isView] at isLeft
    dsimp only at isLeft
    rw [split] at isLeft
    cases isLeft
    exact ⟨⟨b, v.record⟩, (reading.heap ⟨b, v.record⟩).mpr ⟨inside, v, isView, rfl⟩,
      live.rowAt isRow⟩

theorem mem_eraseIdx_block {heap : List Keyblock} (nodup : (heap.map Keyblock.block).Nodup)
    {i : Nat} {kb : Keyblock} (there : heap[i]? = some kb) {other : Keyblock} :
    other ∈ heap.eraseIdx i ↔ other ∈ heap ∧ other.block ≠ kb.block := by
  rw [mem_eraseIdx_iff_getElem?]
  constructor
  · rintro ⟨j, apart, isOther⟩
    refine ⟨mem_of_getElem? isOther, fun same => apart ?_⟩
    have insideJ : j < heap.length := (List.getElem?_eq_some_iff.mp isOther).1
    refine (getElem?_inj (by rw [length_map]; exact insideJ) nodup).mp ?_
    rw [getElem?_map, getElem?_map, isOther, there]
    exact congrArg some same
  · rintro ⟨mem, differs⟩
    obtain ⟨j, isOther⟩ := mem_iff_getElem?.mp mem
    refine ⟨j, ?_, isOther⟩
    rintro rfl
    rw [there] at isOther
    cases isOther
    exact differs rfl

theorem Reading.left_nil (reading : Reading s runs view) (empty : s.heap = []) (b : Nat)
    (inside : b < runs.length) : left view b = [] := by
  cases isLeft : left view b with
  | nil => rfl
  | cons row rest =>
    obtain ⟨kb, mem, -⟩ := reading.head inside isLeft
    rw [empty] at mem
    cases mem

structure SameBlocks (s s' : SorterMultiPass c) : Prop where
  buf : s'.buf = s.buf
  bufBytes : s'.bufBytes = s.bufBytes
  blocks : s'.blocks = s.blocks
  files : s'.files = s.files
  noBlocks : s'.noBlocks = s.noBlocks

theorem pushHeap_same (s : SorterMultiPass c) (next : Option Keyblock) :
    SameBlocks s (s.pushHeap next) := by
  cases next <;> exact ⟨rfl, rfl, rfl, rfl, rfl⟩

theorem pushHeap_heap (s : SorterMultiPass c) (next : Option Keyblock) :
    (s.pushHeap next).heap = next.toList ++ s.heap := by
  cases next <;> rfl

theorem mem_pushHeap (s : SorterMultiPass c) (b : Nat) (w : Option (BlockView c)) (kb : Keyblock) :
    kb ∈ (s.pushHeap (w.map fun v => ⟨b, v.record⟩)).heap ↔
      (kb.block = b ∧ ∃ v, w = some v ∧ kb.record = v.record) ∨ kb ∈ s.heap := by
  obtain ⟨block, record⟩ := kb
  cases w <;> simp [pushHeap_heap]

theorem Live.same (live : Live s b v) (same : SameBlocks s s') :
    Live s' b v where
  file := by rw [same.files]; exact live.file
  described := by rw [same.blocks]; exact live.described
  low := live.low
  high := live.high
  length := live.length
  small := live.small
  room := by rw [same.bufBytes]; exact live.room
  content := by rw [same.buf]; exact live.content

theorem Dead.same (dead : Dead s b) (same : SameBlocks s s') : Dead s' b := by
  rw [Dead, same.blocks]
  exact dead

theorem Stored.same (stored : Stored s runs) (same : SameBlocks s s') : Stored s' runs where
  noBlocks := same.noBlocks.trans stored.noBlocks
  count := by rw [same.blocks]; exact stored.count
  sizes := by rw [same.blocks]; exact stored.sizes
  files := by rw [same.files]; exact stored.files

/-- The state after block `b` has moved on and its row has left the heap; `w` is the view of
the block then. -/
theorem Reading.moveOn (reading : Reading s runs view) (inside : b < runs.length)
    (isView : view b = some v) {s₁ : SorterMultiPass c} (same : SameBlocks s s₁)
    (rest : ∀ kb, kb ∈ s₁.heap ↔ kb ∈ s.heap ∧ kb.block ≠ b)
    (nodup : (s₁.heap.map Keyblock.block).Nodup) (framed : Framed s₁ s' b v.start (v.start + v.cap))
    {w : Option (BlockView c)} (dead : w = none → Dead s' b)
    (live : ∀ v', w = some v' → Live s' b v' ∧ v'.start = v.start ∧ v'.cap = v.cap) :
    Reading (s'.pushHeap (w.map fun v' => ⟨b, v'.record⟩)) runs (update view b w) := by
  have push := pushHeap_same s' (w.map fun v' => ⟨b, v'.record⟩)
  have notIn : b ∉ s₁.heap.map Keyblock.block := by
    intro mem
    obtain ⟨kb, isIn, isBlock⟩ := mem_map.mp mem
    exact ((rest kb).mp isIn).2 isBlock
  refine ⟨((reading.stored.same same).frame framed).same push, ?_, ?_, ?_, ?_, ?_⟩
  · intro b' v' inside' isView'
    by_cases here : b' = b
    · rw [here] at isView' ⊢
      rw [update_self] at isView'
      exact (live v' isView').1.same push
    · rw [update_of_ne here] at isView'
      exact (((reading.live b' v' inside' isView').same same).frame framed here
        (reading.apart b' b v' v inside' inside here isView' isView)).same push
  · intro b' inside' isView'
    by_cases here : b' = b
    · rw [here] at isView' ⊢
      rw [update_self] at isView'
      exact (dead isView').same push
    · rw [update_of_ne here] at isView'
      exact (((reading.dead b' inside' isView').same same).frame framed here).same push
  · intro kb
    rw [mem_pushHeap, framed.heap, rest kb, reading.heap kb]
    by_cases here : kb.block = b
    · simp only [here, update_self, inside, ne_eq, not_true_eq_false, and_false, or_false]
    · simp only [here, update_of_ne here, false_and, false_or, ne_eq, not_false_eq_true, and_true]
  · rw [pushHeap_heap, framed.heap]
    cases w with
    | none => exact nodup
    | some v' => exact nodup_cons.mpr ⟨notIn, nodup⟩
  · have region : ∀ b' v', update view b w b' = some v' → ∃ v₀, view b' = some v₀ ∧
        v'.start = v₀.start ∧ v'.cap = v₀.cap := by
      intro b' v' isView'
      by_cases here : b' = b
      · rw [here] at isView' ⊢
        rw [update_self] at isView'
        exact ⟨v, isView, (live v' isView').2⟩
      · rw [update_of_ne here] at isView'
        exact ⟨v', isView', rfl, rfl⟩
    intro b₁ b₂ v₁ v₂ inside₁ inside₂ differ isView₁ isView₂
    obtain ⟨u₁, was₁, start₁, cap₁⟩ := region b₁ v₁ isView₁
    obtain ⟨u₂, was₂, start₂, cap₂⟩ := region b₂ v₂ isView₂
    have away := reading.apart b₁ b₂ u₁ u₂ inside₁ inside₂ differ was₁ was₂
    omega

theorem left_update (view : Nat → Option (BlockView c)) (b : Nat) (w : Option (BlockView c)) :
    left (update view b w) = update (left view) b (left (fun _ => w) b) := by
  funext b'
  by_cases here : b' = b
  · rw [here, update_self, left, left, update_self]
  · rw [update_of_ne here, left, update_of_ne here]
    rfl

theorem Reading.takeTop (reading : Reading s runs view) (env : Surroundings c)
    (some' : s.heap ≠ []) :
    ∃ row s' view' b rest, s.takeTop env = some (some row, s') ∧ Reading s' runs view' ∧
      (s'.alreadySorted = s.alreadySorted ∧ s'.bufBytes = s.bufBytes) ∧
      b < runs.length ∧ left view b = row :: rest ∧
      left view' = update (left view) b rest ∧
      ∀ b' < runs.length, ∀ y rest', left view b' = y :: rest' → c.key row ≤ c.key y := by
  obtain ⟨key, isKey, least⟩ := env.top_least s.taken
    (s.heap.map fun kb => c.key (s.rowAt kb.record)) (by rwa [Ne, map_eq_nil_iff])
  obtain ⟨top, isTop⟩ : ∃ top, env.top s.taken
    (s.heap.map fun kb => c.key (s.rowAt kb.record)) = top := ⟨_, rfl⟩
  rw [isTop, getElem?_map, Option.map_eq_some_iff] at isKey
  obtain ⟨⟨b, record⟩, there, isKey⟩ := isKey
  obtain ⟨inside, v, isView, isRecord⟩ := (reading.heap ⟨b, record⟩).mp (mem_of_getElem? there)
  dsimp only at inside isView isRecord isKey
  have live := reading.live b v inside isView
  obtain ⟨row, isRow, split⟩ := live.left
  obtain ⟨s₁, isS₁⟩ : ∃ s₁ : SorterMultiPass c,
    { s with heap := s.heap.eraseIdx top, taken := s.taken + 1 } = s₁ := ⟨_, rfl⟩
  have same : SameBlocks s s₁ := by
    rw [← isS₁]
    exact ⟨rfl, rfl, rfl, rfl, rfl⟩
  have sortedSame : s₁.alreadySorted = s.alreadySorted := by rw [← isS₁]
  have rest : ∀ kb, kb ∈ s₁.heap ↔ kb ∈ s.heap ∧ kb.block ≠ b := by
    intro kb
    rw [← isS₁]
    exact mem_eraseIdx_block reading.nodup there
  have nodup : (s₁.heap.map Keyblock.block).Nodup := by
    rw [← isS₁]
    exact reading.nodup.sublist ((eraseIdx_sublist s.heap top).map _)
  obtain ⟨w, reloaded, s', result, framed, returned, dead, live', isLeft⟩ :=
    (live.same same).next isRow
  have leftNow : left view b = row :: v.rows.drop v.pos := by
    rw [left, isView]
    exact split
  obtain ⟨next, isNext⟩ : ∃ next, w.map (fun v' => (⟨b, v'.record⟩ : Keyblock)) = next := ⟨_, rfl⟩
  have pushed := pushHeap_same s' next
  have after := reading.moveOn inside isView same rest nodup framed dead live'
  rw [isNext] at result after
  have taken : s.takeTop env = some (some row, s'.pushHeap next) := by
    have lastSame : (s'.pushHeap next).lastRow = s'.lastRow := by cases next <;> rfl
    have rowSame : (s'.pushHeap next).rowAt v.record = s'.rowAt v.record := by
      rw [rowAt, pushed.buf]
      rfl
    rw [SorterMultiPass.takeTop, if_neg some']
    dsimp only
    rw [isTop, there]
    dsimp only
    rw [isS₁, result]
    dsimp only
    rw [lastSame, isRecord, rowSame, returned]
  have smallest : ∀ b' < runs.length, ∀ y rest', left view b' = y :: rest' →
      c.key row ≤ c.key y := by
    intro b' inside' y rest' isLeft
    obtain ⟨kb, mem, isY⟩ := reading.head inside' isLeft
    have below := least _ (mem_map.mpr ⟨kb, mem, rfl⟩)
    rw [← isKey, isRecord, live.rowAt isRow, isY] at below
    exact below
  have sorted : (s'.pushHeap next).alreadySorted = s.alreadySorted := by
    rw [← sortedSame, ← framed.sorted]
    cases next <;> rfl
  refine ⟨row, _, _, b, v.rows.drop v.pos, taken, after,
    ⟨sorted, pushed.bufBytes.trans (framed.bufBytes.trans same.bufBytes)⟩, inside, leftNow, ?_,
    smallest⟩
  rw [left_update, isLeft]

theorem Reading.getAll (env : Surroundings c) (calls : Nat) :
    ∀ {s view}, Reading s runs view →
      s.alreadySorted = true → (remaining runs.length (left view)).length < calls →
      ∃ out s' view', s.getAll env calls = some (out, s') ∧
        Merged c.key runs.length (left view) out ∧ Reading s' runs view' ∧
        s'.alreadySorted = true ∧ s'.bufBytes = s.bufBytes := by
  induction calls with
  | zero =>
    intro s view reading sorted short
    omega
  | succ calls ih =>
    intro s view reading sorted short
    have prepared : s.prepare env = some s := by rw [prepare, if_pos sorted]
    rw [SorterMultiPass.getAll, getNextValue, prepared, Option.bind_some]
    by_cases empty : s.heap = []
    · rw [SorterMultiPass.takeTop, if_pos empty]
      exact ⟨[], s, view, rfl, Merged.done (reading.left_nil empty), reading, sorted, rfl⟩
    · obtain ⟨row, s₁, view₁, b, rest, taken, reading₁, ⟨sorted₁, bytes₁⟩, inside, isLeft, isLeft₁,
        least⟩ := reading.takeTop env empty
      have fewer := (remaining_take inside isLeft).length_eq
      rw [← isLeft₁, length_cons] at fewer
      obtain ⟨out, s', view', result, merged, reading', sorted', bytes'⟩ := ih reading₁
        (sorted₁.trans sorted) (by omega)
      rw [isLeft₁] at merged
      rw [taken]
      dsimp only
      rw [result]
      exact ⟨row :: out, s', view', rfl, Merged.take inside isLeft least merged, reading', sorted',
        bytes'.trans bytes₁⟩

end SorterMultiPass

end Brighthouse.Core
