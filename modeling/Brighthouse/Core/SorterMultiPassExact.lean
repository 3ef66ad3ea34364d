import Brighthouse.Core.SorterMultiPassSorts

/-!
# When an external sort returns all rows

The rows put are cut into blocks of the size of the buffer.  They all come back exactly if
every block gets a part of the buffer.
-/

set_option autoImplicit false

namespace Brighthouse.Core

open Library Library.Buffer Library.KWayMerge List Option
open Nat (cast_mul cast_one cast_sub mul_le_mul_right not_lt_zero)

namespace SorterMultiPass

variable {c : SorterSizes} {env : Surroundings c} {s s' : SorterMultiPass c}
  {runs : List (List c.Row)} {rows : List c.Row}

/-! ## Writing blocks -/

theorem snoc_cases {α : Type} {xs : List α} {x y : α} {i : Nat} (found : (xs ++ [x])[i]? = some y) :
    i < xs.length ∧ xs[i]? = some y ∨ i = xs.length ∧ y = x := by
  rcases lt_trichotomy i xs.length with old | rfl | outside
  · rw [getElem?_append_left old] at found
    exact .inl ⟨old, found⟩
  · rw [getElem?_concat_length] at found
    exact .inr ⟨rfl, (some.inj found).symm⟩
  · rw [getElem?_eq_none (by rw [length_append, length_singleton]; omega)] at found
    cases found

structure Unread (s : SorterMultiPass c) (runs : List (List c.Row)) : Prop where
  stored : Stored s runs
  fresh : ∀ b < runs.length, ∃ d, s.blocks[b]? = some d ∧ d.fileOffset = 0 ∧ d.readOffset = -1
  heap : s.heap = []

variable (env)

theorem Unread.putBlock (unread : Unread s runs)
    (positive : 0 < s.bufInputPos) (fits : s.bufInputPos ≤ c.size) :
    ∃ s' run, s.putBlock env = some s' ∧ Unread s' (runs ++ [run]) ∧
      run.Perm (elements s.buf s.bufInputPos) ∧ run.Pairwise (c.key · ≤ c.key ·) ∧
      s'.bufBytes = s.bufBytes := by
  have sorted : ∃ buf, quickSort c.key c (env.rand s.noBlocks) s.bufInputPos s.buf = some buf ∧
      (elements buf s.bufInputPos).Perm (elements s.buf s.bufInputPos) ∧
      (elements buf s.bufInputPos).Pairwise (c.key · ≤ c.key ·) := by
    by_cases noKey : c.keyBytes = 0
    · refine ⟨s.buf, if_pos noKey, Perm.refl _, pairwise_of_forall fun row row' => ?_⟩
      rw [SorterSizes.key, SorterSizes.key, noKey, take_zero, take_zero]
    · obtain ⟨buf, quick, arranged, inOrder⟩ := @quickSort_sorts _ c.key s.bufInputPos c positive
        fits noKey (env.rand s.noBlocks) s.buf
      exact ⟨buf, quick, arranged.elements_perm, inOrder.pairwise⟩
  obtain ⟨buf, quick, perm, inOrder⟩ := sorted
  have stored := unread.stored
  rw [SorterMultiPass.putBlock, quick]
  refine ⟨_, elements buf s.bufInputPos, rfl, ⟨⟨?_, ?_, ?_, ?_⟩, ?_, unread.heap⟩, perm, inOrder,
    rfl⟩
  · rw [stored.noBlocks, length_append, length_singleton]
  · rw [length_append, length_append, stored.count, length_singleton, length_singleton]
  · intro i run isRun
    rcases snoc_cases isRun with ⟨old, isOld⟩ | ⟨rfl, rfl⟩
    · rw [getElem?_append_left (by rw [stored.count]; exact old)]
      exact stored.sizes i run isOld
    · rw [← stored.count, getElem?_concat_length]
      exact ⟨_, rfl, by rw [length_elements]⟩
  · intro i run isRun bytes
    dsimp only
    rcases snoc_cases isRun with ⟨old, isOld⟩ | ⟨rfl, rfl⟩
    · have file := stored.files i run isOld bytes
      rw [ciPut]
      split
      · exact file
      · rw [Function.update_of_ne (by rw [stored.noBlocks]; omega)]
        exact file
    · rw [length_elements] at bytes
      rw [ciPut, if_neg (not_le.mpr bytes), stored.noBlocks, Function.update_self]
  · intro b small
    rw [length_append, length_singleton] at small
    by_cases old : b < runs.length
    · rw [getElem?_append_left (by rw [stored.count]; exact old)]
      exact unread.fresh b old
    · rw [getElem?_append_right (by rw [stored.count]; omega), stored.count,
        show b - runs.length = 0 by omega]
      exact ⟨_, rfl, rfl, rfl⟩

/-- The blocks written so far are full; the other rows are in the buffer. -/
structure Putting (s : SorterMultiPass c) (rows : List c.Row) (full : List (List c.Row)) :
    Prop where
  unread : Unread s full
  lengths : ∀ run ∈ full, run.length = c.size
  sorted : ∀ run ∈ full, run.Pairwise (c.key · ≤ c.key ·)
  perm : rows.Perm (full.flatten ++ elements s.buf s.bufInputPos)
  fits : s.bufInputPos ≤ c.size
  some' : rows ≠ [] → 0 < s.bufInputPos ∧ s.alreadySorted = false
  bytes : s.bufBytes = c.size * c.totalBytes

theorem putting_construct : Putting (construct env) [] [] where
  unread := ⟨⟨rfl, rfl, fun _ _ isRun => (nomatch isRun), fun _ _ isRun => (nomatch isRun)⟩,
    fun b small => absurd small (not_lt_zero b), rfl⟩
  lengths := fun _ mem => absurd mem not_mem_nil
  sorted := fun _ mem => absurd mem not_mem_nil
  perm := Perm.refl _
  fits := Nat.zero_le _
  some' := fun absurd' => absurd rfl absurd'
  bytes := rfl

variable {full : List (List c.Row)}

theorem Putting.putValue (putting : Putting s rows full) (positive : 0 < c.size) (b : c.Row) :
    ∃ s' full', s.putValue env b = some s' ∧ Putting s' (rows ++ [b]) full' := by
  rw [SorterMultiPass.putValue]
  by_cases spills : s.bufInputPos = c.size
  · obtain ⟨s₁, run, put, unread, perm, sorted, bytes⟩ := putting.unread.putBlock env
      (by omega) putting.fits
    rw [if_pos spills, put]
    dsimp only [map_some]
    rw [if_neg (by omega)]
    refine ⟨_, full ++ [run], rfl, ⟨⟨unread.stored.noBlocks, unread.stored.count,
      unread.stored.sizes, unread.stored.files⟩, unread.fresh, unread.heap⟩, ?_, ?_, ?_, positive,
      fun _ => ⟨Nat.zero_lt_succ _, rfl⟩, bytes.trans putting.bytes⟩
    · refine forall_mem_append.mpr ⟨putting.lengths, forall_mem_singleton.mpr ?_⟩
      rw [perm.length_eq, length_elements, spills]
    · exact forall_mem_append.mpr ⟨putting.sorted, forall_mem_singleton.mpr sorted⟩
    · rw [flatten_append, flatten_singleton]
      exact (putting.perm.trans (perm.symm.append_left _)).append_right [b]
  · rw [if_neg spills]
    dsimp only
    rw [if_neg (by omega)]
    have fits := putting.fits
    refine ⟨_, full, rfl, ⟨⟨putting.unread.stored.noBlocks, putting.unread.stored.count,
      putting.unread.stored.sizes, putting.unread.stored.files⟩, putting.unread.fresh,
      putting.unread.heap⟩, putting.lengths, putting.sorted, ?_, by dsimp only; omega,
      fun _ => ⟨Nat.zero_lt_succ _, rfl⟩, putting.bytes⟩
    rw [elements_update, ← append_assoc]
    exact putting.perm.append_right [b]

theorem Putting.putAll (positive : 0 < c.size) (more : List c.Row) :
    ∀ {s rows full}, Putting s rows full →
      ∃ s' full', SorterMultiPass.putAll env more s = some s' ∧
        Putting s' (rows ++ more) full' := by
  induction more with
  | nil =>
    intro s rows full putting
    rw [append_nil]
    exact ⟨s, full, rfl, putting⟩
  | cons row more ih =>
    intro s rows full putting
    obtain ⟨s₁, full₁, put, putting₁⟩ := putting.putValue env positive row
    obtain ⟨s', full', result, putting'⟩ := ih putting₁
    rw [append_assoc] at putting'
    refine ⟨s', full', ?_, putting'⟩
    rw [SorterMultiPass.putAll, put]
    exact result

/-! ## The parts of the buffer -/

section
variable (c) (noBlocks : Nat)

def small : Bool := toInt32 (c.size / noBlocks : Nat) < 3

def standardBytes : Int :=
  toInt32 ((if small c noBlocks then 3 else toInt32 (c.size / noBlocks : Nat)) * c.totalBytes)

def lastBytes : Int := toInt32 (c.size * c.totalBytes - standardBytes c noBlocks * (noBlocks - 1))

def memoryBytes : Nat :=
  if small c noBlocks then 3 * c.totalBytes * noBlocks % 2 ^ 32 else c.size * c.totalBytes

end

structure Served (runs : List (List c.Row)) : Prop where
  low : -2 ^ 31 ≤ standardBytes c runs.length * (runs.length - 1)
  high : standardBytes c runs.length * (runs.length - 1) < 2 ^ 31
  fits : ∀ i run, runs[i]? = some run →
    Fits c (standardBytes c runs.length) (lastBytes c runs.length) runs.length
      (memoryBytes c runs.length) run.length i
  positive : ∀ i run, runs[i]? = some run →
    0 < firstBytes c (standardBytes c runs.length) (lastBytes c runs.length) runs.length
      run.length i

/-- The numbers are in range and every block is inside the buffer. -/
def Divided (runs : List (List c.Row)) : Prop :=
  (-2 ^ 31 ≤ standardBytes c runs.length * (runs.length - 1) ∧
    standardBytes c runs.length * (runs.length - 1) < 2 ^ 31) ∧
  ∀ i run, runs[i]? = some run →
    Fits c (standardBytes c runs.length) (lastBytes c runs.length) runs.length
      (memoryBytes c runs.length) run.length i

def openViews (runs : List (List c.Row)) : Nat → Option (BlockView c) :=
  openView (standardBytes c runs.length) (lastBytes c runs.length) runs

theorem Unread.opening (unread : Unread s runs) (standard last : Int) :
    Opening (s.growBuffer env) runs standard last 0 := by
  have same : ∀ grown, grown = s.growBuffer env → grown.noBlocks = s.noBlocks ∧
      grown.blocks = s.blocks ∧ grown.files = s.files ∧ grown.heap = s.heap := by
    intro grown isGrown
    rw [isGrown, growBuffer]
    split <;> exact ⟨rfl, rfl, rfl, rfl⟩
  obtain ⟨noBlocks, blocks, files, heap⟩ := same _ rfl
  have stored := unread.stored
  refine ⟨⟨noBlocks.trans stored.noBlocks, by rw [blocks]; exact stored.count,
    by rw [blocks]; exact stored.sizes, by rw [files]; exact stored.files⟩,
    fun b v less => absurd less (not_lt_zero b), fun b less => absurd less (not_lt_zero b),
    fun b _ inside => by rw [blocks]; exact unread.fresh b inside, fun kb => ?_, ?_⟩
  · rw [heap, unread.heap]
    exact ⟨fun mem => absurd mem not_mem_nil,
      fun facts => absurd facts.1 (not_lt_zero _)⟩
  · rw [heap, unread.heap]
    exact nodup_nil

theorem standardBytes_eq (unread : Unread s runs) :
    toInt32 (s.rowsInSmallBuffer * c.totalBytes) = standardBytes c runs.length := by
  rw [rowsInSmallBuffer, tooSmall, unread.stored.noBlocks, standardBytes, small]

theorem initHeap_eq (unread : Unread s runs) (some' : runs ≠ [])
    (range : -2 ^ 31 ≤ standardBytes c runs.length * (runs.length - 1) ∧
      standardBytes c runs.length * (runs.length - 1) < 2 ^ 31) :
    s.initHeap env =
      initBlocks (standardBytes c runs.length) (lastBytes c runs.length) runs.length 0
      (s.growBuffer env) := by
  have count := unread.stored.noBlocks
  have nonzero : ¬runs.length = 0 := fun zero => some' (length_eq_zero_iff.mp zero)
  have checked : checkedInt (standardBytes c runs.length * (runs.length - 1)) =
      some (standardBytes c runs.length * (runs.length - 1)) := if_pos range
  simp only [initHeap, count, if_neg nonzero, standardBytes_eq unread, checked, lastBytes]

theorem growBuffer_bytes (unread : Unread s runs)
    (bytes : small c runs.length = false → s.bufBytes = c.size * c.totalBytes) :
    (s.growBuffer env).bufBytes = memoryBytes c runs.length := by
  have same : s.tooSmall = small c runs.length := by
    rw [tooSmall, unread.stored.noBlocks]
    rfl
  rw [growBuffer, memoryBytes, same, unread.stored.noBlocks]
  cases isSmall : small c runs.length with
  | false => exact bytes isSmall
  | true => rfl

section
variable (unread : Unread s runs) (some' : runs ≠ [])
  (short : ∀ run ∈ runs, run.length * c.totalBytes ≤ 2 ^ 31)
  (bytes : small c runs.length = false → s.bufBytes = c.size * c.totalBytes)
include unread some' short bytes

theorem Unread.initHeap (divided : Divided runs) :
    ∃ s', s.initHeap env = some s' ∧ Reading s' runs (openViews runs) ∧
      s'.alreadySorted = s.alreadySorted ∧ s'.bufBytes = memoryBytes c runs.length := by
  rw [initHeap_eq env unread some' divided.1]
  have grown := growBuffer_bytes env unread bytes
  have opened := (unread.opening env (standardBytes c runs.length)
    (lastBytes c runs.length)).initBlocks
    short runs.length (zero_add _) fun b r less => absurd less (not_lt_zero b)
  rw [grown] at opened
  split at opened
  · obtain ⟨b, r, isRun, unfit⟩ := opened
    exact absurd (divided.2 b r isRun) unfit
  · rename_i s' result
    have kept : (s.growBuffer env).alreadySorted = s.alreadySorted := by
      rw [growBuffer]
      split <;> rfl
    obtain ⟨opening, sorted, bytes', -⟩ := opened
    exact ⟨s', result, opening.reading divided.2, sorted.trans kept, bytes'⟩

theorem Unread.initHeap_divided (result : s.initHeap env = some s') :
    Divided runs := by
  have range : -2 ^ 31 ≤ standardBytes c runs.length * (runs.length - 1) ∧
      standardBytes c runs.length * (runs.length - 1) < 2 ^ 31 := by
    by_contra outside
    have count := unread.stored.noBlocks
    have nonzero : ¬runs.length = 0 := fun zero => some' (length_eq_zero_iff.mp zero)
    have unchecked : checkedInt (standardBytes c runs.length * (runs.length - 1)) = none :=
      if_neg outside
    simp only [SorterMultiPass.initHeap, count, if_neg nonzero, standardBytes_eq unread, unchecked,
      reduceCtorEq] at result
  have opened := (unread.opening env (standardBytes c runs.length)
    (lastBytes c runs.length)).initBlocks
    short runs.length (zero_add _) fun b r less => absurd less (not_lt_zero b)
  rw [initHeap_eq env unread some' range] at result
  rw [result, growBuffer_bytes env unread bytes] at opened
  exact ⟨range, opened.2.2.2⟩

end

/-! ## Reading again -/

variable {env}

theorem getAll_prepare (prepared : s.prepare env = some s') (sorted : s'.alreadySorted = true)
    (calls : Nat) : getAll env calls s = getAll env calls s' := by
  have same : s.getNextValue env = s'.getNextValue env := by
    rw [getNextValue, getNextValue, prepared, prepare, if_pos sorted]
  cases calls with
  | zero => rfl
  | succ calls => rw [getAll, getAll, same]

theorem readings_prepare (prepared : s.prepare env = some s') (sorted : s'.alreadySorted = true)
    (calls rewinds : Nat) : readings env calls rewinds s = readings env calls rewinds s' := by
  cases rewinds <;> rw [readings, readings, getAll_prepare prepared sorted]

variable {view : Nat → Option (BlockView c)}

theorem Reading.unread (reading : Reading s runs view) :
    Unread { s with
      heap := []
      blocks := s.blocks.map fun d => { d with fileOffset := 0, readOffset := -1 } } runs where
  stored := by
    have stored := reading.stored
    refine ⟨stored.noBlocks, by rw [length_map]; exact stored.count, ?_, stored.files⟩
    intro i run isRun
    obtain ⟨d, there, size⟩ := stored.sizes i run isRun
    exact ⟨{ d with fileOffset := 0, readOffset := -1 }, by rw [getElem?_map, there]; rfl, size⟩
  fresh := by
    intro b inside
    have there := getElem?_eq_getElem (show b < s.blocks.length by
      rw [reading.stored.count]; exact inside)
    exact ⟨_, by rw [getElem?_map, there]; rfl, rfl, rfl⟩
  heap := rfl

theorem Reading.setSorted (reading : Reading s runs view) :
    Reading { s with alreadySorted := true } runs view := by
  have same : SameBlocks s { s with alreadySorted := true } := ⟨rfl, rfl, rfl, rfl, rfl⟩
  exact ⟨reading.stored.same same,
    fun b v inside isView => (reading.live b v inside isView).same same,
    fun b inside isView => (reading.dead b inside isView).same same, reading.heap, reading.nodup,
    reading.apart⟩

def whole (runs : List (List c.Row)) (i : Nat) : List c.Row := runs[i]?.getD []

theorem remaining_whole (runs : List (List c.Row)) :
    remaining runs.length (whole runs) = runs.flatten :=
  remaining_flatten runs fun i run isRun => by rw [whole, isRun]; rfl

theorem length_left_le (runs : List (List c.Row)) :
    ∀ b < runs.length, (left (openViews runs) b).length ≤ (whole runs b).length := by
  intro b inside
  rw [openViews, left_openView (getElem?_eq_getElem inside), whole, getElem?_eq_getElem inside]
  split
  · exact le_refl _
  · exact Nat.zero_le _

theorem Served.divided (served : Served runs) : Divided runs :=
  ⟨⟨served.low, served.high⟩, served.fits⟩

theorem Served.remaining (served : Served runs) :
    remaining runs.length (left (openViews runs)) = runs.flatten := by
  refine remaining_flatten runs fun i run isRun => ?_
  rw [openViews, left_openView isRun, if_pos (served.positive i run isRun)]

theorem Served.readings (served : Served runs) (some' : runs ≠ [])
    (short : ∀ run ∈ runs, run.length * c.totalBytes ≤ 2 ^ 31) (env : Surroundings c) (calls : Nat)
    (enough : runs.flatten.length < calls) (rewinds : Nat) :
    ∀ {s}, Reading s runs (openViews runs) → s.alreadySorted = true →
      s.bufBytes = memoryBytes c runs.length →
      ∃ returned, SorterMultiPass.readings env calls rewinds s = some returned ∧
        returned.length = rewinds + 1 ∧
        ∀ result ∈ returned, Merged c.key runs.length (left (openViews runs)) result := by
  induction rewinds with
  | zero =>
    intro s reading sorted bytes
    obtain ⟨out, s', view', got, merged, -⟩ := reading.getAll env calls sorted
      (by rw [served.remaining]; exact enough)
    refine ⟨[out], ?_, rfl, fun result mem => ?_⟩
    · rw [SorterMultiPass.readings, got]
      rfl
    · rw [mem_singleton.mp mem]
      exact merged
  | succ rewinds ih =>
    intro s reading sorted bytes
    obtain ⟨out, s₁, view₁, got, merged, reading₁, sorted₁, bytes₁⟩ := reading.getAll env calls
      sorted (by rw [served.remaining]; exact enough)
    obtain ⟨s₂, rewound, reading₂, sorted₂, bytes₂⟩ := reading₁.unread.initHeap env some' short
      (fun notSmall => by
        rw [bytes₁, bytes, memoryBytes, notSmall]
        rfl)
      served.divided
    obtain ⟨returned, more, length, all⟩ := ih reading₂ (sorted₂.trans sorted₁) bytes₂
    refine ⟨out :: returned, ?_, by rw [length_cons, length], fun result mem => ?_⟩
    · rw [SorterMultiPass.readings, got]
      dsimp only [bind_eq_bind, bind_some]
      rw [rewind, rewound, bind_some, more]
      rfl
    · rcases mem_cons.mp mem with rfl | later
      · exact merged
      · exact all result later

/-! ## The sizes -/

structure Blocks (rows : List c.Row) (runs : List (List c.Row)) : Prop where
  perm : runs.flatten.Perm rows
  sorted : ∀ run ∈ runs, run.Pairwise (c.key · ≤ c.key ·)
  count : runs.length = (rows.length - 1) / c.size + 1
  lengths : ∀ i run, runs[i]? = some run →
    0 < run.length ∧ run.length ≤ c.size ∧ (i < runs.length - 1 → run.length = c.size)

theorem Blocks.short (blocks : Blocks rows runs) :
    ∀ run ∈ runs, run.length * c.totalBytes ≤ 2 ^ 31 := by
  intro run mem
  obtain ⟨i, isRun⟩ := mem_iff_getElem?.mp mem
  exact (mul_le_mul_right _ (blocks.lengths i run isRun).2.1).trans c.fits

theorem flatten_length_of_all {α : Type} {size : Nat} {runs : List (List α)}
    (all : ∀ run ∈ runs, run.length = size) : runs.flatten.length = runs.length * size := by
  rw [length_flatten, eq_replicate_of_mem (forall_mem_map.mpr all), sum_replicate_nat, length_map]

/-- The rows that were put, after `prepare` has written the last block. -/
theorem Putting.blocks (putting : Putting s rows full) (some' : rows ≠ []) (env : Surroundings c) :
    ∃ s₁ runs, s.putBlock env = some s₁ ∧ Unread s₁ runs ∧ Blocks rows runs ∧
      s₁.bufBytes = c.size * c.totalBytes := by
  have positive := (putting.some' some').1
  have fits := putting.fits
  obtain ⟨s₁, run, put, unread, perm, sorted, bytes⟩ := putting.unread.putBlock env positive fits
  have length : run.length = s.bufInputPos := by rw [perm.length_eq, length_elements]
  refine ⟨s₁, full ++ [run], put, unread, ⟨?_, ?_, ?_, ?_⟩, bytes.trans putting.bytes⟩
  · rw [flatten_append, flatten_singleton]
    exact (perm.append_left _).trans putting.perm.symm
  · exact forall_mem_append.mpr ⟨putting.sorted, forall_mem_singleton.mpr sorted⟩
  · have total : rows.length = full.length * c.size + s.bufInputPos := by
      rw [putting.perm.length_eq, length_append, length_elements,
        flatten_length_of_all putting.lengths]
    rw [length_append, length_singleton, total,
      show full.length * c.size + s.bufInputPos - 1 = (s.bufInputPos - 1) + full.length * c.size by
        omega, Nat.add_mul_div_right _ _ (by omega), Nat.div_eq_of_lt (by omega), zero_add]
  · intro i other isOther
    rw [length_append, length_singleton]
    rcases snoc_cases isOther with ⟨old, isOld⟩ | ⟨rfl, rfl⟩
    · have isSize := putting.lengths other (mem_of_getElem? isOld)
      exact ⟨by omega, by omega, fun _ => isSize⟩
    · exact ⟨by omega, by omega, fun less => by omega⟩

theorem prepare_eq {s₁ s₂ : SorterMultiPass c} (notSorted : s.alreadySorted = false)
    (written : s.putBlock env = some s₁) (heap : s₁.initHeap env = some s₂) :
    s.prepare env = some { s₂ with alreadySorted := true } := by
  rw [prepare, if_neg (by rw [notSorted]; decide), written, bind_some, heap]
  rfl

theorem sortsRows_iff_served (some' : rows ≠ []) (positive : 0 < c.size) (env : Surroundings c) :
    ∃ runs, Blocks rows runs ∧ (SortsRows env rows ↔ Served runs) := by
  obtain ⟨s, full, put, putting⟩ := (putting_construct env).putAll env positive rows
  rw [nil_append] at putting
  obtain ⟨s₁, runs, written, unread, blocks, bytes⟩ := putting.blocks some' env
  have notSorted := (putting.some' some').2
  have nonempty : runs ≠ [] := by
    intro empty
    have count := blocks.count
    rw [empty] at count
    simp at count
  refine ⟨runs, blocks, ?_, ?_⟩
  · intro sorts
    obtain ⟨s', returned, put', result, length, all⟩ := sorts 0
    rw [put] at put'
    cases put'
    obtain ⟨⟨out, s₃⟩, got, isReturned⟩ := map_eq_some_iff.mp result
    obtain ⟨perm, -⟩ := all out (by rw [← isReturned]; exact mem_singleton_self _)
    cases heap : s₁.initHeap env with
    | none =>
      have nothing : s.getNextValue env = none := by
        rw [getNextValue, prepare, if_neg (by rw [notSorted]; decide), written, bind_some,
          heap]
        rfl
      rw [getAll, nothing] at got
      cases got
    | some s₂ =>
      have divided := unread.initHeap_divided env nonempty blocks.short (fun _ => bytes) heap
      obtain ⟨s₂', heap', reading, -⟩ := unread.initHeap env nonempty blocks.short
        (fun _ => bytes) divided
      refine ⟨divided.1.1, divided.1.2, divided.2, fun i run isRun => ?_⟩
      rw [heap] at heap'
      cases heap'
      -- a block without a part of the buffer would make the result too short
      by_contra unserved
      have inside : i < runs.length := (List.getElem?_eq_some_iff.mp isRun).1
      have fewer : (remaining runs.length (left (openViews runs))).length < rows.length := by
        rw [← blocks.perm.length_eq, ← remaining_whole]
        refine length_remaining_lt (length_left_le runs) inside ?_
        rw [openViews, left_openView isRun, if_neg unserved, whole, isRun]
        exact (blocks.lengths i run isRun).1
      have prepared := prepare_eq notSorted written heap
      obtain ⟨out', s₄, view, got', merged, -⟩ := reading.setSorted.getAll env (rows.length + 1) rfl
        (by omega)
      rw [getAll_prepare prepared rfl, got'] at got
      cases got
      have same := merged.perm.length_eq
      rw [perm.length_eq] at same
      omega
  · intro served rewinds
    obtain ⟨s₂, heap, reading, -, bytes₂⟩ := unread.initHeap env nonempty blocks.short
      (fun _ => bytes) served.divided
    have prepared := prepare_eq notSorted written heap
    obtain ⟨returned, result, length, all⟩ := served.readings nonempty blocks.short env
      (rows.length + 1) (by rw [blocks.perm.length_eq]; omega) rewinds reading.setSorted rfl
      bytes₂
    refine ⟨s, returned, put, ?_, length, fun out mem => ⟨?_, ?_⟩⟩
    · rw [readings_prepare prepared rfl]
      exact result
    · have perm := (all out mem).perm
      rw [served.remaining] at perm
      exact perm.trans blocks.perm
    · refine (all out mem).sorted fun b inside => ?_
      rw [openViews, left_openView (getElem?_eq_getElem inside),
        if_pos (served.positive b _ (getElem?_eq_getElem inside))]
      exact blocks.sorted _ (getElem_mem inside)

section
variable (blocks : Blocks rows runs)
include blocks

theorem Blocks.length_pos : 0 < runs.length := by
  rw [blocks.count]
  exact Nat.succ_pos _

theorem Blocks.first : ∃ run, runs[0]? = some run := ⟨_, getElem?_eq_getElem blocks.length_pos⟩

theorem Served.bytes_lt (served : Served runs) : c.size * c.totalBytes < 2 ^ 31 := by
  by_contra large
  have full : (c.size : Int) * c.totalBytes = 2 ^ 31 := by
    have := c.fits
    exact_mod_cast (show c.size * c.totalBytes = 2 ^ 31 by omega)
  obtain ⟨run, isRun⟩ := blocks.first
  have positive := served.positive 0 run isRun
  have lengths := blocks.lengths 0 run isRun
  rw [firstBytes] at positive
  by_cases one : 0 < runs.length - 1
  · rw [lengths.2.2 one, full] at positive
    exact absurd (positive.trans_le (min_le_left _ _)) (by decide)
  · have single : runs.length = 1 := by
      have := blocks.length_pos
      omega
    rw [if_neg one, lastBytes, single, full] at positive
    have last := positive.trans_le (min_le_right _ _)
    rw [cast_one, sub_self, mul_zero, sub_zero] at last
    exact absurd last (by decide)

end

section
variable (bytes : c.size * c.totalBytes < 2 ^ 31)
include bytes

theorem toInt32_share (noBlocks : Nat) :
    toInt32 (c.size / noBlocks : Nat) = (c.size / noBlocks : Nat) := by
  have size : c.size ≤ c.size * c.totalBytes := Nat.le_mul_of_pos_right _ c.total_pos
  obtain ⟨share, isShare⟩ : ∃ share, c.size / noBlocks = share := ⟨_, rfl⟩
  have le := Nat.div_le_self c.size noBlocks
  exact toInt32_of_lt (by omega) (by omega)

theorem small_iff (noBlocks : Nat) : small c noBlocks = true ↔ c.size / noBlocks < 3 := by
  rw [small, toInt32_share bytes, decide_eq_true_iff]
  exact Int.ofNat_lt

theorem standardBytes_share (noBlocks : Nat) : ∃ share : Nat,
    standardBytes c noBlocks = toInt32 (share * c.totalBytes : Nat) ∧
      (c.size / noBlocks < 3 ∧ share = 3 ∨ 3 ≤ c.size / noBlocks ∧ share = c.size / noBlocks) := by
  by_cases isSmall : c.size / noBlocks < 3
  · refine ⟨3, ?_, .inl ⟨isSmall, rfl⟩⟩
    rw [standardBytes, if_pos ((small_iff bytes noBlocks).mpr isSmall)]
    rfl
  · refine ⟨c.size / noBlocks, ?_, .inr ⟨not_lt.mp isSmall, rfl⟩⟩
    rw [standardBytes, if_neg (by rw [small_iff bytes]; exact isSmall), toInt32_share bytes,
      cast_mul]

end

theorem toInt32_wraps {x : Int} (low : 2 ^ 31 ≤ x) (high : x < 2 ^ 32 + 2 ^ 31) :
    toInt32 x = x - 2 ^ 32 := by
  have wrap : toInt32 (x - 2 ^ 32) = toInt32 x := Int.sub_bmod_right x (2 ^ 32)
  rw [← wrap]
  exact toInt32_of_lt (by omega) (by omega)

theorem toInt32_nonpos {a b : Nat} (le : a ≤ b) (high : (b : Int) < 2 ^ 31) :
    toInt32 ((a : Int) - b) ≤ 0 := by
  rw [toInt32_of_lt (by omega) (by omega)]
  omega

section
variable (blocks : Blocks rows runs) (served : Served runs)
include blocks served

section
variable (bytes : c.size * c.totalBytes < 2 ^ 31)
include bytes

theorem Served.three_rows (several : 1 < runs.length)
    (few : c.size / runs.length < 3) : 3 * c.totalBytes < 2 ^ 31 := by
  by_contra large
  obtain ⟨share, standard, ⟨-, three⟩ | ⟨absurd', -⟩⟩ := standardBytes_share bytes runs.length
  · obtain ⟨run, isRun⟩ := blocks.first
    obtain ⟨some', le, isFull⟩ := blocks.lengths 0 run isRun
    have full := isFull (by omega)
    have positive := served.positive 0 run isRun
    have whole := ((served.fits 0 run isRun).load positive).2.2.1
    have width : c.totalBytes ≤ c.size * c.totalBytes := Nat.le_mul_of_pos_left _ (by omega)
    -- one row: two of this width do not fit into `int`
    have single : c.size = 1 := by
      by_contra notOne
      have two : 2 * c.totalBytes ≤ c.size * c.totalBytes := mul_le_mul_right _ (by omega)
      have wraps := @toInt32_wraps (3 * c.totalBytes : Nat) (by omega) (by omega)
      have chosen := positive.trans_le (min_le_right _ _)
      rw [standard, three, wraps] at chosen
      omega
    rw [firstBytes, full, single, cast_one, one_mul, standard, three,
      @toInt32_wraps (3 * c.totalBytes : Nat) (by omega) (by omega),
      @toInt32_of_lt c.totalBytes (by omega) (by omega)] at positive whole
    rw [Int.emod_eq_of_lt positive.le (by omega)] at whole
    omega
  · omega

theorem Served.rows_left : 3 * (runs.length - 1) < c.size := by
  by_contra many
  obtain ⟨first, isFirst⟩ := blocks.first
  have nonempty := blocks.lengths 0 first isFirst
  have several : 1 < runs.length := by omega
  have few : c.size / runs.length < 3 := (Nat.div_lt_iff_lt_mul (by omega)).mpr (by omega)
  have three := served.three_rows blocks bytes several few
  obtain ⟨share, standard, ⟨-, isThree⟩ | ⟨absurd', -⟩⟩ := standardBytes_share bytes runs.length
  · have isLast := getElem?_eq_getElem (show runs.length - 1 < runs.length by omega)
    have positive := served.positive (runs.length - 1) _ isLast
    have last := positive.trans_le (min_le_right _ _)
    have isStandard : standardBytes c runs.length = (3 * c.totalBytes : Nat) := by
      rw [standard, isThree]
      exact toInt32_of_lt (by omega) (by omega)
    have high := served.high
    have used : standardBytes c runs.length * ((runs.length : Int) - 1) =
        ((3 * (runs.length - 1) * c.totalBytes : Nat) : Int) := by
      rw [isStandard]
      push_cast [cast_sub (show 1 ≤ runs.length by omega)]
      ring
    have more : c.size * c.totalBytes ≤ 3 * (runs.length - 1) * c.totalBytes :=
      mul_le_mul_right _ (not_lt.mp many)
    rw [if_neg (lt_irrefl _), lastBytes, used] at last
    rw [used] at high
    exact absurd last (not_lt.mpr (toInt32_nonpos more high))
  · omega

theorem Served.width : 3 * c.totalBytes < 2 ^ 32 := by
  by_contra large
  obtain ⟨run, isRun⟩ := blocks.first
  obtain ⟨some', le, -⟩ := blocks.lengths 0 run isRun
  have width : c.totalBytes ≤ c.size * c.totalBytes := Nat.le_mul_of_pos_left _ (by omega)
  have single : c.size = 1 := by
    by_contra notOne
    have two : 2 * c.totalBytes ≤ c.size * c.totalBytes := mul_le_mul_right _ (by omega)
    omega
  have one : runs.length = 1 := by
    have left := served.rows_left blocks bytes
    have := blocks.length_pos
    omega
  have positive := served.positive 0 run isRun
  have room := ((served.fits 0 run isRun).load positive).2.2.2
  have isSmall : small c 1 = true := (small_iff bytes 1).mpr (by rw [single]; decide)
  have length : run.length = 1 := by omega
  have exact' := @toInt32_of_lt c.totalBytes (by omega) (by omega)
  rw [firstBytes, one, if_neg (by decide), length, lastBytes, single, memoryBytes, isSmall,
    if_pos rfl,
    cast_one, one_mul, sub_self, mul_zero, sub_zero, mul_one] at room
  have rest : 3 * c.totalBytes % 2 ^ 32 = 3 * c.totalBytes - 2 ^ 32 := by omega
  omega

end

end

section
variable (bytes : c.size * c.totalBytes < 2 ^ 31) {noBlocks : Nat} (some' : 0 < noBlocks)
  (left : 3 * (noBlocks - 1) < c.size)
include bytes some' left

theorem memoryBytes_ge (width : 3 * c.totalBytes < 2 ^ 32) :
    c.size * c.totalBytes ≤ memoryBytes c noBlocks := by
  rw [memoryBytes]
  by_cases few : c.size / noBlocks < 3
  · rw [if_pos ((small_iff bytes noBlocks).mpr few)]
    have sizes : c.size ≤ 3 * noBlocks := (((Nat.div_lt_iff_lt_mul some').mp few)).le
    have order : 3 * c.totalBytes * noBlocks = 3 * noBlocks * c.totalBytes := by ring
    have enough : c.size * c.totalBytes ≤ 3 * noBlocks * c.totalBytes := mul_le_mul_right _ sizes
    have range : 3 * noBlocks * c.totalBytes < 2 ^ 32 := by
      by_cases one : noBlocks = 1
      · rw [one]
        exact width
      · have four : 4 * c.totalBytes ≤ c.size * c.totalBytes := mul_le_mul_right _ (by omega)
        have more : 3 * noBlocks * c.totalBytes ≤ (c.size + 2) * c.totalBytes :=
          mul_le_mul_right _ (by omega)
        rw [add_mul] at more
        omega
    rw [order, Nat.mod_eq_of_lt range]
    exact enough
  · rw [if_neg (by rw [small_iff bytes]; exact few)]

theorem exists_share : ∃ share, share * (noBlocks - 1) < c.size ∧
    (1 < noBlocks → 0 < share ∧ standardBytes c noBlocks = (share : Int) * c.totalBytes) ∧
    (∀ i < noBlocks, (i : Int) * standardBytes c noBlocks =
      ((i * share : Nat) : Int) * c.totalBytes) ∧
    lastBytes c noBlocks = ((c.size - share * (noBlocks - 1) : Nat) : Int) * c.totalBytes := by
  obtain ⟨share, standard, cases'⟩ := standardBytes_share bytes noBlocks
  have room : share * (noBlocks - 1) < c.size := by
    rcases cases' with ⟨-, three⟩ | ⟨three, isShare⟩
    · rw [three]
      exact left
    · have all := Nat.div_mul_le_self c.size noBlocks
      rw [← isShare] at all three
      rw [Nat.mul_sub_one]
      omega
  have positive : 0 < share := by omega
  have isStandard : 1 < noBlocks → standardBytes c noBlocks = (share : Int) * c.totalBytes := by
    intro several
    have less : share ≤ share * (noBlocks - 1) := Nat.le_mul_of_pos_right _ (by omega)
    have fits : share * c.totalBytes ≤ c.size * c.totalBytes := mul_le_mul_right _ (by omega)
    rw [standard, toInt32_of_lt (by omega) (by omega), cast_mul]
  have starts : ∀ i < noBlocks, (i : Int) * standardBytes c noBlocks =
      ((i * share : Nat) : Int) * c.totalBytes := by
    intro i inside
    by_cases several : 1 < noBlocks
    · rw [isStandard several, cast_mul]
      ring
    · rw [show i = 0 by omega]
      simp
  refine ⟨share, room, fun several => ⟨positive, isStandard several⟩, starts, ?_⟩
  have used := starts (noBlocks - 1) (by omega)
  rw [cast_sub some', cast_one, mul_comm, Nat.mul_comm] at used
  have less : (c.size - share * (noBlocks - 1)) * c.totalBytes ≤ c.size * c.totalBytes :=
    mul_le_mul_right _ (Nat.sub_le _ _)
  rw [lastBytes, used, ← sub_mul, ← cast_sub room.le]
  exact toInt32_of_lt (by omega) (by omega)

end

theorem Blocks.served (blocks : Blocks rows runs) (bytes : c.size * c.totalBytes < 2 ^ 31)
    (width : 3 * c.totalBytes < 2 ^ 32) (left : 3 * (runs.length - 1) < c.size) : Served runs := by
  have some' := blocks.length_pos
  obtain ⟨share, room, standard, starts, last⟩ := exists_share bytes some' left
  have memory := memoryBytes_ge bytes some' left width
  have inRange : ∀ n ≤ c.size, ((n : Nat) : Int) * c.totalBytes < 2 ^ 31 := by
    intro n le
    have := mul_le_mul_right c.totalBytes le
    exact_mod_cast (show n * c.totalBytes < 2 ^ 31 by omega)
  -- the part of block `i` in rows
  have part : ∀ i run, runs[i]? = some run → ∃ count, 0 < count ∧
      i * share + count ≤ c.size ∧
      firstBytes c (standardBytes c runs.length) (lastBytes c runs.length) runs.length
        run.length i =
        ((count : Nat) : Int) * c.totalBytes := by
    intro i run isRun
    have inside : i < runs.length := (List.getElem?_eq_some_iff.mp isRun).1
    obtain ⟨nonempty, le, -⟩ := blocks.lengths i run isRun
    have isSize : toInt32 (run.length * c.totalBytes) = (run.length : Int) * c.totalBytes :=
      toInt32_of_lt (by have := @bytes_nonneg c run.length; omega) (inRange _ le)
    have least : ∀ q : Nat, min ((run.length : Int) * c.totalBytes) (q * c.totalBytes) =
        ((min run.length q : Nat) : Int) * c.totalBytes := by
      intro q
      rcases le_total run.length q with less | less
      · rw [min_eq_left less, min_eq_left (bytes_le.mpr less)]
      · rw [min_eq_right less, min_eq_right (bytes_le.mpr less)]
    by_cases notLast : i < runs.length - 1
    · obtain ⟨positive, isStandard⟩ := standard (by omega)
      have next : (i + 1) * share ≤ (runs.length - 1) * share := mul_le_mul_right _ notLast
      rw [add_mul, mul_comm (runs.length - 1)] at next
      refine ⟨min run.length share, by omega, by omega, ?_⟩
      rw [firstBytes, if_pos notLast, isSize, isStandard, least]
    · refine ⟨min run.length (c.size - share * (runs.length - 1)), by omega, ?_, ?_⟩
      · rw [show i = runs.length - 1 by omega, mul_comm]
        omega
      · rw [firstBytes, if_neg notLast, isSize, last, least]
  have used := starts (runs.length - 1) (by omega)
  rw [cast_sub some', cast_one, mul_comm, Nat.mul_comm] at used
  refine ⟨?_, ?_, fun i run isRun => ?_, fun i run isRun => ?_⟩
  · have := @bytes_nonneg c (share * (runs.length - 1))
    omega
  · rw [used]
    exact inRange _ room.le
  · obtain ⟨count, positive, fits, isFirst⟩ := part i run isRun
    have isStart := starts i (List.getElem?_eq_some_iff.mp isRun).1
    have nonneg := @bytes_nonneg c (i * share)
    refine ⟨by rw [isStart]; omega, by rw [isStart]; exact inRange _ (by omega), fun _ => ?_⟩
    rw [isStart, isFirst]
    refine ⟨nonneg, Int.mul_emod_left _ _, Int.mul_emod_left _ _, ?_⟩
    rw [← add_mul]
    have total := mul_le_mul_right c.totalBytes fits
    exact_mod_cast total.trans memory
  · obtain ⟨count, positive, -, isFirst⟩ := part i run isRun
    rw [isFirst]
    exact Int.mul_pos (Int.ofNat_lt.mpr positive) (cast_total_pos c)

/-! ## Main result -/

theorem not_sortsRows_nil (env : Surroundings c) : ¬SortsRows env [] := by
  intro sorts
  obtain ⟨s, returned, put, result, -⟩ := sorts 1
  cases put
  -- `Rewind` divides by the number of blocks
  have got : getAll env 1 (construct env) = some ([], construct env) := rfl
  rw [length_nil, readings] at result
  cases result

theorem not_sortsRows_of_size (noSize : c.size = 0) (some' : rows ≠ []) (env : Surroundings c) :
    ¬SortsRows env rows := by
  intro sorts
  obtain ⟨s, returned, put, -⟩ := sorts 0
  cases rows with
  | nil => exact some' rfl
  | cons row rows =>
    have nothing : (construct env).putValue env row = none := by
      rw [putValue]
      split
      · rfl
      · exact if_pos noSize
    rw [putAll, nothing] at put
    cases put

/-- The rows come back in order exactly if there are rows, the buffer has the size of an `int`
and three rows of it for every block but the last leave something for the last one. -/
theorem sortsRows_iff (env : Surroundings c) (rows : List c.Row) :
    SortsRows env rows ↔ rows ≠ [] ∧ 0 < c.size ∧ c.size * c.totalBytes < 2 ^ 31 ∧
      3 * c.totalBytes < 2 ^ 32 ∧ 3 * ((rows.length - 1) / c.size) < c.size := by
  by_cases some' : rows ≠ []
  · rcases eq_zero_or_pos c.size with noSize | positive
    · constructor
      · exact fun sorts => absurd sorts (not_sortsRows_of_size noSize some' env)
      · rintro ⟨-, positive, -⟩
        omega
    · obtain ⟨runs, blocks, served⟩ := sortsRows_iff_served some' positive env
      have others : runs.length - 1 = (rows.length - 1) / c.size := by
        rw [blocks.count, Nat.add_sub_cancel]
      rw [served, ← others]
      constructor
      · intro isServed
        have bytes := isServed.bytes_lt blocks
        exact ⟨some', positive, bytes, isServed.width blocks bytes, isServed.rows_left blocks bytes⟩
      · rintro ⟨-, -, bytes, width, left⟩
        exact blocks.served bytes width left
  · constructor
    · intro sorts
      rw [not_not.mp some'] at sorts
      exact absurd sorts (not_sortsRows_nil env)
    · exact fun facts => absurd facts.1 some'

def firstLeast (keys : List Bytes) : Nat :=
  keys.findIdx fun key => keys.all fun other => key ≤ other

theorem firstLeast_least (keys : List Bytes) (some' : keys ≠ []) :
    ∃ key, keys[firstLeast keys]? = some key ∧ ∀ other ∈ keys, key ≤ other := by
  obtain ⟨least, mem, isLeast⟩ := keys.toFinset.exists_min_image id
    (toFinset_nonempty_iff keys |>.mpr some')
  have inside : firstLeast keys < keys.length := by
    refine findIdx_lt_length_of_exists ⟨least, mem_toFinset.mp mem, ?_⟩
    exact all_eq_true.mpr fun other isIn =>
      decide_eq_true (isLeast other (mem_toFinset.mpr isIn))
  refine ⟨keys[firstLeast keys], getElem?_eq_getElem inside, fun other isIn => ?_⟩
  have all := findIdx_getElem (w := inside)
  exact of_decide_eq_true (all_eq_true.mp all other isIn)

/-- What `CreateSorter` makes for 25 rows of 16 MB at memory setting 0. -/
def wideSizes : SorterSizes := ⟨8, 1, 2 ^ 24, by decide, by decide, by decide⟩

def wideRow : wideSizes.Row := ⟨List.replicate (2 ^ 24) 0, List.length_replicate⟩

def wideSurroundings : Surroundings wideSizes where
  memory := fun _ => wideRow
  rand := fun _ _ => 0
  top := fun _ => firstLeast
  top_least := fun _ => firstLeast_least

/-- Three blocks of three rows leave nothing of a buffer of eight rows for the fourth block. -/
theorem wide_row_lost :
    createSorter 0 25 1 (2 ^ 24) none (by decide) (by decide) = .sorterMultiPass wideSizes ∧
      ¬SortsRows wideSurroundings (List.replicate 25 wideRow) := by
  refine ⟨rfl, fun sorts => ?_⟩
  obtain ⟨runs, blocks, served⟩ := sortsRows_iff_served
    (show replicate 25 wideRow ≠ [] by rw [Ne]; decide)
    (show 0 < wideSizes.size by decide) wideSurroundings
  have left := (served.mp sorts).rows_left blocks (show 8 * 2 ^ 24 < 2 ^ 31 by decide)
  rw [blocks.count] at left
  exact absurd left (by decide)

end SorterMultiPass

end Brighthouse.Core
