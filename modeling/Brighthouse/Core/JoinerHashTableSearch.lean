import Brighthouse.Core.JoinerHashTableSpec

/-!
# Searches in the hash table of a join

A search finds the first copy of a key and then goes on along its walk, comparing keys only.
In a table with tuple columns no empty row comes before the last copy.  A table without
tuple columns holds one row for each key: the search comes round to that row again,
unless the key is all zero, which is also what empty rows contain.
-/

set_option autoImplicit false

namespace Brighthouse.Core

open Library Library.Probing List Function Nat

namespace JoinerHashTable

variable {row maxTableSize memoryLimit : Nat} {later keySizes tupleSizes : List Nat}
  {keys : List Bytes} {h' : JoinerHashTable}

/-! ## The first copy -/

section
variable {noRows : Nat} {sized : WellSized noRows} {h : JoinerHashTable} {key : Bytes}

theorem blocked_iff (buffer : h.inputBuffer = key) :
    Blocked h.view key row ↔ (h.t row).multiplier ≠ 0 ∧ (h.t row).key ≠ h.inputBuffer := by
  rw [Blocked, Ne, Ne, view_eq_none_iff, view_eq_some_iff, buffer]
  constructor
  · rintro ⟨taken, differs⟩
    exact ⟨taken, fun same => differs ⟨taken, same⟩⟩
  · rintro ⟨taken, differs⟩
    exact ⟨taken, fun same => differs same.2⟩

section
variable (size : h.noRows = noRows) (buffer : h.inputBuffer = key) {n : Nat} (inside : n < noRows)
  (before : ∀ i < n, Blocked h.view key (sized.row key i))
include size buffer inside before

theorem getLoop_reaches :
    ∃ turns, getLoop h (iterateStep key) (crcCode key % noRows) noRows (crcCode key % noRows) =
      getLoop h (iterateStep key) (crcCode key % noRows) (turns + 1) (sized.row key n) := by
  have walked := (layout sized).loop_reaches key
    (f := getLoop h (iterateStep key) (sized.row key 0)) inside fun i less turns => by
      obtain ⟨taken, differs⟩ := (blocked_iff buffer).mp (before i less)
      rw [getLoop, if_pos taken, if_neg differs]
      rw [size, advance_row_one sized, if_neg (row_ne_start sized key (by omega) (by omega))]
  rwa [WellSized.row, (layout sized).row_zero] at walked

theorem getLoop_found (here : h.view (sized.row key n) = some key) :
    getLoop h (iterateStep key) (crcCode key % noRows) noRows (crcCode key % noRows) =
      some (some (sized.row key n), (h.t (sized.row key n)).multiplier) := by
  obtain ⟨turns, walked⟩ := getLoop_reaches size buffer inside before
  obtain ⟨taken, isKey⟩ := view_eq_some_iff.mp here
  rw [walked, getLoop, if_pos taken, if_pos (isKey.trans buffer.symm)]

theorem getLoop_absent (empty : h.view (sized.row key n) = none) :
    getLoop h (iterateStep key) (crcCode key % noRows) noRows (crcCode key % noRows) =
      some (none, 0) := by
  obtain ⟨turns, walked⟩ := getLoop_reaches size buffer inside before
  rw [walked, getLoop, if_neg (not_not.mpr (view_eq_none_iff.mp empty))]

end

end

/-! ## The calls of `GetNextRow` -/

def cursorAt (h : JoinerHashTable) (row : Option Nat) (toBeReturned : Nat) : JoinerHashTable :=
  { h with
    currentRow := row
    toBeReturned := toBeReturned
    currentIterateStep := iterateStep h.inputBuffer }

theorem initCurrentRowToGet_eq {h : JoinerHashTable} {noRows : Nat} {key : Bytes}
    {row : Option Nat} {multiplier : Nat} (size : h.noRows = noRows) (buffer : h.inputBuffer = key)
    (found : getLoop h (iterateStep key) (crcCode key % noRows) noRows (crcCode key % noRows) =
      some (row, multiplier)) :
    h.initCurrentRowToGet = some (multiplier, h.cursorAt row multiplier) := by
  subst size buffer
  rw [initCurrentRowToGet, found]
  rfl

section
variable (h : JoinerHashTable) (row : Option Nat)

theorem getNextRow_none :
    (h.cursorAt row 0).getNextRow = some (none, h.cursorAt row 0) := by
  exact if_pos rfl

theorem getNextRow_last :
    (h.cursorAt row 1).getNextRow = some (row, h.cursorAt row 0) := by
  rw [getNextRow, if_neg (by exact one_ne_zero)]
  exact if_pos rfl

theorem getRows_none :
    getRows 1 (h.cursorAt row 0) = some [none] := by
  rfl

theorem getRows_last :
    getRows 2 (h.cursorAt row 1) = some [row, none] := by
  rw [getRows]
  rfl

theorem getNextRow_more (row next n : Nat)
    (found : nextLoop (h.cursorAt (some row) (n + 1)) row h.noRows
      (advance h.noRows row (iterateStep h.inputBuffer)) = some next) :
    (h.cursorAt (some row) (n + 2)).getNextRow =
      some (some row, h.cursorAt (some next) (n + 1)) := by
  have moved : nextLoop { h.cursorAt (some row) (n + 2) with toBeReturned := n + 1 } row h.noRows
      (advance h.noRows row (iterateStep h.inputBuffer)) = some next := found
  rw [getNextRow, if_neg (by exact succ_ne_zero _)]
  dsimp only [cursorAt, add_sub_cancel] at moved ⊢
  rw [if_neg (by omega), show n + 2 - 1 = n + 1 from rfl, moved]

end

section
variable {noRows : Nat} (sized : WellSized noRows) {h : JoinerHashTable} {key : Bytes}
  (size : h.noRows = noRows) (buffer : h.inputBuffer = key)
  (step : h.currentIterateStep = iterateStep key)
include sized size buffer step

theorem nextLoop_passes {i n : Nat} (turns d j : Nat) (after : i < j) (close : n < i + noRows)
    (same : j + d = n) (differ : ∀ m, j ≤ m → m < n → (h.t (sized.row key m)).key ≠ key) :
    nextLoop h (sized.row key i) (turns + d) (sized.row key j) =
      nextLoop h (sized.row key i) turns (sized.row key n) := by
  subst same
  refine (layout sized).loop_row key j d turns fun m turns low high => ?_
  have notStart : sized.row key (m + 1) ≠ sized.row key i := by
    intro back
    have equal := (layout sized).row_inj key
      (show m + 1 < i + (layout sized).size by show m + 1 < i + noRows; omega)
      (by omega) back.symm
    omega
  rw [nextLoop, buffer, if_neg (differ m low high)]
  rw [size, step, advance_row_one sized, if_neg notStart]

theorem nextLoop_first (j : Nat) :
    ∃ m, j < m ∧
      nextLoop h (sized.row key j) noRows (sized.row key (j + 1)) =
        some (sized.row key m) ∧
      ((h.t (sized.row key m)).key = key ∨ m = j + noRows) ∧
      ∀ i, j < i → i < m → (h.t (sized.row key i)).key ≠ key := by
  have large := sized.large
  have stops : ∃ m, j < m ∧ ((h.t (sized.row key m)).key = key ∨ m = j + noRows) :=
    ⟨j + noRows, by omega, .inr rfl⟩
  obtain ⟨m, found⟩ : ∃ m, Nat.find stops = m := ⟨_, rfl⟩
  obtain ⟨after, ends⟩ : j < m ∧ _ := found ▸ Nat.find_spec stops
  have le : m ≤ j + noRows := found ▸ Nat.find_min' stops ⟨by omega, .inr rfl⟩
  have differ : ∀ i, j < i → i < m → (h.t (sized.row key i)).key ≠ key :=
    fun i low high same => Nat.find_min stops (found ▸ high) ⟨low, .inl same⟩
  refine ⟨m, after, ?_, ends, differ⟩
  rcases lt_or_eq_of_le le with inside | round
  · have isKey := ends.resolve_right (by omega)
    have walked := nextLoop_passes sized size buffer step (noRows - (m - (j + 1)) - 1 + 1)
      (m - (j + 1)) (j + 1) (lt_succ_self j) inside (by omega) differ
    rw [show noRows - (m - (j + 1)) - 1 + 1 + (m - (j + 1)) = noRows by omega] at walked
    rw [walked, nextLoop, if_pos (isKey.trans buffer.symm)]
  · -- the whole table is passed
    have walked := nextLoop_passes sized size buffer step 2 (noRows - 2) (j + 1)
      (lt_succ_self j) (show m - 1 < j + noRows by omega) (by omega)
      (fun i low high => differ i low (by omega))
    have last : (h.t (sized.row key (m - 1))).key ≠ h.inputBuffer := by
      rw [buffer]
      exact differ (m - 1) (by omega) (by omega)
    have back : sized.row key m = sized.row key j := by
      rw [round]
      exact (layout sized).row_add_size key j
    rw [show 2 + (noRows - 2) = noRows by omega] at walked
    rw [walked, nextLoop, if_neg last]
    rw [size, step, advance_row_one sized, Nat.sub_add_cancel (by omega), back, if_pos rfl]

end

/-! ## Tables with tuple columns -/

section
variable {noRows : Nat} (sized : WellSized noRows)

/-- The copies of a key from step `j` of its walk on. -/
structure Ahead (h : JoinerHashTable) (key : Bytes) (j : Nat) (later : List Nat) : Prop where
  sorted : (j :: later).Pairwise (· < ·)
  inside : ∀ i ∈ j :: later, i < noRows
  exact : ∀ i, j < i → i < noRows → (h.view ((layout sized).row key i) = some key ↔ i ∈ later)

variable {sized} {h : JoinerHashTable} {insertions : List (Bytes × Nat)} {key : Bytes}

variable {j i : Nat} {rest : List Nat}

theorem Ahead.next (ahead : Ahead sized h key j (i :: rest)) : Ahead sized h key i rest where
  sorted := (pairwise_cons.mp ahead.sorted).2
  inside := fun m mem => ahead.inside m (mem_cons_of_mem j mem)
  exact := by
    intro m after small
    have less := (pairwise_cons.mp ahead.sorted).1 i mem_cons_self
    rw [ahead.exact m (by omega) small, mem_cons]
    exact or_iff_right (by omega)

section
variable (chained : Chained sized h insertions)
include chained

theorem Chained.taken_before (small : j < noRows)
    (here : h.view (sized.row key j) = some key) (less : i < j) :
    h.view (sized.row key i) ≠ none := by
  have mem := (chained.held _ ((layout sized).row_lt key j) key).mp here
  obtain ⟨j', small', isRow, taken⟩ := chained.walk key _ mem
  obtain rfl := index_eq small small' isRow
  exact taken i less

theorem Chained.nextLoop_finds (buffer : h.inputBuffer = key)
    (ahead : Ahead sized h key j (i :: rest)) (n : Nat) :
    nextLoop (h.cursorAt (some (sized.row key j)) n) (sized.row key j) noRows
      (sized.row key (j + 1)) = some (sized.row key i) := by
  have less := (pairwise_cons.mp ahead.sorted).1 i mem_cons_self
  have small := ahead.inside i (mem_cons_of_mem j mem_cons_self)
  have here := (ahead.exact i less small).mpr mem_cons_self
  have between : ∀ m, j + 1 ≤ m → m < i → (h.t (sized.row key m)).key ≠ key := by
    intro m low high isKey
    have taken := chained.taken_before small here high
    have copy := view_eq_some_iff.mpr ⟨fun zero => taken (view_eq_none_iff.mpr zero), isKey⟩
    have mem := (ahead.exact m (by omega) (by omega)).mp copy
    rcases mem_cons.mp mem with same | later
    · omega
    · have past := (pairwise_cons.mp ahead.next.sorted).1 m later
      omega
  obtain ⟨m, after, result, ends, differ⟩ := nextLoop_first sized
    (h := h.cursorAt (some (sized.row key j)) n) chained.size buffer
    (congrArg iterateStep buffer) j
  have reached : m = i := by
    rcases lt_trichotomy m i with before | same | past
    · exact absurd (ends.resolve_right (by omega)) (between m after before)
    · exact same
    · exact absurd (view_eq_some_iff.mp here).2 (differ i less past)
  rw [result, reached]

/-- The calls of `GetNextRow` return the copies in the order of the walk. -/
theorem Chained.getRows_eq (buffer : h.inputBuffer = key) (later : List Nat) :
    ∀ j, Ahead sized h key j later →
    getRows (later.length + 2)
        (h.cursorAt (some (sized.row key j)) (later.length + 1)) =
      some (((j :: later).map (sized.row key)).map some ++ [none]) := by
  induction later with
  | nil =>
    intro j _
    exact getRows_last h _
  | cons i rest ih =>
    intro j ahead
    have found := chained.nextLoop_finds buffer ahead (rest.length + 1)
    rw [← advance_row_one sized] at found
    have moved := getNextRow_more h (sized.row key j) (sized.row key i)
      rest.length (by rw [chained.size, buffer]; exact found)
    rw [getRows, length_cons, moved]
    dsimp only
    rw [ih i ahead.next]
    rfl

end

def copies (sized : WellSized noRows) (h : JoinerHashTable) (key : Bytes) : List Nat :=
  (List.range noRows).filter fun j => h.view ((layout sized).row key j) = some key

theorem mem_copies :
    j ∈ copies sized h key ↔ j < noRows ∧ h.view (sized.row key j) = some key := by
  rw [copies, mem_filter, mem_range, decide_eq_true_iff]

theorem copies_sorted : (copies sized h key).Pairwise (· < ·) := Pairwise.filter _ pairwise_lt_range

theorem Chained.copies_perm (chained : Chained sized h insertions) (key : Bytes) :
    ((copies sized h key).map (sized.row key)).Perm (rowsOf insertions key) := by
  have nodupRows : (rowsOf insertions key).Nodup :=
    chained.nodup.sublist (Sublist.map Prod.snd filter_sublist)
  have nodupCopies : ((copies sized h key).map (sized.row key)).Nodup := by
    refine Nodup.map_on ?_ (copies_sorted.imp ne_of_lt)
    intro i mem j mem' same
    exact index_eq (mem_copies.mp mem).1 (mem_copies.mp mem').1 same
  refine (perm_ext_iff_of_nodup nodupCopies nodupRows).mpr fun row => ?_
  rw [mem_rowsOf, mem_map]
  constructor
  · rintro ⟨j, mem, rfl⟩
    exact (chained.held _ ((layout sized).row_lt key j) key).mp (mem_copies.mp mem).2
  · intro mem
    obtain ⟨j, small, rfl, -⟩ := chained.walk key row mem
    exact ⟨j, mem_copies.mpr ⟨small, (chained.held _ ((layout sized).row_lt key j) key).mpr mem⟩,
      rfl⟩

theorem ahead_of_copies (found : copies sized h key = j :: later) : Ahead sized h key j later where
  sorted := found ▸ copies_sorted
  inside := by
    intro i mem
    rw [← found] at mem
    exact (mem_copies.mp mem).1
  exact := by
    intro i after small
    have mem : i ∈ copies sized h key ↔ i ∈ j :: later := by rw [found]
    rw [mem_copies, mem_cons] at mem
    constructor
    · intro here
      exact (mem.mp ⟨small, here⟩).resolve_left (by omega)
    · intro isLater
      exact (mem.mpr (.inr isLater)).2

theorem not_copy_before (found : copies sized h key = j :: later) (less : i < j) :
    h.view (sized.row key i) ≠ some key := by
  intro here
  have small := (mem_copies.mp (found ▸ mem_cons_self : j ∈ copies sized h key)).1
  have sorted : (j :: later).Pairwise (· < ·) := found ▸ copies_sorted
  have mem := mem_copies.mpr ⟨less.trans small, here⟩
  rw [found, mem_cons] at mem
  rcases mem with same | isLater
  · omega
  · have past := (pairwise_cons.mp sorted).1 i isLater
    omega

theorem Chained.search (chained : Chained sized h insertions) (buffer : h.inputBuffer = key)
    (room : insertions.length < noRows) :
    ∃ (found : JoinerHashTable) (rows : List Nat),
      h.initCurrentRowToGet = some ((rowsOf insertions key).length, found) ∧
      getRows ((rowsOf insertions key).length + 1) found = some (rows.map some ++ [none]) ∧
      rows.Perm (rowsOf insertions key) := by
  have rows := chained.copies_perm key
  have size := chained.size
  cases found : copies sized h key with
  | nil =>
    rw [found] at rows
    obtain ⟨row, inside, isEmpty⟩ := chained.exists_empty room
    obtain ⟨e, small, empty, before⟩ := exists_first_empty sized inside isEmpty key
    have noCopy : ∀ i < e, h.view (sized.row key i) ≠ some key := by
      intro i less here
      have mem := mem_copies.mpr ⟨less.trans small, here⟩
      rw [found] at mem
      cases mem
    have search := getLoop_absent size buffer small
      (fun i less => ⟨before i less, noCopy i less⟩) empty
    rw [show rowsOf insertions key = [] from rows.nil_eq.symm]
    exact ⟨_, [], initCurrentRowToGet_eq size buffer search, getRows_none _ _, Perm.refl _⟩
  | cons j later =>
    have isCopy := mem_copies.mp (found ▸ mem_cons_self : j ∈ copies sized h key)
    have firstCopy := fun i (less : i < j) => not_copy_before found less
    have search := getLoop_found size buffer isCopy.1
      (fun i less => ⟨chained.taken_before isCopy.1 isCopy.2 less, firstCopy i less⟩) isCopy.2
    rw [chained.first key j isCopy.1 isCopy.2 firstCopy] at search
    rw [found] at rows
    have length : (rowsOf insertions key).length = later.length + 1 := by
      rw [← rows.length_eq, length_map, length_cons]
    refine ⟨_, (j :: later).map (sized.row key),
      initCurrentRowToGet_eq size buffer search, ?_, rows⟩
    rw [length]
    exact chained.getRows_eq buffer later j (ahead_of_copies found)

end

/-! ## Tables without tuple columns -/

section
variable {noRows : Nat} (sized : WellSized noRows)

/-- The table after the insertions given, the last one first. -/
structure Counted (h : JoinerHashTable) (insertions : List (Bytes × Nat)) : Prop where
  counting : h.forCountOnly = true
  size : h.noRows = noRows
  keys : ∃ keys, Holds (layout sized) h.view keys ∧ keys.length = h.noOfOccupied ∧
    ∀ key, key ∈ keys ↔ ∃ row, (key, row) ∈ insertions
  rows : ∀ key row, (key, row) ∈ insertions → row < noRows ∧ h.view row = some key
  multiplier : ∀ row < noRows, ∀ key, h.view row = some key →
    (h.t row).multiplier = (rowsOf insertions key).length
  cleared : ∀ row, (h.t row).multiplier = 0 → (h.t row).key = List.replicate h.keyBufWidth 0

variable {sized} {h : JoinerHashTable} {insertions : List (Bytes × Nat)} {key : Bytes}

section
variable (counted : Counted sized h insertions)
include counted

theorem Counted.putKey (key : Bytes) : Counted sized (h.putKey key) insertions :=
  { counted with }

theorem Counted.row_unique {row' : Nat} (inside : row < noRows) (inside' : row' < noRows)
    (here : h.view row = some key) (here' : h.view row' = some key) : row = row' := by
  obtain ⟨keys, holds, -⟩ := counted.keys
  exact holds.row_unique inside inside' here here'

theorem Counted.exists_empty (room : h.noOfOccupied < noRows) :
    ∃ row < noRows, h.view row = none := by
  obtain ⟨keys, holds, length, -⟩ := counted.keys
  exact holds.exists_empty (by rw [length]; exact room)

theorem Counted.walk_ends (room : h.noOfOccupied < noRows) (key : Bytes) :
    ∃ n < noRows, (∀ i < n, Blocked h.view key (sized.row key i)) ∧
      ((∃ row, (key, row) ∈ insertions) → h.view (sized.row key n) = some key) ∧
      ((¬∃ row, (key, row) ∈ insertions) → h.view (sized.row key n) = none) := by
  obtain ⟨keys, holds, length, members⟩ := counted.keys
  obtain ⟨n, before, -, found⟩ := @Holds.search Bytes (layout sized) h.view keys holds _
    (by rw [length]; exact room) key (advance noRows · (iterateStep key))
    (advance_row_one sized key) noRows (le_refl _)
  obtain ⟨row, inside, empty⟩ := counted.exists_empty room
  obtain ⟨m, small, isRow⟩ := (layout sized).covers key inside
  have soon : n ≤ m := by
    by_contra late
    exact (before m (by omega)).1 (by rw [isRow, empty])
  rw [← members key]
  exact ⟨n, soon.trans_lt small, before, fun present => by rw [found, if_pos present],
    fun absent => by rw [found, if_neg absent]⟩

end

section
variable (size : h.noRows = noRows) (buffer : h.inputBuffer = key) {n : Nat} (inside : n < noRows)
  (before : ∀ i < n, Blocked h.view key (sized.row key i))
include size buffer inside before

theorem addLoop_reaches :
    ∃ turns, addLoop (iterateStep key) (crcCode key % noRows) noRows (crcCode key % noRows) h =
      addLoop (iterateStep key) (crcCode key % noRows) (turns + 1) (sized.row key n) h := by
  have walked := (layout sized).loop_reaches key
    (f := fun turns row => addLoop (iterateStep key) (sized.row key 0) turns row h) inside
    fun i less turns => by
      obtain ⟨taken, differs⟩ := (blocked_iff buffer).mp (before i less)
      rw [addLoop]
      rw [if_pos taken, if_neg differs, size, advance_row_one sized,
        if_neg (row_ne_start sized key (by omega) (by omega))]
  rwa [WellSized.row, (layout sized).row_zero] at walked

end

theorem view_countOnce (here : h.view row = some key) : (h.countOnce row).view = h.view := by
  funext other
  by_cases same : other = row
  · obtain ⟨taken, isKey⟩ := view_eq_some_iff.mp here
    subst same
    rw [here, view_eq_some_iff, t_countOnce_self]
    exact ⟨succ_ne_zero _, isKey⟩
  · exact view_congr (t_countOnce_of_ne h same)

theorem view_occupy (row : Nat) : (h.occupy row).view = update h.view row (some h.inputBuffer) := by
  funext other
  by_cases same : other = row
  · subst same
    rw [update_self, view_eq_some_iff]
    have content : (h.occupy other).t other = ⟨h.inputBuffer, 1⟩ := update_self ..
    rw [content]
    exact ⟨one_ne_zero, rfl⟩
  · rw [update_of_ne same]
    exact view_congr (update_of_ne same ..)

section
variable (counted : Counted sized h insertions)
include counted

theorem Counted.countOnce (inside : row < noRows) (here : h.view row = some key)
    (present : ∃ row, (key, row) ∈ insertions) :
    Counted sized (h.countOnce row) ((key, row) :: insertions) := by
  obtain ⟨keys, holds, length, members⟩ := counted.keys
  refine ⟨counted.counting, counted.size, ⟨keys, ?_, length, fun other => ?_⟩, ?_, ?_, ?_⟩
  · rwa [view_countOnce here]
  · rw [members other]
    refine ⟨fun ⟨place, mem⟩ => ⟨place, mem_cons_of_mem _ mem⟩, ?_⟩
    rintro ⟨place, mem⟩
    rcases mem_cons.mp mem with same | old
    · cases same
      exact present
    · exact ⟨place, old⟩
  · intro other place mem
    rw [view_countOnce here]
    rcases mem_cons.mp mem with same | old
    · cases same
      exact ⟨inside, here⟩
    · exact counted.rows other place old
  · intro place small other isThere
    rw [view_countOnce here] at isThere
    have old := counted.multiplier place small other isThere
    by_cases same : place = row
    · subst same
      rw [here] at isThere
      cases isThere
      rw [t_countOnce_self, rowsOf_cons_self, length_cons, ← old]
    · have differs : key ≠ other := by
        rintro rfl
        exact same (counted.row_unique small inside isThere here)
      rw [t_countOnce_of_ne h same, rowsOf_cons_of_ne _ _ differs, old]
  · intro place zero
    by_cases same : place = row
    · subst same
      rw [t_countOnce_self] at zero
      cases zero
    · rw [t_countOnce_of_ne h same] at zero ⊢
      exact counted.cleared place zero

theorem Counted.occupy (buffer : h.inputBuffer = key) {n : Nat}
    (before : ∀ i < n, Blocked h.view key (sized.row key i))
    (empty : h.view (sized.row key n) = none) (absent : ¬∃ row, (key, row) ∈ insertions) :
    Counted sized (h.occupy (sized.row key n))
      ((key, sized.row key n) :: insertions) := by
  obtain ⟨keys, holds, length, members⟩ := counted.keys
  have notKey : key ∉ keys := fun mem => absent ((members key).mp mem)
  have none' : rowsOf insertions key = [] :=
    eq_nil_iff_forall_not_mem.mpr fun row mem => absent ⟨row, mem_rowsOf.mp mem⟩
  have others : ∀ {place}, place ≠ sized.row key n →
      (h.occupy (sized.row key n)).t place = h.t place :=
    fun differs => update_of_ne differs ..
  have content : (h.occupy (sized.row key n)).t (sized.row key n) =
      ⟨key, 1⟩ := by
    rw [← buffer]
    exact update_self ..
  have holds' := holds.insert before (by rw [if_neg notKey, empty])
  rw [← buffer, ← view_occupy, buffer] at holds'
  refine ⟨counted.counting, counted.size, ⟨key :: keys, holds', ?_, fun other => ?_⟩, ?_, ?_, ?_⟩
  · rw [length_cons, length]
    rfl
  · rw [mem_cons, members other]
    constructor
    · rintro (rfl | ⟨row, mem⟩)
      · exact ⟨_, mem_cons_self⟩
      · exact ⟨row, mem_cons_of_mem _ mem⟩
    · rintro ⟨row, mem⟩
      rcases mem_cons.mp mem with same | old
      · exact .inl (congrArg Prod.fst same)
      · exact .inr ⟨row, old⟩
  · intro other row mem
    rw [view_occupy, buffer]
    rcases mem_cons.mp mem with same | old
    · cases same
      exact ⟨(layout sized).row_lt key n, update_self ..⟩
    · obtain ⟨small, here⟩ := counted.rows other row old
      refine ⟨small, ?_⟩
      rw [update_of_ne, here]
      rintro rfl
      rw [empty] at here
      cases here
  · intro row small other here
    by_cases same : row = sized.row key n
    · subst same
      rw [view_eq_some_iff, content] at here
      obtain rfl : key = other := here.2
      rw [content, rowsOf_cons_self, none']
      rfl
    · rw [view_congr (others same)] at here
      have differs : key ≠ other := by
        rintro rfl
        exact absent ((members key).mp (holds.stored row small key here).1)
      rw [others same, rowsOf_cons_of_ne _ _ differs]
      exact counted.multiplier row small other here
  · intro row zero
    by_cases same : row = sized.row key n
    · rw [same, content] at zero
      cases zero
    · rw [others same] at zero ⊢
      exact counted.cleared row zero

theorem Counted.insert (key : Bytes) (buffer : h.inputBuffer = key)
    (room : h.noOfOccupied < noRows) :
    ∃ row h', addLoop (iterateStep key) (crcCode key % noRows) noRows (crcCode key % noRows) h =
        some (some row, h') ∧ h'.setup = h.setup ∧ h'.tooManyConflicts = h.tooManyConflicts ∧
      ((∃ row, (key, row) ∈ insertions) → h'.noOfOccupied = h.noOfOccupied) ∧
      ((¬∃ row, (key, row) ∈ insertions) → h'.noOfOccupied = h.noOfOccupied + 1) ∧
      Counted sized h' ((key, row) :: insertions) := by
  obtain ⟨n, inside, before, found, free⟩ := counted.walk_ends room key
  obtain ⟨turns, walked⟩ := addLoop_reaches counted.size buffer inside before
  by_cases present : ∃ row, (key, row) ∈ insertions
  · have here := found present
    obtain ⟨taken, isKey⟩ := view_eq_some_iff.mp here
    refine ⟨_, h.countOnce _, ?_, rfl, rfl, fun _ => rfl, fun absent => absurd present absent,
      counted.countOnce ((layout sized).row_lt key n) here present⟩
    rw [walked, addLoop]
    rw [if_pos taken, if_pos (isKey.trans buffer.symm)]
    exact if_pos counted.counting
  · have empty := free present
    refine ⟨_, h.occupy _, ?_, rfl, rfl, fun isThere => absurd isThere present, fun _ => rfl,
      counted.occupy buffer before empty present⟩
    rw [walked, addLoop]
    rw [if_neg (not_not.mpr (view_eq_none_iff.mp empty))]

theorem Counted.rowsOf_eq (inside : row < noRows) (here : h.view row = some key) :
    rowsOf insertions key = replicate (rowsOf insertions key).length row := by
  refine eq_replicate_of_mem fun other mem => ?_
  obtain ⟨inside', here'⟩ := counted.rows key other (mem_rowsOf.mp mem)
  exact counted.row_unique inside' inside here' here

theorem Counted.same_bytes {other : Nat} (inside : row < noRows) (here : h.view row = some key)
    (inside' : other < noRows) (differs : other ≠ row) (same : (h.t other).key = key) :
    key = replicate h.keyBufWidth 0 := by
  have empty : h.view other = none := by
    by_contra taken
    refine differs (counted.row_unique inside' inside ?_ here)
    exact view_eq_some_iff.mpr ⟨fun zero => taken (view_eq_none_iff.mpr zero), same⟩
  exact same.symm.trans (counted.cleared other (view_eq_none_iff.mp empty))

section
variable (buffer : h.inputBuffer = key) (notZero : key ≠ replicate h.keyBufWidth 0) {j : Nat}
  (here : h.view (sized.row key j) = some key) (n : Nat)
include buffer notZero here n

theorem Counted.nextLoop_round :
    nextLoop (h.cursorAt (some (sized.row key j)) n) (sized.row key j) noRows
      (sized.row key (j + 1)) = some (sized.row key j) := by
  obtain ⟨m, -, result, ends, -⟩ := nextLoop_first sized
    (h := h.cursorAt (some (sized.row key j)) n) counted.size buffer
    (congrArg iterateStep buffer) j
  rw [result]
  rcases ends with same | round
  · by_contra away
    exact notZero (counted.same_bytes ((layout sized).row_lt key j) here
      ((layout sized).row_lt key m) (fun back => away (congrArg some back)) same)
  · rw [round]
    exact congrArg some ((layout sized).row_add_size key j)

theorem Counted.getRows_eq :
    getRows (n + 1) (h.cursorAt (some (sized.row key j)) n) =
      some ((replicate n (sized.row key j)).map some ++ [none]) := by
  induction n with
  | zero => exact getRows_none h _
  | succ n ih =>
    cases n with
    | zero => exact getRows_last h _
    | succ n =>
      have found := counted.nextLoop_round buffer notZero here (n + 1)
      rw [← advance_row_one sized] at found
      have moved := getNextRow_more h (sized.row key j) (sized.row key j) n
        (by rw [counted.size, buffer]; exact found)
      rw [getRows, moved]
      dsimp only
      rw [ih]
      rfl

end

theorem Counted.nextLoop_empty (room : h.noOfOccupied < noRows) (buffer : h.inputBuffer = key)
    (zero : key = replicate h.keyBufWidth 0) {j : Nat} (small : j < noRows)
    (here : h.view (sized.row key j) = some key) (n : Nat) :
    ∃ other ≠ sized.row key j,
      nextLoop (h.cursorAt (some (sized.row key j)) n) (sized.row key j) noRows
        (sized.row key (j + 1)) = some other := by
  obtain ⟨row, inside, empty⟩ := counted.exists_empty room
  obtain ⟨m, smaller, rfl⟩ := (layout sized).covers key inside
  have zeroAt : ∀ i, h.view (sized.row key i) = none →
      (h.t (sized.row key i)).key = key := by
    intro i isEmpty
    rw [counted.cleared _ (view_eq_none_iff.mp isEmpty), zero]
  -- an empty row comes before the search is back
  obtain ⟨i, low, high, empty'⟩ : ∃ i, j < i ∧ i < j + noRows ∧
      h.view (sized.row key i) = none := by
    have below : m < noRows := smaller
    rcases lt_trichotomy m j with less | same | more
    · refine ⟨m + noRows, by omega, by omega, ?_⟩
      have round : sized.row key (m + noRows) = sized.row key m :=
        (layout sized).row_add_size key m
      rw [round, empty]
    · rw [same, here] at empty
      cases empty
    · exact ⟨m, more, by omega, empty⟩
  obtain ⟨e, after, result, -, differ⟩ := nextLoop_first sized
    (h := h.cursorAt (some (sized.row key j)) n) counted.size buffer
    (congrArg iterateStep buffer) j
  have soon : e ≤ i := by
    by_contra late
    exact differ i low (by omega) (zeroAt i empty')
  refine ⟨sized.row key e, fun back => ?_, result⟩
  have equal := (layout sized).row_inj key
    (show e < j + (layout sized).size from lt_of_le_of_lt soon high) after.le back.symm
  omega

end

end

/-! ## Sequences of insertions -/

/-- The table after insertions none of which was refused; the last one comes first in the
list. -/
inductive Reached (empty : JoinerHashTable) : List (Bytes × Nat) → JoinerHashTable → Prop
  | start : Reached empty [] empty
  | insert {insertions : List (Bytes × Nat)} {h h' : JoinerHashTable} {key : Bytes} {row : Nat} :
      Reached empty insertions h → key.length = empty.keyBufWidth →
      (h.putKey key).findAndAddCurrentRow = some (some row, h') →
      Reached empty ((key, row) :: insertions) h'

/-- The insertions as a run, the last key first. -/
def addKeys (empty : JoinerHashTable) :
    List Bytes → Option (List (Bytes × Nat) × JoinerHashTable)
  | [] => some ([], empty)
  | key :: keys =>
    match addKeys empty keys with
    | none => none
    | some (insertions, h) =>
      match (h.putKey key).findAndAddCurrentRow with
      | some (some row, h) => some ((key, row) :: insertions, h)
      | _ => none

variable {empty : JoinerHashTable} {insertions : List (Bytes × Nat)}

theorem reached_of_addKeys {h : JoinerHashTable}
    (widths : ∀ key ∈ keys, key.length = empty.keyBufWidth)
    (ran : addKeys empty keys = some (insertions, h)) : Reached empty insertions h := by
  induction keys generalizing insertions h with
  | nil =>
    cases ran
    exact Reached.start
  | cons key keys ih =>
    rw [addKeys] at ran
    split at ran
    · cases ran
    · rename_i before result
      split at ran
      · rename_i accepted
        cases ran
        exact Reached.insert (ih (fun key mem => widths key (mem_cons_of_mem _ mem))
          result) (widths key mem_cons_self) accepted
      · cases ran

theorem exists_reached (widths : ∀ key ∈ keys, key.length = empty.keyBufWidth)
    (ran : (addKeys empty keys).map Prod.fst = some insertions) :
    ∃ h, Reached empty insertions h := by
  obtain ⟨⟨insertions', h⟩, result, rfl⟩ := Option.map_eq_some_iff.mp ran
  exact ⟨h, reached_of_addKeys widths result⟩

/-- What a multiset of keys does for one key: an insertion comes to an end; a search returns
the number of insertions of the key and then their rows, each once, and the end marker. -/
structure FindsInsertions (h : JoinerHashTable) (insertions : List (Bytes × Nat)) (key : Bytes) :
    Prop where
  adds : ∃ outcome, (h.putKey key).findAndAddCurrentRow = some outcome
  finds : ∃ (found : JoinerHashTable) (rows : List Nat),
    (h.putKey key).initCurrentRowToGet = some ((rowsOf insertions key).length, found) ∧
    getRows ((rowsOf insertions key).length + 1) found = some (rows.map some ++ [none]) ∧
    rows.Perm (rowsOf insertions key)

/-- What `Initialize` leaves. -/
structure Fresh (h : JoinerHashTable) : Prop where
  sized : WellSized h.noRows
  limit : h.rowsLimit < h.noRows
  occupied : h.noOfOccupied = 0
  cleared : ∀ row, h.t row = clearedRow h.keyBufWidth

section
variable {h : JoinerHashTable}
  (made : initializeTable keySizes tupleSizes maxTableSize memoryLimit = some h)
include made

theorem fresh_of_initializeTable : Fresh h ∧ h.forCountOnly = tupleSizes.isEmpty := by
  rw [initializeTable] at made
  split at made
  · cases made
  · cases made
    have sized := verticalSize_wellSized (rowsWanted (if maxTableSize < 2 then 2 else maxTableSize)
      (4 * ((keySizes.sum + 3) / 4) + (tupleSizes ++ [8]).sum) memoryLimit)
    have limit : ∀ n, 1 < n → n * 9 / 10 < n := fun n large => by omega
    exact ⟨⟨sized, limit _ sized.large, rfl, fun _ => rfl⟩, rfl⟩

theorem rowsLimit_pos : 0 < h.rowsLimit := by
  have fresh := (fresh_of_initializeTable made).1
  rw [initializeTable] at made
  split at made
  · cases made
  · cases made
    have limit : ∀ n, 1 < n → 0 < n * 9 / 10 := fun n large => by omega
    exact limit _ fresh.sized.large

end

section
variable {empty h : JoinerHashTable} {insertions : List (Bytes × Nat)}

variable (fresh : Fresh empty)
include fresh

theorem Fresh.view_eq (row : Nat) : empty.view row = none :=
  view_eq_none_iff.mpr (by rw [fresh.cleared]; rfl)

theorem Fresh.chained (tuples : empty.forCountOnly = false) :
    Chained fresh.sized empty [] where
  tuples := tuples
  size := rfl
  occupied := fresh.occupied
  nodup := nodup_nil
  inside := fun _ _ mem => absurd mem not_mem_nil
  held := by
    intro row _ key
    rw [fresh.view_eq]
    exact iff_of_false (Option.some_ne_none key).symm not_mem_nil
  walk := fun _ _ mem => absurd mem not_mem_nil
  jumps := fun key j _ here => absurd (here.symm.trans (fresh.view_eq _)) (Option.some_ne_none key)
  first := fun key j _ here => absurd (here.symm.trans (fresh.view_eq _)) (Option.some_ne_none key)

theorem Fresh.counted (counting : empty.forCountOnly = true) :
    Counted fresh.sized empty [] where
  counting := counting
  size := rfl
  keys := by
    have nothing : empty.view = fun _ => none := funext fresh.view_eq
    refine ⟨[], ?_, fresh.occupied.symm, fun key => ?_⟩
    · rw [nothing]
      exact holds_nil _
    · exact iff_of_false not_mem_nil fun ⟨_, mem⟩ => not_mem_nil mem
  rows := fun _ _ mem => absurd mem not_mem_nil
  multiplier := fun row _ key here =>
    absurd (here.symm.trans (fresh.view_eq row)) (Option.some_ne_none key)
  cleared := fun row _ => by rw [fresh.cleared]; rfl

omit fresh

variable {noRows : Nat}

theorem rowsLimit_of_setup (same : h'.setup = h.setup) :
    h'.rowsLimit = h.rowsLimit := congrArg (fun setup => setup.2.2.2) same

theorem keyBufWidth_of_setup (same : h'.setup = h.setup) :
    h'.keyBufWidth = h.keyBufWidth := congrArg (fun setup => setup.2.1) same

theorem findAndAddCurrentRow_eq (key : Bytes) (size : h.noRows = noRows)
    (room : h.noOfOccupied < h.rowsLimit) :
    (h.putKey key).findAndAddCurrentRow =
      addLoop (iterateStep key) (crcCode key % noRows) noRows (crcCode key % noRows)
        (h.putKey key) := by
  rw [findAndAddCurrentRow, if_neg (by exact not_le.mpr room), ← size]
  rfl

theorem room_of_accepted {key : Bytes}
    (accepted : (h.putKey key).findAndAddCurrentRow = some (some row, h')) :
    h.noOfOccupied < h.rowsLimit := by
  by_contra full
  rw [findAndAddCurrentRow, if_pos (by exact not_lt.mp full)] at accepted
  cases accepted

include fresh

theorem Reached.chained (tuples : empty.forCountOnly = false)
    (reached : Reached empty insertions h) :
    Chained fresh.sized h insertions ∧ h.setup = empty.setup ∧
      h.noOfOccupied ≤ empty.rowsLimit := by
  induction reached with
  | start => exact ⟨fresh.chained tuples, rfl, by rw [fresh.occupied]; exact zero_le _⟩
  | @insert insertions h h' key row _ _ accepted ih =>
    obtain ⟨chained, setup, -⟩ := ih
    have room := room_of_accepted accepted
    have limit := fresh.limit
    rw [findAndAddCurrentRow_eq key chained.size room] at accepted
    rw [chained.occupied, rowsLimit_of_setup setup] at room
    obtain ⟨row', h'', result, setup', chained'⟩ :=
      (chained.putKey key).insert key rfl (room.trans limit)
    rw [accepted] at result
    cases result
    refine ⟨chained', setup'.trans setup, ?_⟩
    rw [chained'.occupied]
    exact room

theorem Reached.counted (counting : empty.forCountOnly = true)
    (reached : Reached empty insertions h) :
    Counted fresh.sized h insertions ∧ h.setup = empty.setup ∧
      h.noOfOccupied ≤ empty.rowsLimit := by
  induction reached with
  | start => exact ⟨fresh.counted counting, rfl, by rw [fresh.occupied]; exact zero_le _⟩
  | @insert insertions h h' key row _ _ accepted ih =>
    obtain ⟨counted, setup, -⟩ := ih
    have room := room_of_accepted accepted
    have limit := fresh.limit
    rw [findAndAddCurrentRow_eq key counted.size room] at accepted
    rw [rowsLimit_of_setup setup] at room
    obtain ⟨row', h'', result, setup', -, same, more, counted'⟩ :=
      (counted.putKey key).insert key rfl (room.trans limit)
    rw [accepted] at result
    cases result
    refine ⟨counted', setup'.trans setup, ?_⟩
    by_cases present : ∃ row, (key, row) ∈ insertions
    · rw [same present]
      exact room.le
    · rw [more present]
      exact room

omit fresh

theorem Chained.findsInsertions {sized : WellSized noRows} (chained : Chained sized h insertions)
    (limit : h.rowsLimit < noRows) (within : h.noOfOccupied ≤ h.rowsLimit) (key : Bytes) :
    FindsInsertions h insertions key := by
  have put := chained.putKey key
  rw [chained.occupied] at within
  have enough := within.trans_lt limit
  refine ⟨?_, put.search rfl enough⟩
  by_cases room : h.noOfOccupied < h.rowsLimit
  · obtain ⟨row, h', result, -⟩ := put.insert key rfl enough
    exact ⟨_, (findAndAddCurrentRow_eq key chained.size room).trans result⟩
  · exact ⟨_, if_pos (not_lt.mp room)⟩

theorem head_of_getRows {row : Option Nat} {calls n : Nat} {answers : List (Option Nat)}
    (result : getRows (calls + 1) (h.cursorAt row (n + 1)) = some answers) : row ∈ answers := by
  rw [getRows] at result
  cases answer : (h.cursorAt row (n + 1)).getNextRow with
  | none =>
    rw [answer] at result
    cases result
  | some outcome =>
    obtain ⟨returned, rest⟩ := outcome
    have isRow : returned = row := by
      rw [getNextRow, if_neg (by exact succ_ne_zero n)] at answer
      dsimp only [cursorAt] at answer
      split at answer
      · cases answer
        rfl
      · split at answer
        · cases answer
        · split at answer
          · cases answer
          · cases answer
            rfl
    rw [answer] at result
    obtain ⟨others, -, rfl⟩ := Option.map_eq_some_iff.mp result
    rw [isRow]
    exact mem_cons_self

section
variable {noRows : Nat} {sized : WellSized noRows}

section
variable (counted : Counted sized h insertions)
include counted

theorem Counted.zero_fails {key : Bytes}
    (room : h.noOfOccupied < noRows) (zero : key = replicate h.keyBufWidth 0)
    (twice : 2 ≤ (rowsOf insertions key).length) : ¬FindsInsertions h insertions key := by
  rintro ⟨-, found, rows, search, answers, perm⟩
  have put := counted.putKey key
  obtain ⟨first, mem⟩ := exists_mem_of_length_pos (zero_lt_of_lt twice)
  obtain ⟨n, inside, before, present, -⟩ := put.walk_ends room key
  have here := present ⟨first, mem_rowsOf.mp mem⟩
  have buffer : (h.putKey key).inputBuffer = key := rfl
  have searched := getLoop_found put.size buffer inside before here
  rw [put.multiplier _ ((layout sized).row_lt key n) key here] at searched
  rw [initCurrentRowToGet_eq put.size buffer searched] at search
  cases search
  obtain ⟨m, length⟩ : ∃ m, (rowsOf insertions key).length = m + 2 :=
    ⟨_, (Nat.sub_add_cancel twice).symm⟩
  obtain ⟨other, differs, next⟩ := put.nextLoop_empty room buffer zero inside here (m + 1)
  rw [← advance_row_one sized] at next
  have moved := getNextRow_more (h.putKey key) (sized.row key n) other m
    (by rw [put.size]; exact next)
  rw [length, getRows, moved] at answers
  obtain ⟨rest, later, list⟩ := Option.map_eq_some_iff.mp answers
  have answered : some other ∈ rows.map some ++ [none] := by
    rw [← list]
    exact mem_cons_of_mem _ (head_of_getRows later)
  obtain ⟨row, isRow, same⟩ := mem_map.mp
    ((mem_append.mp answered).resolve_right (by simp))
  cases same
  rw [perm.mem_iff, counted.rowsOf_eq ((layout sized).row_lt key n) here] at isRow
  exact differs (eq_of_mem_replicate isRow)

/-- In a table without tuple columns the one row of a key is returned for each insertion. -/
theorem Counted.search {key : Bytes} (buffer : h.inputBuffer = key) (room : h.noOfOccupied < noRows)
    (condition : key ≠ replicate h.keyBufWidth 0 ∨ (rowsOf insertions key).length ≤ 1) :
    ∃ (found : JoinerHashTable) (rows : List Nat),
      h.initCurrentRowToGet = some ((rowsOf insertions key).length, found) ∧
      getRows ((rowsOf insertions key).length + 1) found = some (rows.map some ++ [none]) ∧
      rows.Perm (rowsOf insertions key) := by
  obtain ⟨n, inside, before, found, free⟩ := counted.walk_ends room key
  have size := counted.size
  by_cases present : ∃ row, (key, row) ∈ insertions
  · have here := found present
    have same := counted.rowsOf_eq ((layout sized).row_lt key n) here
    have search := getLoop_found size buffer inside before here
    rw [counted.multiplier _ ((layout sized).row_lt key n) key here] at search
    refine ⟨_, replicate (rowsOf insertions key).length (sized.row key n),
      initCurrentRowToGet_eq size buffer search, ?_, Perm.of_eq same.symm⟩
    rcases condition with notZero | once
    · exact counted.getRows_eq buffer notZero here _
    · obtain ⟨row, mem⟩ := present
      have some' := length_pos_of_mem (mem_rowsOf.mpr mem)
      rw [show (rowsOf insertions key).length = 1 by omega]
      exact getRows_last h _
  · have search := getLoop_absent size buffer inside before (free present)
    have absent : rowsOf insertions key = [] :=
      eq_nil_iff_forall_not_mem.mpr fun row mem => present ⟨row, mem_rowsOf.mp mem⟩
    rw [absent]
    exact ⟨_, [], initCurrentRowToGet_eq size buffer search, getRows_none _ _, Perm.refl _⟩

theorem Counted.finds_iff (limit : h.rowsLimit < noRows) (within : h.noOfOccupied ≤ h.rowsLimit)
    (key : Bytes) :
    FindsInsertions h insertions key ↔
      key ≠ replicate h.keyBufWidth 0 ∨ (rowsOf insertions key).length ≤ 1 := by
  have enough := within.trans_lt limit
  have put := counted.putKey key
  constructor
  · intro finds
    by_contra fails
    push Not at fails
    exact counted.zero_fails enough fails.1 fails.2 finds
  · intro condition
    refine ⟨?_, put.search rfl enough condition⟩
    by_cases room : h.noOfOccupied < h.rowsLimit
    · obtain ⟨row, h', result, -⟩ := put.insert key rfl enough
      exact ⟨_, (findAndAddCurrentRow_eq key counted.size room).trans result⟩
    · exact ⟨_, if_pos (not_lt.mp room)⟩

end

end

/-- The table is a multiset of keys, unless it has no tuple columns and the all zero key was
inserted more than once. -/
theorem findsInsertions_iff {keySizes tupleSizes : List Nat} {maxTableSize memoryLimit : Nat}
    (made : initializeTable keySizes tupleSizes maxTableSize memoryLimit = some empty)
    (reached : Reached empty insertions h) (key : Bytes) :
    FindsInsertions h insertions key ↔
      tupleSizes ≠ [] ∨ key ≠ List.replicate empty.keyBufWidth 0 ∨
        (rowsOf insertions key).length ≤ 1 := by
  obtain ⟨fresh, columns⟩ := fresh_of_initializeTable made
  cases tupleSizes with
  | nil =>
    obtain ⟨counted, setup, within⟩ := reached.counted fresh columns
    rw [← rowsLimit_of_setup setup] at within
    rw [← keyBufWidth_of_setup setup, counted.finds_iff
      (by rw [rowsLimit_of_setup setup]; exact fresh.limit) within]
    exact (or_iff_right (not_not.mpr rfl)).symm
  | cons column columns' =>
    obtain ⟨chained, setup, within⟩ := reached.chained fresh columns
    rw [← rowsLimit_of_setup setup] at within
    refine iff_of_true ?_ (Or.inl (cons_ne_nil _ _))
    exact chained.findsInsertions (by rw [rowsLimit_of_setup setup]; exact fresh.limit) within key

/-- Two insertions of one key into a table with a tuple column. -/
theorem findsInsertions_tuples :
    ∃ empty h, initializeTable [4] [4] 2 0 = some empty ∧
      Reached empty [([1, 2, 3, 4], 56), ([1, 2, 3, 4], 19)] h ∧
      FindsInsertions h [([1, 2, 3, 4], 56), ([1, 2, 3, 4], 19)] [1, 2, 3, 4] := by
  obtain ⟨empty, made, width, ran⟩ : ∃ empty, initializeTable [4] [4] 2 0 = some empty ∧
      empty.keyBufWidth = 4 ∧ (addKeys empty [[1, 2, 3, 4], [1, 2, 3, 4]]).map Prod.fst =
        some [([1, 2, 3, 4], 56), ([1, 2, 3, 4], 19)] := ⟨_, rfl, rfl, by decide +kernel⟩
  obtain ⟨h, reached⟩ := exists_reached (by simp [width]) ran
  exact ⟨empty, h, made, reached,
    (findsInsertions_iff made reached _).mpr (Or.inl (cons_ne_nil _ _))⟩

/-- The zero key inserted twice into a table without tuple columns: a search returns an empty
row. -/
theorem zero_key_twice_finds_empty_row :
    ∃ empty h, initializeTable [4] [] 2 0 = some empty ∧
      Reached empty [([0, 0, 0, 0], 235), ([0, 0, 0, 0], 235)] h ∧
      ¬FindsInsertions h [([0, 0, 0, 0], 235), ([0, 0, 0, 0], 235)] [0, 0, 0, 0] := by
  obtain ⟨empty, made, width, ran⟩ : ∃ empty, initializeTable [4] [] 2 0 = some empty ∧
      empty.keyBufWidth = 4 ∧ (addKeys empty [[0, 0, 0, 0], [0, 0, 0, 0]]).map Prod.fst =
        some [([0, 0, 0, 0], 235), ([0, 0, 0, 0], 235)] := ⟨_, rfl, rfl, by decide +kernel⟩
  obtain ⟨h, reached⟩ := exists_reached (by simp [width]) ran
  obtain ⟨fresh, columns⟩ := fresh_of_initializeTable made
  obtain ⟨counted, setup, within⟩ := reached.counted fresh columns
  refine ⟨empty, h, made, reached, ?_⟩
  refine counted.zero_fails (within.trans_lt fresh.limit) ?_ (by decide)
  rw [keyBufWidth_of_setup setup, width]
  rfl

end

end JoinerHashTable

end Brighthouse.Core
