import Brighthouse.Core.SorterQuickSort
import Brighthouse.Library.BinaryHeap

/-!
# Top-N sort

Functional model of `SorterLimit` (`core/Sorter3.cpp`).  The rows kept form a heap with the
greatest key at its root.  The buffer is sorted and read as a whole, so the result is right if
it was filled; the rows that were never put are what the memory held before.
-/

set_option autoImplicit false

namespace Brighthouse.Core

open Library Library.Buffer Library.BinaryHeap Nat
open List hiding swap
open Function hiding swap

/-! ## Heap operations -/

section
variable {α : Type} (key : α → Bytes)

def siftUp (buf : Nat → α) (n : Nat) : Nat → α :=
  if 0 < n / 2 then
    if key (buf (n - 1)) ≤ key (buf (n / 2 - 1)) then buf
    else siftUp (swap buf (n / 2 - 1) (n - 1)) (n / 2)
  else buf
termination_by n

/-- The loop of `PutValue` for a full heap.  The row at position `hole`, which is node
`hole + 1`, is to be overwritten. -/
def siftDown (size : Nat) (b : α) (buf : Nat → α) (hole : Nat) : Nat → α :=
  let child := 2 * (hole + 1)
  if child ≤ size then
    let childGreater :=
      if child = size ∨ key (buf child) < key (buf (child - 1)) then child - 1 else child
    if key b < key (buf childGreater) then
      siftDown size b (Function.update buf hole (buf childGreater)) childGreater
    else Function.update buf hole b
  else Function.update buf hole b
termination_by size - hole
decreasing_by split <;> omega

end

structure SorterLimit (c : SorterSizes) where
  buf : Nat → c.Row
  noObj : Nat
  bufOutputPos : Nat
  alreadySorted : Bool

namespace SorterLimit

variable {c : SorterSizes}

/-- The constructor; `memory` is what `alloc` left in the buffer. -/
def construct (memory : Nat → c.Row) : SorterLimit c := ⟨memory, 0, 0, true⟩

def putValue (s : SorterLimit c) (b : c.Row) : Option (Bool × SorterLimit c) :=
  let s := { s with alreadySorted := false }
  if c.keyBytes = 0 then
    if s.noObj < c.size then
      some (true, { s with buf := Function.update s.buf s.noObj b, noObj := s.noObj + 1 })
    else some (true, s)
  else if s.noObj < c.size then
    let n := s.noObj + 1
    some (true, { s with buf := siftUp c.key (Function.update s.buf (n - 1) b) n, noObj := n })
  else if c.size = 0 then none
  else if c.key b < c.key (s.buf 0) then
    some (true, { s with buf := siftDown c.key c.size b s.buf 0 })
  else some (decide (c.key (s.buf 0) ≠ List.replicate c.keyBytes 0), s)

/-- `SorterOnePass::GetNextValue`; `buf_input_pos` is the end of the buffer. -/
def getNextValue (rand : Nat → Nat) (s : SorterLimit c) : Option (Option c.Row × SorterLimit c) :=
  let sorted := if s.alreadySorted then some s.buf else quickSort c.key c rand c.size s.buf
  match sorted with
  | none => none
  | some buf =>
    let s := { s with buf := buf, alreadySorted := true }
    if s.bufOutputPos = c.size then some (none, s)
    else some (some (s.buf s.bufOutputPos), { s with bufOutputPos := s.bufOutputPos + 1 })

def putAll : List c.Row → SorterLimit c → Option (SorterLimit c)
  | [], s => some s
  | row :: rows, s =>
    match s.putValue row with
    | none => none
    | some (_, s) => putAll rows s

def getAll (rand : Nat → Nat) : Nat → SorterLimit c → Option (List c.Row)
  | 0, _ => none
  | calls + 1, s =>
    match s.getNextValue rand with
    | none => none
    | some (none, _) => some []
    | some (some row, s) => (getAll rand calls s).map (row :: ·)

variable (memory : Nat → c.Row) (rand : Nat → Nat) (rows : List c.Row)

def result : Option (List c.Row) :=
  (putAll rows (construct memory)).bind (getAll rand (c.size + 1))

/-- The smallest rows come back in order, as many as the limit allows. -/
def ReturnsSmallest : Prop :=
  ∃ returned dropped, result memory rand rows = some returned ∧
    returned.length = min c.size rows.length ∧ returned.Pairwise (c.key · ≤ c.key ·) ∧
    rows.Perm (returned ++ dropped) ∧ ∀ kept ∈ returned, ∀ row ∈ dropped, c.key kept ≤ c.key row

/-- After an answer `false` rows with keys that are not smaller do not change the result. -/
def StopsRight : Prop :=
  ∀ earlier current later, rows = earlier ++ current :: later → ∀ s s',
    putAll earlier (construct memory) = some s → s.putValue current = some (false, s') →
    ∀ more : List c.Row, (∀ row ∈ more, c.key current ≤ c.key row) →
      result memory rand (earlier ++ current :: more) = result memory rand (earlier ++ [current])

end SorterLimit

/-! ## The heap -/

section
variable {α : Type} {key : α → Bytes} {k : Nat}

theorem siftUp_heap (n : Nat) :
    ∀ buf : Nat → α, RisingAt key k n buf → n ≤ k →
      HeapOn key k (siftUp key buf n) ∧ Rearranged 0 k buf (siftUp key buf n) := by
  induction n using Nat.strongRecOn with
  | ind n ih =>
    intro buf rising high
    rw [siftUp]
    split
    · split
      · rename_i stops
        exact ⟨rising.heapOn fun _ => stops, Rearranged.refl _ _ _⟩
      · rename_i greater
        obtain ⟨heap, arranged⟩ := ih (n / 2) (by omega) _
          (rising.step (by omega) high (not_le.mp greater)) (by omega)
        exact ⟨heap, (rearranged_swap (zero_le _) (zero_le _) (by omega)
          (by omega)).trans arranged⟩
    · exact ⟨rising.heapOn fun low => by omega, Rearranged.refl _ _ _⟩

/-- Moving a child into the hole is an exchange if the new row is thought to be in the hole. -/
theorem update_update_eq_swap (buf : Nat → α) (b : α) {hole child : Nat} (apart : child ≠ hole) :
    update (update buf hole (buf child)) child b =
      swap (update buf hole b) hole child := by
  funext i
  rw [swap]
  by_cases isChild : i = child
  · rw [isChild, update_self, if_neg apart, if_pos rfl, update_self]
  · rw [update_of_ne isChild]
    by_cases isHole : i = hole
    · rw [isHole, update_self, if_pos rfl, update_of_ne apart]
    · rw [if_neg isHole, if_neg isChild, update_of_ne isHole, update_of_ne isHole]

theorem siftDown_heap (b : α) (size : Nat) (left : Nat) :
    ∀ (buf : Nat → α) (hole : Nat), size - hole ≤ left → hole < size →
      SinkingAt key size (hole + 1) (update buf hole b) →
      HeapOn key size (siftDown key size b buf hole) ∧
        Rearranged 0 size (update buf hole b) (siftDown key size b buf hole) := by
  induction left with
  | zero =>
    intro buf hole short inside
    omega
  | succ left ih =>
    intro buf hole short inside sinking
    rw [siftDown]
    dsimp only
    split
    · rename_i hasChild
      obtain ⟨g, isGreater⟩ : ∃ g, (if 2 * (hole + 1) = size ∨
          key (buf (2 * (hole + 1))) < key (buf (2 * (hole + 1) - 1)) then 2 * (hole + 1) - 1
          else 2 * (hole + 1)) = g := ⟨_, rfl⟩
      have place : g = 2 * (hole + 1) - 1 ∨ g = 2 * (hole + 1) ∧ g < size := by
        rw [← isGreater]
        split
        · exact .inl rfl
        · rename_i neither
          exact .inr ⟨rfl, by omega⟩
      have still : ∀ i, i ≠ hole → update buf hole b i = buf i := fun i notHole =>
        update_of_ne notHole ..
      have greatest : ∀ m, m ≤ size → m / 2 = hole + 1 →
          key (update buf hole b (m - 1)) ≤ key (update buf hole b g) := by
        intro m highM child
        rw [still _ (by omega), still _ (by omega)]
        by_cases same : m - 1 = g
        · rw [same]
        · rw [← isGreater]
          by_cases left' : 2 * (hole + 1) = size ∨
              key (buf (2 * (hole + 1))) < key (buf (2 * (hole + 1) - 1))
          · rw [if_pos left'] at isGreater ⊢
            rcases left' with last | less
            · omega
            · rw [show m - 1 = 2 * (hole + 1) by omega]
              exact less.le
          · rw [if_neg left'] at isGreater ⊢
            rw [not_or] at left'
            rw [show m - 1 = 2 * (hole + 1) - 1 by omega]
            exact not_lt.mp left'.2
      rw [isGreater]
      split
      · rename_i less
        have apart : g ≠ hole := by omega
        have step := sinking.step (g := g + 1) (by omega) (by omega) (by omega)
          (by rw [Nat.add_sub_cancel, Nat.add_sub_cancel, update_self, still g apart]
              exact less)
          (by rw [Nat.add_sub_cancel]; exact greatest)
        rw [Nat.add_sub_cancel, Nat.add_sub_cancel, ← update_update_eq_swap buf b apart] at step
        obtain ⟨heap, arranged⟩ := ih (update buf hole (buf g)) g (by omega) (by omega)
          step
        refine ⟨heap, Rearranged.trans ?_ arranged⟩
        rw [update_update_eq_swap buf b apart]
        exact rearranged_swap (zero_le _) (zero_le _) inside (by omega)
      · rename_i stops
        refine ⟨sinking.heapOn fun m lowM highM child => ?_, Rearranged.refl _ _ _⟩
        refine (greatest m highM child).trans ?_
        rw [Nat.add_sub_cancel, update_self, still g (by omega)]
        exact not_lt.mp stops
    · refine ⟨sinking.heapOn fun m lowM highM child => ?_, Rearranged.refl _ _ _⟩
      omega

end

/-! ## The rows kept -/

namespace SorterLimit

variable {c : SorterSizes} {memory : Nat → c.Row} {rand : Nat → Nat} {s s' : SorterLimit c}
  {rows : List c.Row}

structure Keeps (s : SorterLimit c) (rows : List c.Row) : Prop where
  count : s.noObj = min c.size rows.length
  heap : HeapOn c.key s.noObj s.buf
  split : ∃ dropped, rows.Perm (elements s.buf s.noObj ++ dropped) ∧
    ∀ kept ∈ elements s.buf s.noObj, ∀ row ∈ dropped, c.key kept ≤ c.key row
  output : s.bufOutputPos = 0
  sorted : s.alreadySorted = true ↔ rows = []

theorem keeps_construct (memory : Nat → c.Row) : Keeps (construct memory) [] where
  count := (min_zero _).symm
  heap := fun n low high => absurd (show 2 ≤ 0 from low.trans high) (by decide)
  split := ⟨[], Perm.refl _, fun kept mem => absurd mem not_mem_nil⟩
  output := rfl
  sorted := iff_of_true rfl rfl

theorem key_of_zero (noKey : c.keyBytes = 0) (row : c.Row) : c.key row = [] := by
  rw [SorterSizes.key, noKey, take_zero]

variable {b : c.Row} {buf : Nat → c.Row}

section
variable (keeps : Keeps s rows)
include keeps

theorem Keeps.append (space : s.noObj < c.size) (heap : HeapOn c.key (s.noObj + 1) buf)
    (perm : (elements buf (s.noObj + 1)).Perm (elements s.buf s.noObj ++ [b])) :
    Keeps ⟨buf, s.noObj + 1, s.bufOutputPos, false⟩ (rows ++ [b]) := by
  obtain ⟨dropped, together, smaller⟩ := keeps.split
  have count := keeps.count
  have nothing : dropped = [] := by
    have lengths := together.length_eq
    rw [length_append, length_elements] at lengths
    exact eq_nil_of_length_eq_zero (by omega)
  subst nothing
  rw [append_nil] at together
  refine ⟨?_, heap, ⟨[], ?_, fun kept _ row mem => absurd mem not_mem_nil⟩, keeps.output,
    iff_of_false Bool.false_ne_true (by simp)⟩
  · rw [length_append, length_singleton]
    dsimp only
    omega
  · rw [append_nil]
    exact (together.append_right [b]).trans perm.symm

theorem Keeps.drop (full : c.size ≤ s.noObj)
    (greater : ∀ kept ∈ elements s.buf s.noObj, c.key kept ≤ c.key b) :
    Keeps { s with alreadySorted := false } (rows ++ [b]) := by
  obtain ⟨dropped, together, smaller⟩ := keeps.split
  have count := keeps.count
  refine ⟨?_, keeps.heap, ⟨b :: dropped, ?_, fun kept isKept row mem => ?_⟩, keeps.output,
    iff_of_false Bool.false_ne_true (by simp)⟩
  · rw [length_append]
    dsimp only
    omega
  · refine (together.append_right [b]).trans ?_
    rw [append_assoc]
    exact (perm_append_singleton b dropped).append_left _
  · rcases mem_cons.mp mem with rfl | old
    · exact greater kept isKept
    · exact smaller kept isKept row old

theorem Keeps.replace (full : s.noObj = c.size) (positive : 0 < c.size)
    (less : c.key b < c.key (s.buf 0)) (heap : HeapOn c.key c.size buf)
    (arranged : Rearranged 0 c.size (update s.buf 0 b) buf) :
    Keeps ⟨buf, s.noObj, s.bufOutputPos, false⟩ (rows ++ [b]) := by
  obtain ⟨dropped, together, smaller⟩ := keeps.split
  have count := keeps.count
  obtain ⟨rest, isRest⟩ : ∃ rest, c.size = rest + 1 := ⟨c.size - 1, by omega⟩
  have old : elements s.buf c.size = s.buf 0 :: elements (fun i => s.buf (i + 1)) rest := by
    rw [isRest, elements, range_succ_eq_map, map_cons, map_map]
    rfl
  have new : elements (update s.buf 0 b) c.size =
      b :: elements (fun i => s.buf (i + 1)) rest := by
    rw [isRest, elements, range_succ_eq_map, map_cons, map_map]
    refine congrArg (b :: ·) (map_congr_left fun i _ => ?_)
    exact update_of_ne (succ_ne_zero i) ..
  have perm := arranged.elements_perm
  rw [new] at perm
  rw [full] at together smaller
  have root : ∀ kept ∈ elements s.buf c.size, c.key kept ≤ c.key (s.buf 0) := by
    intro kept isKept
    obtain ⟨i, small, rfl⟩ := mem_elements.mp isKept
    exact keeps.heap.le_root (i + 1) (by omega) (by omega)
  rw [old] at together smaller root
  refine ⟨?_, by rw [full]; exact heap, ⟨s.buf 0 :: dropped, ?_, fun kept isKept row mem => ?_⟩,
    keeps.output, iff_of_false Bool.false_ne_true (by simp)⟩
  · rw [length_append]
    dsimp only
    omega
  · rw [full]
    refine (together.append_right [b]).trans (trans ?_ (perm.append_right _).symm)
    refine (perm_append_singleton b _).trans ?_
    exact (perm_middle.symm).cons b
  · rw [full] at isKept
    rcases mem_cons.mp (perm.mem_iff.mp isKept) with rfl | other
    · rcases mem_cons.mp mem with rfl | earlier
      · exact less.le
      · exact less.le.trans (smaller (s.buf 0) mem_cons_self row earlier)
    · rcases mem_cons.mp mem with rfl | earlier
      · exact root kept (mem_cons_of_mem _ other)
      · exact smaller kept (mem_cons_of_mem _ other) row earlier

theorem Keeps.putValue (buffer : c.size ≠ 0 ∨ c.keyBytes = 0) (b : c.Row) :
    ∃ more s', s.putValue b = some (more, s') ∧ Keeps s' (rows ++ [b]) := by
  have count := keeps.count
  rw [SorterLimit.putValue]
  by_cases noKey : c.keyBytes = 0
  · rw [if_pos noKey]
    by_cases space : s.noObj < c.size
    · rw [if_pos space]
      have heap (k : Nat) (buf : Nat → c.Row) : HeapOn c.key k buf := fun n _ _ => by
        rw [key_of_zero noKey, key_of_zero noKey]
      refine ⟨true, _, rfl, keeps.append space (heap _ _) ?_⟩
      rw [elements_update]
    · rw [if_neg space]
      refine ⟨true, _, rfl, keeps.drop (not_lt.mp space) fun kept _ => ?_⟩
      rw [key_of_zero noKey, key_of_zero noKey]
  · rw [if_neg noKey]
    by_cases space : s.noObj < c.size
    · rw [if_pos space]
      have heap : HeapOn c.key s.noObj (update s.buf s.noObj b) :=
        keeps.heap.congr fun i small => update_of_ne (by omega) ..
      obtain ⟨heap', arranged⟩ := siftUp_heap (s.noObj + 1) _ heap.risingAt (le_refl _)
      have perm := arranged.elements_perm
      rw [elements_update] at perm
      exact ⟨true, _, rfl, keeps.append space heap' perm⟩
    · have positive : c.size ≠ 0 := buffer.resolve_right noKey
      have full : s.noObj = c.size := by omega
      rw [if_neg space, if_neg positive]
      have heap := keeps.heap
      rw [full] at heap
      by_cases less : c.key b < c.key (s.buf 0)
      · rw [if_pos less]
        obtain ⟨heap', arranged⟩ := siftDown_heap b c.size c.size s.buf 0 (le_refl _) (by omega)
          (heap.sinkingAt b)
        exact ⟨true, _, rfl, keeps.replace full (by omega) less heap' arranged⟩
      · rw [if_neg less]
        refine ⟨_, _, rfl, keeps.drop (by omega) fun kept isKept => ?_⟩
        obtain ⟨i, small, rfl⟩ := mem_elements.mp isKept
        exact (keeps.heap.le_root (i + 1) (by omega) (by omega)).trans (not_lt.mp less)

end

theorem Keeps.putAll (buffer : c.size ≠ 0 ∨ c.keyBytes = 0) (more : List c.Row) :
    ∀ {s rows}, Keeps s rows →
      ∃ s', SorterLimit.putAll more s = some s' ∧ Keeps s' (rows ++ more) := by
  induction more with
  | nil =>
    intro s rows keeps
    rw [append_nil]
    exact ⟨s, rfl, keeps⟩
  | cons row more ih =>
    intro s rows keeps
    obtain ⟨flag, s₁, put, keeps₁⟩ := keeps.putValue buffer row
    obtain ⟨s', all, keeps'⟩ := ih keeps₁
    rw [append_assoc] at keeps'
    refine ⟨s', ?_, keeps'⟩
    rw [SorterLimit.putAll, put]
    exact all

/-! ## The rows returned -/

theorem getAll_sorted (rand : Nat → Nat) (left : Nat) :
    ∀ s : SorterLimit c, s.alreadySorted = true → s.bufOutputPos + left = c.size →
      getAll rand (left + 1) s =
        some (elements (fun i => s.buf (s.bufOutputPos + i)) left) := by
  induction left with
  | zero =>
    intro s sorted last
    rw [getAll, getNextValue, sorted, if_pos rfl]
    dsimp only
    rw [if_pos (by omega)]
    rfl
  | succ left ih =>
    intro s sorted last
    rw [getAll, getNextValue, sorted, if_pos rfl]
    dsimp only
    rw [if_neg (by omega)]
    dsimp only
    rw [ih _ rfl (by dsimp only; omega), elements, elements,
      range_succ_eq_map, map_cons, map_map]
    refine congrArg some (congrArg (_ :: ·) (map_congr_left fun i _ => ?_))
    exact congrArg s.buf (by dsimp only; omega)

theorem getAll_eq (rand : Nat → Nat) (start : s.bufOutputPos = 0) :
    getAll rand (c.size + 1) s =
      (if s.alreadySorted then some s.buf else quickSort c.key c rand c.size s.buf).map
        (elements · c.size) := by
  cases sorted : s.alreadySorted with
  | true =>
    rw [getAll_sorted rand c.size s sorted (by omega), start]
    simp
  | false =>
    cases quick : quickSort c.key c rand c.size s.buf with
    | none =>
      rw [getAll, getNextValue, sorted, quick]
      rfl
    | some buf =>
      have same : s.getNextValue rand =
          ({ s with buf := buf, alreadySorted := true } : SorterLimit c).getNextValue rand := by
        rw [getNextValue, sorted, quick]
        rfl
      have sortedAll := getAll_sorted rand c.size
        ({ s with buf := buf, alreadySorted := true } : SorterLimit c) rfl
        (by dsimp only; omega)
      rw [getAll] at sortedAll ⊢
      rw [same, sortedAll]
      rw [start]
      simp

theorem length_result (keeps : Keeps s rows) {returned : List c.Row}
    (all : getAll rand (c.size + 1) s = some returned) : returned.length = c.size := by
  rw [getAll_eq rand keeps.output, Option.map_eq_some_iff] at all
  obtain ⟨buf, -, rfl⟩ := all
  exact length_elements _ _

theorem Keeps.getAll (keeps : Keeps s rows) (rand : Nat → Nat) (full : s.noObj = c.size)
    (buffer : c.size ≠ 0 ∨ c.keyBytes = 0) :
    ∃ returned, SorterLimit.getAll rand (c.size + 1) s = some returned ∧
      returned.Pairwise (c.key · ≤ c.key ·) ∧ returned.Perm (elements s.buf c.size) := by
  rw [getAll_eq rand keeps.output]
  by_cases noKey : c.keyBytes = 0
  · have same : quickSort c.key c rand c.size s.buf = some s.buf := by
      rw [quickSort, if_pos noKey]
    have equal : (if s.alreadySorted then some s.buf else quickSort c.key c rand c.size s.buf) =
        some s.buf := by
      rw [same]
      exact ite_self _
    rw [equal]
    refine ⟨_, rfl, pairwise_of_forall fun row row' => ?_, Perm.refl _⟩
    rw [key_of_zero noKey, key_of_zero noKey]
  · have positive : c.size ≠ 0 := buffer.resolve_right noKey
    have unsorted : ¬s.alreadySorted = true := by
      rw [keeps.sorted]
      intro nothing
      have count := keeps.count
      rw [nothing, length_nil] at count
      omega
    obtain ⟨buf, quick, arranged, sorted⟩ := @quickSort_sorts _ c.key c.size c
      (Nat.pos_of_ne_zero positive) (le_refl _) noKey rand s.buf
    rw [if_neg unsorted, quick]
    exact ⟨_, rfl, sorted.pairwise, arranged.elements_perm⟩

/-- The smallest rows are returned exactly if the buffer was filled; a buffer without rows must
not be asked to compare. -/
theorem returnsSmallest_iff (memory : Nat → c.Row) (rand : Nat → Nat) (rows : List c.Row) :
    ReturnsSmallest memory rand rows ↔
      c.size ≤ rows.length ∧ (c.size ≠ 0 ∨ c.keyBytes = 0 ∨ rows = []) := by
  by_cases buffer : c.size ≠ 0 ∨ c.keyBytes = 0
  · obtain ⟨s, put, keeps⟩ := Keeps.putAll buffer rows (keeps_construct memory)
    rw [nil_append] at keeps
    have count := keeps.count
    have isResult : result memory rand rows = getAll rand (c.size + 1) s := by
      rw [result, put, Option.bind_some]
    constructor
    · rintro ⟨returned, dropped, all, length, -⟩
      rw [isResult] at all
      have every := length_result keeps all
      exact ⟨by omega, buffer.imp_right Or.inl⟩
    · rintro ⟨enough, -⟩
      have full : s.noObj = c.size := by omega
      obtain ⟨returned, all, sorted, perm⟩ := keeps.getAll rand full buffer
      obtain ⟨dropped, together, smaller⟩ := keeps.split
      rw [full] at together smaller
      refine ⟨returned, dropped, isResult.trans all, ?_, sorted,
        together.trans (perm.symm.append_right _), fun kept isKept row isDropped => ?_⟩
      · rw [perm.length_eq, length_elements]
        omega
      · exact smaller kept (perm.mem_iff.mp isKept) row isDropped
  · rw [not_or, not_not] at buffer
    cases rows with
    | nil =>
      refine iff_of_true ⟨[], [], ?_, (min_zero _).symm, Pairwise.nil, Perm.refl _,
        fun kept mem => absurd mem not_mem_nil⟩
        ⟨by rw [buffer.1]; exact zero_le _, .inr (.inr rfl)⟩
      have all := @getAll_eq c (construct memory) rand rfl
      rw [result, putAll, Option.bind_some, all]
      rw [buffer.1]
      rfl
    | cons row rows =>
      have fails : result memory rand (row :: rows) = none := by
        rw [result, putAll, putValue]
        rw [if_neg buffer.2, if_neg (by rw [buffer.1]; exact not_lt_zero _), if_pos buffer.1]
        rfl
      refine iff_of_false ?_ ?_
      · rintro ⟨returned, dropped, all, -⟩
        rw [fails] at all
        cases all
      · rintro ⟨-, some' | none' | none'⟩
        · exact some' buffer.1
        · exact buffer.2 none'
        · cases none'

/-! ## Stopping -/

theorem zero_le_key (row : c.Row) : replicate c.keyBytes 0 ≤ c.key row := by
  have length : (c.key row).length = c.keyBytes := by
    rw [SorterSizes.key, length_take, row.property]
    exact min_eq_left c.key_le
  rw [← length]
  generalize c.key row = bytes
  induction bytes with
  | nil => exact le_refl _
  | cons byte bytes ih =>
    rw [length_cons, replicate_succ, Bytes.cons_le_cons_iff]
    rcases eq_or_lt_of_le (Fin.zero_le byte) with same | less
    · exact .inr ⟨same, ih⟩
    · exact .inl less

structure Finished (s : SorterLimit c) : Prop where
  keyed : c.keyBytes ≠ 0
  full : ¬s.noObj < c.size
  buffer : c.size ≠ 0
  zero : c.key (s.buf 0) = List.replicate c.keyBytes 0

theorem finished_of_false (stops : s.putValue b = some (false, s')) :
    s' = { s with alreadySorted := false } ∧ Finished s' := by
  rw [putValue] at stops
  split at stops
  · split at stops <;> cases stops
  · rename_i keyed
    split at stops
    · cases stops
    · rename_i full
      split at stops
      · cases stops
      · rename_i buffer
        split at stops
        · cases stops
        · injection stops with stops
          injection stops with flag same
          subst same
          exact ⟨rfl, keyed, full, buffer, not_not.mp (of_decide_eq_false flag)⟩

theorem Finished.putValue (finished : Finished s) (b : c.Row) :
    s.putValue b = some (false, { s with alreadySorted := false }) := by
  have notLess : ¬c.key b < c.key (s.buf 0) := by
    rw [finished.zero]
    exact not_lt.mpr (zero_le_key b)
  have still : (decide (c.key (s.buf 0) ≠ replicate c.keyBytes 0)) = false :=
    decide_eq_false (not_not.mpr finished.zero)
  rw [SorterLimit.putValue]
  rw [if_neg finished.keyed, if_neg finished.full, if_neg finished.buffer, if_neg notLess, still]

theorem Finished.putAll (more : List c.Row) :
    ∀ {s : SorterLimit c}, Finished s → s.alreadySorted = false →
      SorterLimit.putAll more s = some s := by
  induction more with
  | nil => exact fun _ _ => rfl
  | cons row more ih =>
    intro s finished unsorted
    have same : ({ s with alreadySorted := false } : SorterLimit c) = s := by
      rw [← unsorted]
    rw [SorterLimit.putAll, finished.putValue row, same]
    exact ih finished unsorted

theorem putAll_append (rows more : List c.Row) :
    ∀ s : SorterLimit c, putAll (rows ++ more) s = (putAll rows s).bind (putAll more) := by
  induction rows with
  | nil => exact fun s => rfl
  | cons row rows ih =>
    intro s
    rw [cons_append, putAll, putAll]
    cases s.putValue row with
    | none => rfl
    | some result => exact ih result.2

theorem stopsRight (memory : Nat → c.Row) (rand : Nat → Nat) (rows : List c.Row) :
    StopsRight memory rand rows := by
  intro earlier current later _ s s' put stops more _
  obtain ⟨same, finished⟩ := finished_of_false stops
  have unsorted : s'.alreadySorted = false := by rw [same]
  have last : ∀ more', putAll (current :: more') s = putAll more' s' := by
    intro more'
    rw [putAll, stops]
  rw [result, result, putAll_append, putAll_append, put, Option.bind_some, Option.bind_some, last,
    last, Finished.putAll more finished unsorted]
  rfl

/-- The top-N sort is exact under exactly the condition that the buffer was filled. -/
theorem topN_exact_iff (memory : Nat → c.Row) (rand : Nat → Nat) (rows : List c.Row) :
    ReturnsSmallest memory rand rows ∧ StopsRight memory rand rows ↔
      c.size ≤ rows.length ∧ (c.size ≠ 0 ∨ c.keyBytes = 0 ∨ rows = []) := by
  rw [and_iff_left (stopsRight memory rand rows)]
  exact returnsSmallest_iff memory rand rows

def limitTwo : SorterSizes := ⟨2, 1, 1, by decide, by decide, by decide⟩

def byteRow (b : Byte) : limitTwo.Row := ⟨[b], rfl⟩

/-- One row is put, but two come back: the second one was never put. -/
theorem limit_returns_memory :
    result (fun _ => byteRow 7) (fun _ => 0) [byteRow 5] = some [byteRow 5, byteRow 7] ∧
      ¬ReturnsSmallest (fun _ => byteRow 7) (fun _ => 0) [byteRow 5] := by
  refine ⟨by decide +kernel, fun holds => ?_⟩
  have condition := (returnsSmallest_iff _ _ _).mp holds
  exact absurd condition.1 (by decide)

end SorterLimit

end Brighthouse.Core
