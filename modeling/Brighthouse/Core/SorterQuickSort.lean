import Brighthouse.Core.Sorter

/-!
# QuickSort sorts the buffer

Bubble sort puts the greatest row of a part to its end in every pass.  A quicksort turn
divides a part at the middle value and leaves both sides to bubble sort or to the queue; the
rows are in order whenever no part in the queue holds them both.  The queue is a cyclic
buffer of pairs which is large enough for all parts that wait.
-/

set_option autoImplicit false

namespace Brighthouse.Core

open Library Library.Buffer Option Function
open List hiding swap

section
variable {α : Type} {key : α → Bytes} {buf : Nat → α}

/-! ## BubbleSort -/

theorem bubblePass_rearranged (left : Nat) :
    ∀ i buf switched,
      Rearranged i (i + left + 1) buf (bubblePass key left i buf switched).1 := by
  induction left with
  | zero => exact fun i buf _ => Rearranged.refl i (i + 0 + 1) buf
  | succ left ih =>
    intro i buf switched
    rw [bubblePass]
    split
    · exact (rearranged_swap (le_refl i) (Nat.le_succ i) (by omega) (by omega)).trans
        ((ih (i + 1) _ true).widen (Nat.le_succ i) (by omega))
    · exact (ih (i + 1) buf switched).widen (Nat.le_succ i) (by omega)

theorem bubblePass_still (left : Nat) :
    ∀ i buf switched,
      (bubblePass key left i buf switched).2 = false →
      switched = false ∧ (bubblePass key left i buf switched).1 = buf ∧
        ∀ a, i ≤ a → a < i + left → key (buf a) ≤ key (buf (a + 1)) := by
  induction left with
  | zero => exact fun i buf switched still => ⟨still, rfl, fun a low high => by omega⟩
  | succ left ih =>
    intro i buf switched still
    rw [bubblePass] at still ⊢
    split at still
    · cases (ih _ _ _ still).1
    · rename_i inOrder
      obtain ⟨same, sameBuf, order⟩ := ih _ _ _ still
      rw [if_neg inOrder]
      refine ⟨same, sameBuf, fun a low high => ?_⟩
      by_cases here : a = i
      · rw [here]
        exact not_lt.mp inOrder
      · exact order a (by omega) (by omega)

theorem bubblePass_inOrder (left : Nat) :
    ∀ (i : Nat), (∀ a, i ≤ a → a < i + left → key (buf a) ≤ key (buf (a + 1))) →
      bubblePass key left i buf false = (buf, false) := by
  induction left with
  | zero => exact fun i _ => rfl
  | succ left ih =>
    intro i order
    rw [bubblePass, if_neg (not_lt.mpr (order i (le_refl i) (by omega)))]
    exact ih (i + 1) fun a low high => order a (by omega) (by omega)

variable (key) in
/-- The rows from `m` to `s2` have found their place among those from `s1` to `s2`. -/
def Settled (s1 m s2 : Nat) (buf : Nat → α) : Prop :=
  ∀ a b, s1 ≤ a → a ≤ b → m ≤ b → b ≤ s2 → key (buf a) ≤ key (buf b)

variable {midVal s1 stop : Nat}

theorem bubblePass_settles {m s2 : Nat} (left : Nat) :
    ∀ i buf switched, i + left = s2 → s1 ≤ i → m ≤ s2 + 1 →
      (∀ a, s1 ≤ a → a ≤ i → key (buf a) ≤ key (buf i)) → Settled key s1 m s2 buf →
      (m ≤ i + 1 → Settled key s1 (m - 1) s2 buf) →
      Settled key s1 (m - 1) s2 (bubblePass key left i buf switched).1 := by
  induction left with
  | zero =>
    intro i buf switched last _ high _ _ passed
    exact passed (by omega)
  | succ left ih =>
    intro i buf switched last low high greatest settled passed
    rw [bubblePass]
    split
    · rename_i less
      have before : i + 1 < m := by
        by_contra reached
        exact absurd (settled i (i + 1) low (Nat.le_succ i) (by omega) (by omega))
          (not_le.mpr less)
      have greatest' : ∀ a, s1 ≤ a → a ≤ i + 1 →
          key (swap buf i (i + 1) a) ≤ key (swap buf i (i + 1) (i + 1)) := by
        intro a lowA highA
        rw [swap_right]
        by_cases isFirst : a = i
        · rw [isFirst, swap_left]
          exact less.le
        · by_cases isSecond : a = i + 1
          · rw [isSecond, swap_right]
          · rw [swap_other isFirst isSecond]
            exact greatest a lowA (by omega)
      have settled' : Settled key s1 m s2 (swap buf i (i + 1)) := by
        intro a b lowA le lowB highB
        rw [swap_other (k := b) (by omega) (by omega)]
        by_cases isFirst : a = i
        · rw [isFirst, swap_left]
          exact settled (i + 1) b (by omega) (by omega) lowB highB
        · by_cases isSecond : a = i + 1
          · rw [isSecond, swap_right]
            exact settled i b low (by omega) lowB highB
          · rw [swap_other isFirst isSecond]
            exact settled a b lowA le lowB highB
      refine ih (i + 1) _ true (by omega) (by omega) high greatest' settled' fun reached => ?_
      intro a b lowA le lowB highB
      by_cases here : b = i + 1
      · rw [here]
        exact greatest' a lowA (by omega)
      · exact settled' a b lowA le (by omega) highB
    · rename_i inOrder
      have greatest' : ∀ a, s1 ≤ a → a ≤ i + 1 → key (buf a) ≤ key (buf (i + 1)) := by
        intro a lowA highA
        by_cases here : a = i + 1
        · rw [here]
        · exact (greatest a lowA (by omega)).trans (not_lt.mp inOrder)
      refine ih (i + 1) buf switched (by omega) (by omega) high greatest' settled
        fun reached => ?_
      by_cases earlier : m ≤ i + 1
      · exact passed earlier
      · intro a b lowA le lowB highB
        by_cases here : b = i + 1
        · rw [here]
          exact greatest' a lowA (by omega)
        · exact settled a b lowA le (by omega) highB

theorem bubbleLoop_sorts {s2 : Nat} (le : s1 ≤ s2) (turns : Nat) :
    ∀ (m : Nat) (buf : Nat → α), s1 < m → m ≤ s1 + turns → m ≤ s2 + 1 →
      Settled key s1 m s2 buf →
      ∃ buf', bubbleLoop key s1 s2 turns buf = some buf' ∧ Rearranged s1 (s2 + 1) buf buf' ∧
        SortedOn key s1 (s2 + 1) buf' := by
  induction turns with
  | zero =>
    intro m buf low high
    omega
  | succ turns ih =>
    intro m buf low high small settled
    have arranged := @bubblePass_rearranged _ key (s2 - s1) s1 buf false
    rw [show s1 + (s2 - s1) + 1 = s2 + 1 by omega] at arranged
    rw [bubbleLoop]
    dsimp only
    cases switched : (bubblePass key (s2 - s1) s1 buf false).2 with
    | false =>
      obtain ⟨-, same, order⟩ := bubblePass_still (s2 - s1) s1 buf false switched
      rw [same]
      exact ⟨buf, rfl, Rearranged.refl _ _ _, sortedOn_of_neighbours fun a lowA highA =>
        order a lowA (by omega)⟩
    | true =>
      have unsettled : s1 + 1 < m := by
        by_contra done
        have still := @bubblePass_inOrder _ key buf (s2 - s1) s1 fun a lowA highA =>
          settled a (a + 1) lowA (Nat.le_succ a) (by omega) (by omega)
        rw [still] at switched
        cases switched
      have settled' := @bubblePass_settles _ key s1 m s2 (s2 - s1) s1 buf false (by omega)
        (le_refl s1) small (fun a lowA highA => by rw [le_antisymm highA lowA]) settled
        (fun reached => by omega)
      obtain ⟨buf', result, arranged', sorted⟩ := ih (m - 1) _ (by omega) (by omega) (by omega)
        settled'
      exact ⟨buf', result, arranged.trans arranged', sorted⟩

theorem bubbleSort_sorts {s2 : Nat} (le : s1 ≤ s2) (buf : Nat → α) :
    ∃ buf', bubbleSort key s1 s2 buf = some buf' ∧ Rearranged s1 (s2 + 1) buf buf' ∧
      SortedOn key s1 (s2 + 1) buf' :=
  bubbleLoop_sorts le (s2 - s1 + 1) (s2 + 1) buf (by omega) (by omega) (Nat.le_refl _)
    fun a b _ _ low high => by omega

/-! ## Dividing a part -/

theorem scanUp_finds (left : Nat) :
    ∀ i, i ≤ stop → stop < i + left → ¬key (buf stop) < key (buf midVal) →
      ∃ i', scanUp key buf midVal left i = some i' ∧ i ≤ i' ∧ i' ≤ stop ∧
        ¬key (buf i') < key (buf midVal) ∧
        ∀ a, i ≤ a → a < i' → key (buf a) < key (buf midVal) := by
  induction left with
  | zero =>
    intro i low high
    omega
  | succ left ih =>
    intro i low high stops
    rw [scanUp]
    split
    · rename_i less
      have notHere : i ≠ stop := by
        rintro rfl
        exact stops less
      obtain ⟨i', found, lower, upper, reached, passed⟩ := ih (i + 1) (by omega) (by omega) stops
      refine ⟨i', found, by omega, upper, reached, fun a lowA highA => ?_⟩
      by_cases here : a = i
      · rw [here]
        exact less
      · exact passed a (by omega) highA
    · rename_i reached
      exact ⟨i, rfl, le_refl i, low, reached, fun a lowA highA => by omega⟩

theorem scanDown_finds (j : Nat) :
    stop ≤ j → ¬key (buf midVal) < key (buf stop) →
      ∃ j', scanDown key buf midVal j = some j' ∧ stop ≤ j' ∧ j' ≤ j ∧
        ¬key (buf midVal) < key (buf j') ∧
        ∀ a, j' < a → a ≤ j → key (buf midVal) < key (buf a) := by
  induction j with
  | zero =>
    intro low stops
    obtain rfl := Nat.eq_zero_of_le_zero low
    rw [scanDown, if_neg stops]
    exact ⟨0, rfl, le_refl 0, le_refl 0, stops, fun a lowA highA => by omega⟩
  | succ j ih =>
    intro low stops
    rw [scanDown]
    split
    · rename_i greater
      have notHere : j + 1 ≠ stop := by
        rintro rfl
        exact stops greater
      obtain ⟨j', found, lower, upper, reached, passed⟩ := ih (by omega) stops
      refine ⟨j', found, lower, by omega, reached, fun a lowA highA => ?_⟩
      by_cases here : a = j + 1
      · rw [here]
        exact greater
      · exact passed a lowA (by omega)
    · rename_i reached
      exact ⟨j + 1, rfl, low, le_refl _, reached, fun a lowA highA => by omega⟩

theorem exchange_eq (buf : Nat → α) (midVal i j : Nat) :
    ((exchange buf midVal i j).1 = swap buf i j) ∧
      (exchange buf midVal i j).1 (exchange buf midVal i j).2 = buf midVal := by
  rw [exchange]
  by_cases same : i = j
  · rw [if_neg (by omega), same]
    refine ⟨funext fun k => ?_, rfl⟩
    rw [Buffer.swap_eq, Equiv.swap_self]
    rfl
  · rw [if_pos same]
    refine ⟨rfl, ?_⟩
    dsimp only
    by_cases first : i = midVal
    · rw [if_pos first, swap_right, first]
    · rw [if_neg first]
      by_cases second : j = midVal
      · rw [if_pos second, swap_left, second]
      · rw [if_neg second, swap_other (by omega) (by omega)]

variable (key) in
/-- The state of the loop that divides the rows from `s1` to `s2` at the key `pivot`. -/
structure Dividing (s1 s2 : Nat) (pivot : Bytes) (buf : Nat → α) (midVal i jEnd : Nat) : Prop where
  middle : key (buf midVal) = pivot
  low : s1 ≤ i
  high : jEnd ≤ s2 + 1
  below : ∀ a, s1 ≤ a → a < i → key (buf a) ≤ pivot
  above : ∀ a, jEnd ≤ a → a ≤ s2 → pivot ≤ key (buf a)
  up : ∃ a, i ≤ a ∧ a ≤ s2 ∧ pivot ≤ key (buf a)
  down : ∃ a, s1 ≤ a ∧ a < jEnd ∧ key (buf a) ≤ pivot
  /-- the first turn meets the middle value, later turns have left the ends -/
  moved : s1 < i ∧ jEnd ≤ s2 ∨ i ≤ midVal ∧ midVal < jEnd

variable (key) in
/-- What the loop leaves: rows before `i` are not greater, rows from `jEnd` on not smaller
than the middle value. -/
structure Divided (s1 s2 : Nat) (pivot : Bytes) (buf : Nat → α) (i jEnd : Nat) : Prop where
  meet : jEnd ≤ i
  low : s1 < i
  lowEnd : s1 ≤ jEnd
  high : jEnd ≤ s2
  highEnd : i ≤ s2 + 1
  below : ∀ a, s1 ≤ a → a < i → key (buf a) ≤ pivot
  above : ∀ a, jEnd ≤ a → a ≤ s2 → pivot ≤ key (buf a)

variable {s1 s2 midVal i jEnd rows : Nat} {pivot : Bytes}

theorem Dividing.scans (dividing : Dividing key s1 s2 pivot buf midVal i jEnd)
    (inside : s2 < rows) :
    ∃ i' j', scanUp key buf midVal (rows - i) i = some i' ∧
      scanDown key buf midVal (jEnd - 1) = some j' ∧ i ≤ i' ∧ i' ≤ s2 ∧ s1 ≤ j' ∧ j' < jEnd ∧
      (∀ a, s1 ≤ a → a < i' → key (buf a) ≤ pivot) ∧ pivot ≤ key (buf i') ∧
      (∀ a, j' < a → a ≤ s2 → pivot ≤ key (buf a)) ∧ key (buf j') ≤ pivot := by
  obtain ⟨stop, lowUp, highUp, stopsUp⟩ := dividing.up
  obtain ⟨stop', lowDown, highDown, stopsDown⟩ := dividing.down
  rw [← dividing.middle] at stopsUp stopsDown
  obtain ⟨i', foundUp, lower, upper, reached, passed⟩ := @scanUp_finds _ key buf midVal stop
    (rows - i) i lowUp (by omega) (not_lt.mpr stopsUp)
  obtain ⟨j', foundDown, lower', upper', reached', passed'⟩ := @scanDown_finds _ key buf midVal
    stop' (jEnd - 1) (by omega) (not_lt.mpr stopsDown)
  rw [dividing.middle] at reached reached' passed passed'
  refine ⟨i', j', foundUp, foundDown, lower, by omega, by omega, by omega, ?_, not_lt.mp reached,
    ?_, not_lt.mp reached'⟩
  · intro a lowA highA
    by_cases before : a < i
    · exact dividing.below a lowA before
    · exact (passed a (by omega) highA).le
  · intro a lowA highA
    by_cases behind : jEnd ≤ a
    · exact dividing.above a behind highA
    · exact (passed' a lowA (by omega)).le

theorem partitionLoop_divides (inside : s2 < rows) (turns : Nat) :
    ∀ (buf : Nat → α) (midVal i jEnd : Nat), jEnd ≤ i + turns → i < jEnd →
      Dividing key s1 s2 pivot buf midVal i jEnd →
      ∃ buf' i' jEnd', partitionLoop key rows turns buf midVal i jEnd = some (buf', i', jEnd') ∧
        Rearranged s1 (s2 + 1) buf buf' ∧ Divided key s1 s2 pivot buf' i' jEnd' := by
  induction turns with
  | zero =>
    intro buf midVal i jEnd short open'
    omega
  | succ turns ih =>
    intro buf midVal i jEnd short _ dividing
    obtain ⟨i', j', foundUp, foundDown, lower, upper, lower', upper', below, atI, above, atJ⟩ :=
      dividing.scans inside
    have low := dividing.low
    have high := dividing.high
    rw [partitionLoop, foundUp, bind_eq_bind, bind_some, foundDown, bind_some]
    by_cases ordered : i' ≤ j'
    · obtain ⟨isSwap, followed⟩ := exchange_eq buf midVal i' j'
      obtain ⟨⟨buf₁, midVal₁⟩, isExchange⟩ : ∃ result, exchange buf midVal i' j' = result :=
        ⟨_, rfl⟩
      rw [isExchange] at isSwap followed
      dsimp only at isSwap followed
      have arranged : Rearranged s1 (s2 + 1) buf buf₁ := by
        rw [isSwap]
        exact rearranged_swap (by omega) (by omega) (by omega) (by omega)
      have below₁ : ∀ a, s1 ≤ a → a < i' + 1 → key (buf₁ a) ≤ pivot := by
        intro a lowA highA
        by_cases here : a = i'
        · rw [here, isSwap, swap_left]
          exact atJ
        · rw [isSwap, swap_other here (by omega)]
          exact below a lowA (by omega)
      have above₁ : ∀ a, j' ≤ a → a ≤ s2 → pivot ≤ key (buf₁ a) := by
        intro a lowA highA
        by_cases here : a = j'
        · rw [here, isSwap, swap_right]
          exact atI
        · rw [isSwap, swap_other (by omega) here]
          exact above a (by omega) highA
      rw [if_pos ordered, isExchange]
      dsimp only
      by_cases more : i' + 1 < j'
      · have next : Dividing key s1 s2 pivot buf₁ midVal₁ (i' + 1) j' := by
          refine ⟨?_, by omega, by omega, below₁, above₁, ⟨j', by omega, by omega, ?_⟩,
            ⟨i', by omega, by omega, ?_⟩, .inl ⟨by omega, by omega⟩⟩
          · rw [followed]
            exact dividing.middle
          · exact above₁ j' (le_refl _) (by omega)
          · exact below₁ i' (by omega) (Nat.lt_succ_self _)
        obtain ⟨buf', i'', jEnd'', result, arranged', divided⟩ := ih buf₁ midVal₁ (i' + 1) j'
          (by omega) more next
        rw [if_pos more]
        exact ⟨buf', i'', jEnd'', result, arranged.trans arranged', divided⟩
      · rw [if_neg more]
        exact ⟨buf₁, i' + 1, j', rfl, arranged, by omega, by omega, by omega, by omega, by omega,
          below₁, above₁⟩
    · rw [if_neg ordered]
      exact ⟨buf, i', j' + 1, rfl, Rearranged.refl _ _ _, by omega, by omega, by omega, by omega,
        by omega, below, fun a lowA highA => above a (by omega) highA⟩

theorem partitionLoop_start (inside : s2 < rows) (low : s1 ≤ midVal) (high : midVal ≤ s2)
    (buf : Nat → α) :
    ∃ buf' i jEnd, partitionLoop key rows (s2 - s1 + 1) buf midVal s1 (s2 + 1) =
        some (buf', i, jEnd) ∧
      Rearranged s1 (s2 + 1) buf buf' ∧ Divided key s1 s2 (key (buf midVal)) buf' i jEnd := by
  refine partitionLoop_divides inside (s2 - s1 + 1) buf midVal s1 (s2 + 1) (by omega) (by omega) ?_
  exact ⟨rfl, le_refl _, le_refl _, fun a lowA highA => by omega,
    fun a lowA highA => by omega, ⟨midVal, low, high, le_refl _⟩,
    ⟨midVal, low, by omega, le_refl _⟩, .inr ⟨low, by omega⟩⟩

end

/-! ## The queue -/

section
variable {size : Nat} {q : BoundQueue} {pending : List (Nat × Nat)}

/-- The pairs that wait stand one after the other in the cyclic buffer; `turn` is the number of
the first one. -/
structure Holds (size : Nat) (q : BoundQueue) (turn : Nat) (pending : List (Nat × Nat)) : Prop where
  read : q.queueRead = 2 * turn % size
  write : q.queueWrite = 2 * (turn + pending.length) % size
  bounds : ∀ k part, pending[k]? = some part →
    q.bounds (2 * (turn + k) % size) = part.1 ∧ q.bounds (2 * (turn + k) % size + 1) = part.2

variable {a b turn : Nat}

theorem eq_of_mod_eq (le : a ≤ b) (near : b - a < size) (same : a % size = b % size) : a = b := by
  have zero := Nat.sub_mod_eq_zero_of_mod_eq same.symm
  rw [Nat.mod_eq_of_lt near] at zero
  omega

theorem mod_succ (same : a % size + 1 = b % size) : (a + 1) % size = b % size := by
  rcases eq_zero_or_pos size with rfl | positive
  · rw [Nat.mod_zero] at same ⊢
    exact same
  · have small : b % size < size := Nat.mod_lt _ positive
    rw [Nat.add_mod, ← same, Nat.mod_eq_of_lt (show 1 < size by omega),
      Nat.mod_eq_of_lt (by omega)]

theorem Holds.empty_iff (holds : Holds size q turn pending) (room : 2 * pending.length < size) :
    q.queueRead = q.queueWrite ↔ pending = [] := by
  rw [holds.read, holds.write]
  constructor
  · intro same
    have equal := eq_of_mod_eq (by omega) (by omega) same
    exact eq_nil_of_length_eq_zero (by omega)
  · rintro rfl
    rfl

theorem Holds.pop {part : Nat × Nat} (holds : Holds size q turn (part :: pending)) :
    q.bounds q.queueRead = part.1 ∧ q.bounds (q.queueRead + 1) = part.2 ∧
      Holds size { q with queueRead := (q.queueRead + 2) % size } (turn + 1) pending := by
  obtain ⟨first, second⟩ := holds.bounds 0 part rfl
  have isRead : 2 * (turn + 0) % size = q.queueRead := holds.read.symm
  rw [isRead] at first second
  refine ⟨first, second, ?_, ?_, fun k other isOther => ?_⟩
  · rw [holds.read, Nat.mod_add_mod, Nat.mul_succ]
  · rw [holds.write, length_cons]
    congr 1
    omega
  · have there := holds.bounds (k + 1) other isOther
    rwa [show turn + (k + 1) = turn + 1 + k by omega] at there

theorem Holds.push (holds : Holds size q turn pending) (large : 2 < size)
    (room : 2 * pending.length + 1 < size) (part : Nat × Nat) :
    Holds size (q.push size part.1 part.2) turn (pending ++ [part]) := by
  have small : q.queueWrite < size := by
    rw [holds.write]
    exact Nat.mod_lt _ (by omega)
  refine ⟨holds.read, ?_, fun k other isOther => ?_⟩
  · rw [BoundQueue.push, length_append, length_singleton]
    have sum : 2 * (turn + (pending.length + 1)) = 2 * (turn + pending.length) + 2 := by omega
    rw [sum, Nat.add_mod, ← holds.write, Nat.mod_eq_of_lt (show 2 < size by omega)]
    split
    · rename_i wraps
      rw [Nat.mod_eq_sub_mod wraps, Nat.mod_eq_of_lt (by omega)]
    · rw [Nat.mod_eq_of_lt (by omega)]
  · have inside := (List.getElem?_eq_some_iff.mp isOther).1
    rw [length_append, length_singleton] at inside
    rw [BoundQueue.push]
    dsimp only
    by_cases last : k = pending.length
    · rw [last, getElem?_append_right (le_refl _), Nat.sub_self] at isOther
      cases isOther
      rw [last, ← holds.write, update_of_ne (by omega), update_self,
        update_self]
      exact ⟨rfl, rfl⟩
    · rw [getElem?_append_left (by omega)] at isOther
      obtain ⟨first, second⟩ := holds.bounds k other isOther
      -- the new pair is at a distance of at least two from each of the others
      have apart : 2 * (turn + k) % size ≠ q.queueWrite := by
        rw [holds.write]
        intro same
        have := eq_of_mod_eq (by omega) (by omega) same
        omega
      have apartAfter : 2 * (turn + k) % size ≠ q.queueWrite + 1 := by
        rw [holds.write]
        intro same
        have := eq_of_mod_eq (by omega) (by omega) (mod_succ same.symm).symm
        omega
      have apartBefore : 2 * (turn + k) % size + 1 ≠ q.queueWrite := by
        rw [holds.write]
        intro same
        have := eq_of_mod_eq (by omega) (by omega) (mod_succ same)
        omega
      rw [update_of_ne apartAfter, update_of_ne apart,
        update_of_ne (by omega), update_of_ne apartBefore]
      exact ⟨first, second⟩

end

/-! ## Parts that wait -/

section
variable {α : Type} (key : α → Bytes) (rows : Nat)

/-- Parts of the buffer, given by their first and last rows, have no row in common. -/
structure Apart (parts : List (Nat × Nat)) : Prop where
  apart : parts.Pairwise fun part other => part.2 < other.1 ∨ other.2 < part.1
  inside : ∀ part ∈ parts, part.2 < rows

/-- Rows are in order, except for those in one part that is still to be sorted. -/
structure Sorting (buf : Nat → α) (parts : List (Nat × Nat)) : Prop extends Apart rows parts where
  order : ∀ a b, a ≤ b → b < rows → key (buf a) ≤ key (buf b) ∨
    ∃ part ∈ parts, part.1 ≤ a ∧ b ≤ part.2

variable {key rows} {buf buf' : Nat → α} {parts parts' : List (Nat × Nat)} {s1 s2 : Nat}

theorem Sorting.perm (sorting : Sorting key rows buf parts) (perm : parts.Perm parts') :
    Sorting key rows buf parts' where
  apart := (perm.pairwise_iff fun away => away.symm).mp sorting.apart
  inside := fun part mem => sorting.inside part (perm.mem_iff.mpr mem)
  order := by
    intro a b le lt
    refine (sorting.order a b le lt).imp_right ?_
    rintro ⟨part, mem, holds⟩
    exact ⟨part, perm.mem_iff.mp mem, holds⟩

theorem Apart.tail {part : Nat × Nat} (separate : Apart rows (part :: parts)) :
    Apart rows parts where
  apart := (pairwise_cons.mp separate.apart).2
  inside := fun part mem => separate.inside part (mem_cons_of_mem _ mem)

theorem Sorting.sorted (sorting : Sorting key rows buf []) : SortedOn key 0 rows buf := by
  intro a b _ le lt
  rcases sorting.order a b le lt with inOrder | ⟨part, mem, -⟩
  · exact inOrder
  · cases mem

section
variable (sorting : Sorting key rows buf ((s1, s2) :: parts))
include sorting

theorem Sorting.drop (trivial : s2 ≤ s1) : Sorting key rows buf parts where
  toApart := sorting.toApart.tail
  order := by
    intro a b le lt
    rcases sorting.order a b le lt with inOrder | ⟨part, mem, low, high⟩
    · exact .inl inOrder
    · rcases mem_cons.mp mem with rfl | other
      · have same : a = b := by
          omega
        rw [same]
        exact .inl (le_refl _)
      · exact .inr ⟨part, other, low, high⟩

/-- A rearrangement of one part does not change how its rows compare with the others; the rows
of the part itself have to be in order, or to be in one of the new parts. -/
theorem Sorting.rearrange (new : List (Nat × Nat)) (arranged : Rearranged s1 (s2 + 1) buf buf')
    (apart : new.Pairwise fun part other => part.2 < other.1 ∨ other.2 < part.1)
    (within : ∀ part ∈ new, s1 ≤ part.1 ∧ part.2 ≤ s2)
    (order : ∀ a b, s1 ≤ a → a ≤ b → b ≤ s2 → key (buf' a) ≤ key (buf' b) ∨
      ∃ part ∈ new, part.1 ≤ a ∧ b ≤ part.2) :
    Sorting key rows buf' (new ++ parts) := by
  obtain ⟨away, others⟩ := pairwise_cons.mp sorting.apart
  have small : s2 < rows := sorting.inside (s1, s2) mem_cons_self
  refine ⟨⟨pairwise_append.mpr ⟨apart, others, fun part mem other isOther => ?_⟩,
    fun part mem => ?_⟩, fun a b le lt => ?_⟩
  · obtain ⟨low, high⟩ := within part mem
    have separate := away other isOther
    omega
  · rcases mem_append.mp mem with isNew | old
    · have high := (within part isNew).2
      omega
    · exact sorting.inside part (mem_cons_of_mem _ old)
  · by_cases both : s1 ≤ a ∧ b ≤ s2
    · refine (order a b both.1 le both.2).imp_right ?_
      rintro ⟨part, mem, holds⟩
      exact ⟨part, mem_append_left _ mem, holds⟩
    · -- the rows that are now at `a` and `b` were not together in the part before
      have place : ∀ k, ∃ k', buf' k = buf k' ∧
          (s1 ≤ k ∧ k ≤ s2 ∧ s1 ≤ k' ∧ k' ≤ s2 ∨ ¬(s1 ≤ k ∧ k ≤ s2) ∧ k' = k) := by
        intro k
        by_cases inPart : s1 ≤ k ∧ k ≤ s2
        · obtain ⟨k', low, high, same⟩ := arranged.inside inPart.1 (by omega)
          exact ⟨k', same, .inl ⟨inPart.1, inPart.2, low, by omega⟩⟩
        · exact ⟨k, arranged.outside (by omega), .inr ⟨inPart, rfl⟩⟩
      obtain ⟨a', sameA, placeA⟩ := place a
      obtain ⟨b', sameB, placeB⟩ := place b
      rw [sameA, sameB]
      rcases sorting.order a' b' (by omega) (by omega) with inOrder | ⟨part, mem, low, high⟩
      · exact .inl inOrder
      · rcases mem_cons.mp mem with rfl | other
        · exfalso
          omega
        · have separate := away part other
          exact .inr ⟨part, mem_append_right _ other, by omega, by omega⟩

theorem Sorting.finish (arranged : Rearranged s1 (s2 + 1) buf buf')
    (sorted : SortedOn key s1 (s2 + 1) buf') : Sorting key rows buf' parts :=
  sorting.rearrange [] arranged Pairwise.nil (fun part mem => absurd mem not_mem_nil)
    fun a b low le high => Or.inl (sorted a b low le (by omega))

theorem Sorting.divide (arranged : Rearranged s1 (s2 + 1) buf buf') {pivot : Bytes} {i jEnd : Nat}
    (divided : Divided key s1 s2 pivot buf' i jEnd) :
    Sorting key rows buf' ((s1, jEnd - 1) :: (i, s2) :: parts) := by
  have meet := divided.meet
  have low := divided.low
  have high := divided.high
  refine sorting.rearrange [(s1, jEnd - 1), (i, s2)] arranged ?_ ?_ ?_
  · rw [pairwise_pair]
    exact .inl (by dsimp only; omega)
  · intro part mem
    rw [mem_pair] at mem
    rcases mem with rfl | rfl
    · exact ⟨le_refl _, by dsimp only; omega⟩
    · exact ⟨low.le, le_refl _⟩
  · intro a b lowA le highB
    by_cases first : b < jEnd
    · exact .inr ⟨(s1, jEnd - 1), mem_cons_self, lowA, by dsimp only; omega⟩
    · by_cases second : i ≤ a
      · exact .inr ⟨(i, s2), mem_cons_of_mem _ (mem_singleton_self _), second, highB⟩
      · exact .inl ((divided.below a lowA (by omega)).trans
          (divided.above b (by omega) highB))

end

theorem Apart.rows_le (separate : Apart rows parts) (least : Nat)
    (long : ∀ part ∈ parts, part.1 + least ≤ part.2 + 1) : parts.length * least ≤ rows := by
  have nodup : (parts.flatMap fun part => range' part.1 least).Nodup := by
    refine nodup_flatMap.mpr ⟨fun part _ => nodup_range', ?_⟩
    refine separate.apart.imp_of_mem fun mem mem' away => ?_
    intro a first second
    rw [mem_range'_1] at first second
    have := long _ mem
    have := long _ mem'
    omega
  have sub : (parts.flatMap fun part => range' part.1 least) ⊆ range rows := by
    intro a mem
    obtain ⟨part, isPart, inRange⟩ := mem_flatMap.mp mem
    rw [mem_range'_1] at inRange
    have := long part isPart
    have := separate.inside part isPart
    exact mem_range.mpr (by omega)
  have count := (subperm_of_subset nodup sub).length_le
  rw [length_flatMap, length_range] at count
  have each : (parts.map fun part => (range' part.1 least).length) =
      replicate parts.length least := by
    refine eq_replicate_iff.mpr ⟨length_map _, fun n mem => ?_⟩
    obtain ⟨part, -, rfl⟩ := mem_map.mp mem
    exact length_range'
  rw [each, sum_replicate_nat] at count
  exact count

/-! ## QuickSort -/

variable {c : SorterSizes} {q : BoundQueue} {turn : Nat} {pending extra : List (Nat × Nat)}

def SorterSizes.Long (c : SorterSizes) (part : Nat × Nat) : Prop :=
  part.1 < part.2 ∧ c.isShort (part.2 - part.1) = false

/-- There is room for one more part: long parts have more than twenty rows, unless the limit
for bubble sort has wrapped around; then the buffer has less than ten rows. -/
theorem Apart.room (separate : Apart rows parts) (fits : rows ≤ c.size)
    (long : ∀ part ∈ parts, c.Long part) : 2 * parts.length + 1 < c.boundQueueSize := by
  have queue : 10 ≤ c.boundQueueSize ∧ 2 + c.size / 10 ≤ c.boundQueueSize :=
    ⟨le_max_left _ _, le_max_right _ _⟩
  by_cases narrow : 20 * c.totalBytes < 2 ^ 32
  · have count := separate.rows_le 21 fun part mem => by
      obtain ⟨-, notShort⟩ := long part mem
      rw [SorterSizes.isShort, SorterSizes.bubbleSortLimit, Nat.mod_eq_of_lt narrow,
        decide_eq_false_iff_not, Nat.mul_lt_mul_right c.total_pos] at notShort
      omega
    omega
  · have few : c.size < 10 := by
      by_contra many
      have product := Nat.mul_le_mul_right c.totalBytes (not_lt.mp many)
      have fits := c.fits
      omega
    have count := separate.rows_le 2 fun part mem => by
      have := (long part mem).1
      omega
    omega

theorem sortPart_sorts (sorting : Sorting key rows buf ((s1, s2) :: (extra ++ pending)))
    (holds : Holds c.boundQueueSize q turn pending) (long : ∀ part ∈ pending, c.Long part)
    (room : 2 * pending.length + 1 < c.boundQueueSize) :
    ∃ buf' q' pending', sortPart key c s1 s2 (buf, q) = some (buf', q') ∧
      Rearranged 0 rows buf buf' ∧ Sorting key rows buf' (extra ++ pending') ∧
      Holds c.boundQueueSize q' turn pending' ∧ (∀ part ∈ pending', c.Long part) ∧
      (pending' = pending ∨ pending' = pending ++ [(s1, s2)] ∧ s1 < s2) := by
  have small : s2 < rows := sorting.inside (s1, s2) mem_cons_self
  have large : 2 < c.boundQueueSize :=
    lt_of_lt_of_le (by decide) (le_max_left 10 (2 + c.size / 10))
  rw [sortPart]
  by_cases several : s1 < s2
  · rw [if_pos several]
    cases short : c.isShort (s2 - s1) with
    | true =>
      obtain ⟨buf', result, arranged, sorted⟩ := @bubbleSort_sorts _ key s1 s2 several.le buf
      rw [result]
      exact ⟨buf', q, pending, rfl, arranged.widen (Nat.zero_le _) small,
        sorting.finish arranged sorted, holds, long, .inl rfl⟩
    | false =>
      refine ⟨buf, _, pending ++ [(s1, s2)], rfl, Rearranged.refl _ _ _, ?_,
        holds.push large room (s1, s2), ?_, .inr ⟨rfl, several⟩⟩
      · refine sorting.perm ?_
        rw [← append_assoc]
        exact (perm_append_singleton _ _).symm
      · intro part mem
        rcases mem_append.mp mem with old | new
        · exact long part old
        · rw [mem_singleton.mp new]
          exact ⟨several, short⟩
  · rw [if_neg several]
    exact ⟨buf, q, pending, rfl, Rearranged.refl _ _ _, sorting.drop (not_lt.mp several), holds,
      long, .inl rfl⟩

/-- A bound for the number of turns that the parts need. -/
def weight (parts : List (Nat × Nat)) : Nat := (parts.map fun part => 2 * (part.2 - part.1) + 1).sum

theorem weight_push (parts : List (Nat × Nat)) (s1 s2 : Nat) :
    weight (parts ++ [(s1, s2)]) = weight parts + (2 * (s2 - s1) + 1) := by
  rw [weight, map_append, sum_append]
  rfl

theorem quickTurn_sorts (sorting : Sorting key rows buf ((s1, s2) :: pending)) (le : s1 ≤ s2)
    (holds : Holds c.boundQueueSize q turn ((s1, s2) :: pending))
    (long : ∀ part ∈ pending, c.Long part) (fits : rows ≤ c.size) (random : Nat) :
    ∃ buf' q' pending', quickTurn key c rows random (buf, q) = some (buf', q') ∧
      Rearranged 0 rows buf buf' ∧ Sorting key rows buf' pending' ∧
      Holds c.boundQueueSize q' (turn + 1) pending' ∧ (∀ part ∈ pending', c.Long part) ∧
      weight pending' < weight ((s1, s2) :: pending) := by
  obtain ⟨first, second, holds'⟩ := holds.pop
  have small : s2 < rows := sorting.inside (s1, s2) mem_cons_self
  have whole : weight ((s1, s2) :: pending) = 2 * (s2 - s1) + 1 + weight pending := rfl
  rw [quickTurn]
  dsimp only at first second ⊢
  rw [first, second]
  by_cases single : s1 = s2
  · rw [if_pos single]
    exact ⟨buf, _, pending, rfl, Rearranged.refl _ _ _, sorting.drop (le_of_eq single.symm),
      holds', long, by omega⟩
  · rw [if_neg single]
    have eighth := Nat.div_mul_le_self (s2 - s1) 8
    have middle : (s2 - s1) / 8 * (2 + random % 4) ≤ s2 - s1 := by
      have factor : 2 + random % 4 ≤ 8 := by omega
      exact (Nat.mul_le_mul_left _ factor).trans eighth
    obtain ⟨buf₁, i, jEnd, result, arranged, divided⟩ := @partitionLoop_start _ key s1 s2
      (s1 + (s2 - s1) / 8 * (2 + random % 4)) rows small (Nat.le_add_right _ _) (by omega) buf
    have divides := sorting.divide arranged divided
    have away := divides.toApart.tail.tail
    obtain ⟨buf₂, q₂, pending₂, result₂, arranged₂, sorting₂, holds₂, long₂, pushed₂⟩ :=
      @sortPart_sorts _ key rows buf₁ s1 (jEnd - 1) c _ (turn + 1) pending [(i, s2)] divides holds'
        long (away.room fits long)
    obtain ⟨buf₃, q₃, pending₃, result₃, arranged₃, sorting₃, holds₃, long₃, pushed₃⟩ :=
      @sortPart_sorts _ key rows buf₂ i s2 c q₂ (turn + 1) pending₂ [] sorting₂ holds₂ long₂
        (sorting₂.toApart.tail.room fits long₂)
    rw [result]
    dsimp only
    rw [result₂, bind_some, result₃]
    refine ⟨buf₃, q₃, pending₃, rfl, ?_, sorting₃, holds₃, long₃, ?_⟩
    · exact (arranged.widen (Nat.zero_le _) small).trans (arranged₂.trans arranged₃)
    · have meet := divided.meet
      have low := divided.low
      have high := divided.high
      rcases pushed₂ with rfl | ⟨rfl, several₂⟩
      · rcases pushed₃ with rfl | ⟨rfl, several₃⟩
        · omega
        · rw [weight_push]
          omega
      · rcases pushed₃ with rfl | ⟨rfl, several₃⟩
        · rw [weight_push]
          omega
        · rw [weight_push, weight_push]
          omega

/-- The parts in the queue before a turn: the whole buffer, or long parts. -/
def SorterSizes.Waiting (c : SorterSizes) (pending : List (Nat × Nat)) : Prop :=
  (∃ part : Nat × Nat, pending = [part] ∧ part.1 ≤ part.2) ∨ ∀ part ∈ pending, c.Long part

theorem quickLoop_sorts (fits : rows ≤ c.size) (rand : Nat → Nat) (turns : Nat) :
    ∀ n buf q turn pending,
      weight pending < turns → Sorting key rows buf pending →
      Holds c.boundQueueSize q turn pending → c.Waiting pending →
      ∃ buf', quickLoop key c rand rows turns n (buf, q) = some buf' ∧
        Rearranged 0 rows buf buf' ∧ SortedOn key 0 rows buf' := by
  induction turns with
  | zero =>
    intro n buf q turn pending short
    omega
  | succ turns ih =>
    intro n buf q turn pending short sorting holds waiting
    have large : 10 ≤ c.boundQueueSize := le_max_left _ _
    have room : 2 * pending.length < c.boundQueueSize := by
      rcases waiting with ⟨part, rfl, -⟩ | long
      · rw [length_singleton]
        omega
      · have := sorting.toApart.room fits long
        omega
    rw [quickLoop]
    cases pending with
    | nil =>
      rw [if_pos ((holds.empty_iff room).mpr rfl)]
      exact ⟨buf, rfl, Rearranged.refl _ _ _, sorting.sorted⟩
    | cons part rest =>
      have facts : part.1 ≤ part.2 ∧ ∀ other ∈ rest, c.Long other := by
        rcases waiting with ⟨only, isOnly, le⟩ | long
        · cases isOnly
          exact ⟨le, fun other mem => absurd mem not_mem_nil⟩
        · exact ⟨(long part mem_cons_self).1.le,
            fun other mem => long other (mem_cons_of_mem _ mem)⟩
      obtain ⟨s1, s2⟩ := part
      obtain ⟨buf₁, q₁, pending₁, result, arranged, sorting₁, holds₁, long₁, lighter⟩ :=
        quickTurn_sorts sorting facts.1 holds facts.2 fits (rand n)
      obtain ⟨buf', result', arranged', sorted⟩ := ih (n + 1) buf₁ q₁ (turn + 1) pending₁
        (by omega) sorting₁ holds₁ (.inr long₁)
      rw [if_neg ((holds.empty_iff room).not.mpr (cons_ne_nil _ _)), result,
        bind_some, result']
      exact ⟨buf', rfl, arranged.trans arranged', sorted⟩

theorem quickSort_sorts (positive : 0 < rows) (fits : rows ≤ c.size) (keyed : c.keyBytes ≠ 0)
    (rand : Nat → Nat) (buf : Nat → α) :
    ∃ buf', quickSort key c rand rows buf = some buf' ∧ Rearranged 0 rows buf buf' ∧
      SortedOn key 0 rows buf' := by
  have last : rows - 1 + 1 = rows := by omega
  rw [quickSort, if_neg keyed, if_neg (by omega)]
  cases short : c.isShort rows with
  | true =>
    have sorts := @bubbleSort_sorts _ key 0 (rows - 1) (Nat.zero_le _) buf
    rwa [last] at sorts
  | false =>
    rw [if_neg Bool.false_ne_true]
    refine quickLoop_sorts fits rand (2 * rows + 1) 0 buf _ 0 [(0, rows - 1)] ?_ ?_ ?_ ?_
    · rw [weight, map_singleton, sum_singleton]
      omega
    · refine ⟨⟨pairwise_singleton _ _, fun part mem => ?_⟩, fun a b _ small => ?_⟩
      · rw [mem_singleton.mp mem]
        omega
      · exact .inr ⟨(0, rows - 1), mem_singleton_self _, Nat.zero_le _, by dsimp only; omega⟩
    · have large : 10 ≤ c.boundQueueSize := le_max_left _ _
      have second : 2 < c.boundQueueSize := by omega
      refine ⟨(Nat.zero_mod _).symm, (Nat.mod_eq_of_lt second).symm, fun k part isPart => ?_⟩
      cases k with
      | zero =>
        cases isPart
        exact ⟨by rw [Nat.zero_mod]; rfl, by rw [Nat.zero_mod]; rfl⟩
      | succ k => cases isPart
    · exact .inl ⟨(0, rows - 1), rfl, Nat.zero_le _⟩

end

end Brighthouse.Core
