import Brighthouse.Library.Buffer

/-!
# Binary heaps in a buffer

The node with number `n` is the element at position `n - 1`; its children have the numbers
`2 * n` and `2 * n + 1`.  No element is greater than the one at its parent.  While one element
rises or sinks, the order is broken at this element only and holds across it.
-/

set_option autoImplicit false

namespace Brighthouse.Library.BinaryHeap

open Buffer

variable {α κ : Type} [LinearOrder κ] (key : α → κ)

/-- The first `k` elements form a heap with the greatest one at the root. -/
def HeapOn (k : Nat) (buf : Nat → α) : Prop :=
  ∀ n, 2 ≤ n → n ≤ k → key (buf (n - 1)) ≤ key (buf (n / 2 - 1))

/-- A heap but for node `n`, which may be greater than its parent. -/
structure RisingAt (k n : Nat) (buf : Nat → α) : Prop where
  others : ∀ m, 2 ≤ m → m ≤ k → m ≠ n → key (buf (m - 1)) ≤ key (buf (m / 2 - 1))
  across : ∀ m, m ≤ k → m / 2 = n → 2 ≤ n → key (buf (m - 1)) ≤ key (buf (n / 2 - 1))

/-- A heap but for node `n`, which may be smaller than its children. -/
structure SinkingAt (k n : Nat) (buf : Nat → α) : Prop where
  others : ∀ m, 2 ≤ m → m ≤ k → m / 2 ≠ n → key (buf (m - 1)) ≤ key (buf (m / 2 - 1))
  across : ∀ m, m ≤ k → m / 2 = n → 2 ≤ n → key (buf (m - 1)) ≤ key (buf (n / 2 - 1))

variable {key} {k n : Nat} {buf : Nat → α}

section
variable (heap : HeapOn key k buf)
include heap

theorem HeapOn.le_root (n : Nat) :
    1 ≤ n → n ≤ k → key (buf (n - 1)) ≤ key (buf 0) := by
  induction n using Nat.strongRecOn with
  | ind n ih =>
    intro positive small
    by_cases root : n = 1
    · rw [root]
    · exact (heap n (by omega) small).trans (ih (n / 2) (by omega) (by omega) (by omega))

theorem HeapOn.congr {buf' : Nat → α} (same : ∀ i < k, buf' i = buf i) : HeapOn key k buf' := by
  intro n low high
  rw [same _ (by omega), same _ (by omega)]
  exact heap n low high

theorem HeapOn.risingAt : RisingAt key (k + 1) (k + 1) buf where
  others := fun m low high notNew => heap m low (by omega)
  across := fun m high child _ => by omega

theorem HeapOn.sinkingAt (x : α) :
    SinkingAt key k 1 (Function.update buf 0 x) where
  others := by
    intro m low high notRoot
    rw [Function.update_of_ne (by omega), Function.update_of_ne (by omega)]
    exact heap m low high
  across := fun m _ _ impossible => by omega

end

/-! ## Rising -/

theorem RisingAt.heapOn (rising : RisingAt key k n buf)
    (stops : 2 ≤ n → key (buf (n - 1)) ≤ key (buf (n / 2 - 1))) : HeapOn key k buf := by
  intro m low high
  by_cases here : m = n
  · rw [here]
    exact stops (by omega)
  · exact rising.others m low high here

theorem RisingAt.step (rising : RisingAt key k n buf) (low : 2 ≤ n) (high : n ≤ k)
    (greater : key (buf (n / 2 - 1)) < key (buf (n - 1))) :
    RisingAt key k (n / 2) (swap buf (n / 2 - 1) (n - 1)) where
  others := by
    intro m lowM highM notParent
    by_cases here : m = n
    · rw [here, swap_right, swap_left]
      exact greater.le
    · rw [swap_other (k := m - 1) (by omega) (by omega)]
      by_cases child : m / 2 = n
      · rw [child, swap_right]
        exact rising.across m highM child low
      · have below := rising.others m lowM highM here
        by_cases sibling : m / 2 = n / 2
        · rw [sibling, swap_left]
          rw [sibling] at below
          exact below.trans greater.le
        · rw [swap_other (by omega) (by omega)]
          exact below
  across := by
    intro m highM child lowP
    have above := rising.others (n / 2) lowP (by omega) (by omega)
    rw [swap_other (k := n / 2 / 2 - 1) (by omega) (by omega)]
    by_cases here : m = n
    · rw [here, swap_right]
      exact above
    · have below := rising.others m (by omega) highM here
      rw [child] at below
      rw [swap_other (by omega) (by omega)]
      exact below.trans above

/-! ## Sinking -/

theorem SinkingAt.heapOn (sinking : SinkingAt key k n buf)
    (stops : ∀ m, 2 ≤ m → m ≤ k → m / 2 = n → key (buf (m - 1)) ≤ key (buf (n - 1))) :
    HeapOn key k buf := by
  intro m low high
  by_cases child : m / 2 = n
  · rw [child]
    exact stops m low high child
  · exact sinking.others m low high child

/-- The node is exchanged with its greatest child `g`. -/
theorem SinkingAt.step (sinking : SinkingAt key k n buf) {g : Nat} (positive : 1 ≤ n)
    (high : g ≤ k) (child : g / 2 = n) (smaller : key (buf (n - 1)) < key (buf (g - 1)))
    (greatest : ∀ m, m ≤ k → m / 2 = n → key (buf (m - 1)) ≤ key (buf (g - 1))) :
    SinkingAt key k g (swap buf (n - 1) (g - 1)) where
  others := by
    intro m lowM highM notChild
    by_cases isChild : m = g
    · rw [isChild, swap_right, child, swap_left]
      exact smaller.le
    · by_cases here : m = n
      · rw [here, swap_left, swap_other (by omega) (by omega)]
        exact sinking.across g high child (by omega)
      · rw [swap_other (k := m - 1) (by omega) (by omega)]
        by_cases sibling : m / 2 = n
        · rw [sibling, swap_left]
          exact greatest m highM sibling
        · rw [swap_other (by omega) (by omega)]
          exact sinking.others m lowM highM sibling
  across := by
    intro m highM grandchild _
    rw [child, swap_left, swap_other (by omega) (by omega)]
    have below := sinking.others m (by omega) highM (by omega)
    rwa [grandchild] at below

end Brighthouse.Library.BinaryHeap
