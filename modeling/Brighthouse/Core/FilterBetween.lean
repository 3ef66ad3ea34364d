import Brighthouse.Core.FilterRun

/-!
# Range queries

Functional model of `IsEmptyBetween`, `IsFullBetween` and `NoOnesBetween` of
`core/Filter.cpp` and `core/Filter_Block.cpp`.  An answer is `none` where the source calls a
block that was never created.  Upper bounds of loops are exclusive here.
-/

set_option autoImplicit false

namespace Brighthouse.Core

open Library.BitCount Library.Loop Library.WordTable Nat List

namespace Block

def bitAt (b : Block) (word i : Nat) : Bool := b.blockTable word &&& lshift1 i != 0#32

def bitsAre (b : Block) (value : Bool) (word first stop : Nat) : Bool :=
  (List.range' first (stop - first)).all fun i => b.bitAt word i == value

def wholeWord (value : Bool) : BitVec 32 := if value then 0xFFFFFFFF#32 else 0#32

/-- The common shape of `IsEmptyBetween` and `IsFullBetween`.  The bits of an incomplete first
word are tested from `firstBit` on. -/
def checkBetween (b : Block) (value : Bool) (firstBit n1 n2 : Nat) : Bool :=
  let bl1 := n1 / 32
  let bl2 := n2 / 32
  let off1 := n1 % 32
  let off2 := n2 % 32
  if bl1 = bl2 then b.blockTable bl1 == wholeWord value || b.bitsAre value bl1 off1 (off2 + 1)
  else
    let iStart := if off1 = 0 then bl1 else bl1 + 1
    let iStop := if off2 = 31 then bl2 + 1 else bl2
    (List.range' iStart (iStop - iStart)).all (b.blockTable · == wholeWord value) &&
      (bl1 == iStart || b.bitsAre value bl1 firstBit 32) &&
      (bl2 + 1 == iStop || b.bitsAre value bl2 0 (off2 + 1))

def isEmptyBetween (b : Block) (n1 n2 : Nat) : Bool := b.checkBetween false (n1 % 32) n1 n2

/-- Unlike `IsEmptyBetween`, this one starts in the first word at the offset of `n2`. -/
def isFullBetween (b : Block) (n1 n2 : Nat) : Bool := b.checkBetween true (n2 % 32) n1 n2

def bitSum (b : Block) (word first stop : Nat) : Nat :=
  forLoop (fun i result => result + (b.bitAt word i).toNat) first (stop - first) 0

def noOnesBetween (b : Block) (n1 n2 : Nat) : Nat :=
  let bl1 := n1 / 32
  let bl2 := n2 / 32
  let off1 := n1 % 32
  let off2 := n2 % 32
  if bl1 = bl2 then if b.blockTable bl1 = 0#32 then 0 else b.bitSum bl1 off1 (off2 + 1)
  else
    let iStart := if off1 = 0 then bl1 else bl1 + 1
    let iStop := if off2 = 31 then bl2 + 1 else bl2
    forLoop (fun i result => result + calculateBinSum (b.blockTable i)) iStart (iStop - iStart) 0 +
      (if bl1 = iStart then 0 else b.bitSum bl1 off1 32) +
      (if bl2 + 1 = iStop then 0 else b.bitSum bl2 0 (off2 + 1))

end Block

namespace Slot

def isEmptyBetween (s : Slot) (n1 n2 : Nat) : Option Bool :=
  match s.status with
  | .full => some (decide (s.lastOne < n1))
  | .empty => some true
  | .mixed => s.block.map (·.isEmptyBetween n1 n2)

def isFullBetween (s : Slot) (n1 n2 : Nat) : Option Bool :=
  match s.status with
  | .full => some (decide (n2 ≤ s.lastOne))
  | .empty => some false
  | .mixed => s.block.map (·.isFullBetween n1 n2)

def noOnesBetween (s : Slot) (n1 n2 : Nat) : Nat :=
  match s.status with
  | .full => if s.lastOne < n1 then 0 else min n2 s.lastOne - n1 + 1
  | .empty => 0
  | .mixed => (s.block.map (·.noOnesBetween n1 n2)).getD 0

end Slot

namespace Filter

def isFullBlock (f : Filter) (b : Nat) : Bool :=
  (f.slots b).status == .full && (f.slots b).lastOne == f.blockSize b - 1

def fullPackStart (n1 : Nat) : Nat := if n1 % 65536 = 0 then n1 / 65536 else n1 / 65536 + 1

def fullPackStop (f : Filter) (n2 : Nat) : Nat :=
  if n2 % 65536 = 65535 ∨ n2 / 65536 + 1 = f.noBlocks ∧ n2 % 65536 + 1 = f.noOfBitsInLastBlock then
    n2 / 65536 + 1
  else n2 / 65536

/-- A check of several blocks: the complete ones, then the first one, then the last one. -/
def checkBlocks (f : Filter) (n1 n2 : Nat) (whole : Nat → Bool) (first last : Option Bool) :
    Option Bool :=
  let start := fullPackStart n1
  let stop := f.fullPackStop n2
  if !(List.range' start (stop - start)).all whole then some false
  else
    (if n1 / 65536 = start then some true else first).bind fun ok =>
      if !ok then some false else if n2 / 65536 + 1 = stop then some true else last

def isEmptyBetween (f : Filter) (n1 n2 : Nat) : Option Bool :=
  let b1 := n1 / 65536
  let b2 := n2 / 65536
  if n1 = n2 then some !f.get n1
  else if b1 = b2 then (f.slots b1).isEmptyBetween (n1 % 65536) (n2 % 65536)
  else
    f.checkBlocks n1 n2 (fun b => (f.slots b).status == .empty)
      ((f.slots b1).isEmptyBetween (n1 % 65536) 65535) ((f.slots b2).isEmptyBetween 0 (n2 % 65536))

/-- The first of several blocks, from `nn1` on.  A full block that ends with zeros has no bit
block to ask. -/
def isFirstFull (f : Filter) (b nn1 : Nat) : Option Bool :=
  if (f.slots b).status = .empty then some false
  else if f.isFullBlock b then some true
  else (f.slots b).block.map (·.isFullBetween nn1 65535)

def isFullBetween (f : Filter) (n1 n2 : Nat) : Option Bool :=
  let b1 := n1 / 65536
  let b2 := n2 / 65536
  if n1 = n2 then some (f.get n1)
  else if b1 = b2 then (f.slots b1).isFullBetween (n1 % 65536) (n2 % 65536)
  else
    f.checkBlocks n1 n2 f.isFullBlock (f.isFirstFull b1 (n1 % 65536))
      ((f.slots b2).isFullBetween 0 (n2 % 65536))

def noOnesBetween (f : Filter) (n1 n2 : Nat) : Nat :=
  let b1 := n1 / 65536
  let b2 := n2 / 65536
  if n1 = n2 then (f.get n1).toNat
  else if b1 = b2 then (f.slots b1).noOnesBetween (n1 % 65536) (n2 % 65536)
  else
    let start := fullPackStart n1
    let stop := f.fullPackStop n2
    forLoop (fun i counter => counter + (f.slots i).noOnes) start (stop - start) 0 +
      (if b1 = start then 0 else (f.slots b1).noOnesBetween (n1 % 65536) 65535) +
      (if b2 + 1 = stop then 0 else (f.slots b2).noOnesBetween 0 (n2 % 65536))

end Filter

/-! ## Words -/

theorem all_range'_iff {p : Nat → Bool} {first stop : Nat} :
    (range' first (stop - first)).all p = true ↔ ∀ i, first ≤ i → i < stop → p i = true := by
  simp only [all_eq_true, mem_range'_1]
  constructor
  · intro all i low high
    exact all i ⟨low, by omega⟩
  · rintro all i ⟨low, high⟩
    exact all i low (by omega)

namespace Block

variable {b : Block} {value : Bool} {word first stop firstBit n1 n2 : Nat}

theorem bitAt_eq {i : Nat} (inWord : i < 32) : b.bitAt word i = b.get (word * 32 + i) := by
  have wordOf : (word * 32 + i) / 32 = word := by omega
  have bitOf : (word * 32 + i) % 32 = i := by omega
  rw [bitAt, get, wordOf, bitOf]

theorem bitsAre_iff (inWord : stop ≤ 32) : b.bitsAre value word first stop = true ↔
    ∀ m, word * 32 + first ≤ m → m < word * 32 + stop → b.get m = value := by
  rw [bitsAre, all_range'_iff]
  constructor
  · intro all m low high
    obtain ⟨i, rfl⟩ := Nat.exists_eq_add_of_le (by omega : word * 32 ≤ m)
    have bit := all i (by omega) (by omega)
    rwa [bitAt_eq (by omega), beq_iff_eq] at bit
  · intro all i low high
    rw [bitAt_eq (by omega), beq_iff_eq]
    exact all _ (by omega) (by omega)

theorem wholeWord_iff : b.blockTable word = wholeWord value ↔
    ∀ m, word * 32 ≤ m → m < word * 32 + 32 → b.get m = value := by
  have bit : ∀ i < 32, (wholeWord value).getLsbD i = value := by
    cases value <;> decide
  have table : ∀ i < 32, b.get (word * 32 + i) = (b.blockTable word).getLsbD i := by
    intro i inWord
    rw [← bitAt_eq inWord, bitAt, lshift1, and_mask_ne_zero _ inWord]
  constructor
  · intro same m low high
    obtain ⟨i, rfl⟩ := Nat.exists_eq_add_of_le low
    rw [table i (by omega), same, bit i (by omega)]
  · intro all
    apply BitVec.eq_of_getLsbD_eq
    intro i inWord
    rw [← table i inWord, bit i inWord]
    exact all _ (by omega) (by omega)

def firstChecked (firstBit n1 n2 : Nat) : Nat :=
  if n1 / 32 = n2 / 32 ∨ n1 % 32 = 0 then n1 else n1 / 32 * 32 + firstBit

theorem startWord_eq (n : Nat) : (if n % 32 = 0 then n / 32 else n / 32 + 1) = (n + 31) / 32 := by
  split <;> omega

theorem stopWord_eq (n : Nat) : (if n % 32 = 31 then n / 32 + 1 else n / 32) = (n + 1) / 32 := by
  split <;> omega

theorem checkBetween_iff (le : n1 ≤ n2) (inWord : firstBit < 32) :
    b.checkBetween value firstBit n1 n2 = true ↔
      ∀ m, firstChecked firstBit n1 n2 ≤ m → m ≤ n2 → b.get m = value := by
  rw [checkBetween, firstChecked]
  by_cases oneWord : n1 / 32 = n2 / 32
  · rw [if_pos oneWord, if_pos (.inl oneWord), Bool.or_eq_true, beq_iff_eq, wholeWord_iff,
      bitsAre_iff (by omega)]
    constructor
    · rintro (all | all) m low high
      · exact all m (by omega) (by omega)
      · exact all m (by omega) (by omega)
    · intro all
      exact .inr fun m low high => all m (by omega) (by omega)
  · rw [if_neg oneWord]
    have starts := startWord_eq n1
    simp only [stopWord_eq, Bool.and_eq_true, Bool.or_eq_true, all_range'_iff, beq_iff_eq,
      wholeWord_iff, bitsAre_iff (le_refl 32), bitsAre_iff (by omega : n2 % 32 + 1 ≤ 32), oneWord,
      false_or]
    constructor
    · rintro ⟨⟨whole, head⟩, tail⟩ m low high
      by_cases inHead : m / 32 < (n1 + 31) / 32
      · have partly : n1 % 32 ≠ 0 := by split at low <;> omega
        rw [if_neg partly] at low
        exact (head.resolve_left (by omega)) m (by omega) (by omega)
      · by_cases inTail : m / 32 < (n2 + 1) / 32
        · exact whole (m / 32) (by omega) inTail m (by omega) (by omega)
        · exact (tail.resolve_left (by omega)) m (by omega) (by omega)
    · intro all
      refine ⟨⟨fun i low high m above below => all m (by split <;> omega) (by omega), ?_⟩, ?_⟩
      · by_cases complete : n1 % 32 = 0
        · exact .inl (by omega)
        · refine .inr fun m above below => all m ?_ (by omega)
          rw [if_neg complete]
          exact above
      · by_cases complete : n2 % 32 = 31
        · exact .inl (by omega)
        · exact .inr fun m above below => all m (by split <;> omega) (by omega)

theorem isEmptyBetween_iff (le : n1 ≤ n2) :
    b.isEmptyBetween n1 n2 = true ↔ ∀ m, n1 ≤ m → m ≤ n2 → b.get m = false := by
  have start : firstChecked (n1 % 32) n1 n2 = n1 := by
    rw [firstChecked]
    split <;> omega
  rw [isEmptyBetween, checkBetween_iff le (by omega), start]

theorem bitSum_eq (b : Block) (word : Nat) (le : first ≤ stop) (inWord : stop ≤ 32) :
    ones b.get (word * 32 + first) + b.bitSum word first stop = ones b.get (word * 32 + stop) := by
  apply forLoop_sum _ (fun i => ones b.get (word * 32 + i)) le
  intro i _ high
  rw [bitAt_eq (high.trans_le inWord), ← ones_succ]
  rfl

theorem wordSum_eq (b : Block) (le : first ≤ stop) :
    ones b.get (first * 32) + forLoop (fun i sum => sum + calculateBinSum (b.blockTable i)) first
      (stop - first) 0 = ones b.get (stop * 32) := by
  apply forLoop_sum _ (fun i => ones b.get (i * 32)) le
  intro i _ _
  simp only [calculateBinSum_word, succ_mul, ones_add, get_eq_testBit]

theorem headSum_eq (b : Block) (n1 : Nat) :
    ones b.get n1 + (if n1 / 32 = (n1 + 31) / 32 then 0 else b.bitSum (n1 / 32) (n1 % 32) 32) =
      ones b.get ((n1 + 31) / 32 * 32) := by
  split
  · have aligned : (n1 + 31) / 32 * 32 = n1 := by omega
    rw [aligned, add_zero]
  · have head : n1 / 32 * 32 + n1 % 32 = n1 := by omega
    have next : n1 / 32 * 32 + 32 = (n1 + 31) / 32 * 32 := by omega
    have counted := b.bitSum_eq (n1 / 32) (by omega : n1 % 32 ≤ 32) le_rfl
    rwa [head, next] at counted

theorem tailSum_eq (b : Block) (n2 : Nat) :
    ones b.get ((n2 + 1) / 32 * 32) +
        (if n2 / 32 + 1 = (n2 + 1) / 32 then 0 else b.bitSum (n2 / 32) 0 (n2 % 32 + 1)) =
      ones b.get (n2 + 1) := by
  split
  · have aligned : (n2 + 1) / 32 * 32 = n2 + 1 := by omega
    rw [aligned, add_zero]
  · have head : n2 / 32 * 32 + 0 = (n2 + 1) / 32 * 32 := by omega
    have tail : n2 / 32 * 32 + (n2 % 32 + 1) = n2 + 1 := by omega
    have counted := b.bitSum_eq (n2 / 32) (zero_le (n2 % 32 + 1)) (by omega)
    rwa [head, tail] at counted

theorem noOnesBetween_eq (b : Block) (le : n1 ≤ n2) :
    ones b.get n1 + b.noOnesBetween n1 n2 = ones b.get (n2 + 1) := by
  rw [noOnesBetween]
  dsimp only
  by_cases oneWord : n1 / 32 = n2 / 32
  · rw [if_pos oneWord]
    split
    · rename_i zero
      have none := (@wholeWord_iff b false _).mp zero
      obtain ⟨k, rfl⟩ := Nat.exists_eq_add_of_le le
      have gap : ones (fun m => b.get (n1 + m)) (k + 1) = 0 :=
        ones_eq_zero_iff.mpr fun m lt => none _ (by omega) (by omega)
      rw [add_assoc, ones_add, gap]
    · have counted := b.bitSum_eq (n1 / 32) (by omega : n1 % 32 ≤ n2 % 32 + 1) (by omega)
      have head : n1 / 32 * 32 + n1 % 32 = n1 := by omega
      have tail : n1 / 32 * 32 + (n2 % 32 + 1) = n2 + 1 := by omega
      rwa [head, tail] at counted
  · have words := b.wordSum_eq (by omega : (n1 + 31) / 32 ≤ (n2 + 1) / 32)
    rw [if_neg oneWord, startWord_eq, stopWord_eq, ← b.tailSum_eq n2, ← words, ← b.headSum_eq n1]
    omega

end Block

/-! ## Blocks of a filter -/

/-- The call returns and its answer is whether `p` holds. -/
def Tells (answer : Option Bool) (p : Prop) : Prop := ∃ a, answer = some a ∧ (a = true ↔ p)

theorem tells_some {a : Bool} {p : Prop} (same : a = true ↔ p) : Tells (some a) p := ⟨a, rfl, same⟩

theorem Tells.and {a b : Option Bool} {p q : Prop} (left : Tells a p) (right : Tells b q) :
    Tells (a.bind fun ok => if !ok then some false else b) (p ∧ q) := by
  obtain ⟨ok, rfl, same⟩ := left
  obtain ⟨ok2, rfl, same2⟩ := right
  rw [← same, ← same2]
  cases ok
  · exact tells_some (by simp)
  · exact tells_some (by simp)

namespace Slot

variable {s : Slot} {size n1 n2 : Nat} {bits : Nat → Bool}

def fullFrom (s : Slot) (n1 n2 : Nat) : Nat :=
  if s.status = .mixed then Block.firstChecked (n2 % 32) n1 n2 else n1

theorem fullFrom_zero (s : Slot) (n2 : Nat) : s.fullFrom 0 n2 = 0 := by
  rw [fullFrom, Block.firstChecked, if_pos (Or.inr rfl), ite_self]

theorem fullFrom_le (s : Slot) (small : n1 ≤ 65535) : s.fullFrom n1 65535 ≤ 65535 := by
  rw [fullFrom, Block.firstChecked]
  split
  · split <;> omega
  · exact small

theorem all_iff_of_holds {b : Block} {row1 : Nat} {value : Bool} (holds : b.Holds size bits)
    (lt : n2 < size) : (∀ m, row1 ≤ m → m ≤ n2 → b.get m = value) ↔
      ∀ m, row1 ≤ m → m ≤ n2 → bits m = value := by
  constructor
  · intro all m low high
    rw [← holds.get_eq m (by omega)]
    exact all m low high
  · intro all m low high
    rw [holds.get_eq m (by omega)]
    exact all m low high

section
variable (shown : s.Shows size bits) (le : n1 ≤ n2) (lt : n2 < size)
include shown le lt

theorem Shows.isEmptyBetween :
    Tells (s.isEmptyBetween n1 n2) (∀ m, n1 ≤ m → m ≤ n2 → bits m = false) := by
  cases shown with
  | empty lastOne noBit => exact tells_some ⟨fun _ m _ high => noBit m (by omega), fun _ => rfl⟩
  | full lastOne inBlock upTo =>
    refine tells_some ((decide_eq_true_iff (p := lastOne < n1)).trans ⟨?_, ?_⟩)
    · intro after m low high
      rw [upTo m (by omega), decide_eq_false (by omega)]
    · intro none
      have bit := none n1 le_rfl le
      rw [upTo n1 (by omega), decide_eq_false_iff_not] at bit
      omega
  | mixed lastOne b holds _ _ =>
    apply tells_some
    rw [Block.isEmptyBetween_iff le, all_iff_of_holds holds lt]

theorem Shows.isFullBetween :
    Tells (s.isFullBetween n1 n2) (∀ m, s.fullFrom n1 n2 ≤ m → m ≤ n2 → bits m = true) := by
  cases shown with
  | empty lastOne noBit =>
    apply tells_some
    simp only [Bool.false_eq_true, false_iff]
    intro all
    have bit := all n2 le le_rfl
    rw [noBit n2 lt] at bit
    cases bit
  | full lastOne inBlock upTo =>
    refine tells_some ((decide_eq_true_iff (p := n2 ≤ lastOne)).trans ⟨?_, ?_⟩)
    · intro upToLast m low high
      rw [upTo m (by omega), decide_eq_true (by omega)]
    · intro all
      have bit := all n2 le le_rfl
      rwa [upTo n2 lt, decide_eq_true_eq] at bit
  | mixed lastOne b holds _ _ =>
    refine tells_some ((Block.checkBetween_iff le (by omega)).trans ?_)
    rw [all_iff_of_holds holds lt]
    rfl

theorem Shows.noOnesBetween : ones bits n1 + s.noOnesBetween n1 n2 = ones bits (n2 + 1) := by
  cases shown with
  | empty lastOne noBit =>
    rw [ones_eq_zero_iff.mpr fun m small => noBit m (by omega),
      ones_eq_zero_iff.mpr fun m small => noBit m (by omega)]
    rfl
  | full lastOne inBlock upTo =>
    have count : ∀ n ≤ size, ones bits n = min n (lastOne + 1) := by
      intro n small
      rw [ones_congr fun m lt => upTo m (by omega)]
      by_cases before : n ≤ lastOne + 1
      · rw [min_eq_left before]
        exact ones_eq_iff.mpr fun m lt => decide_eq_true (by omega)
      · rw [ones_upTo (by omega), min_eq_right (by omega)]
    rw [count n1 (by omega), count (n2 + 1) lt]
    simp only [Slot.noOnesBetween]
    split <;> omega
  | mixed lastOne b holds _ _ =>
    have same : ∀ n ≤ size, ones bits n = ones b.get n := fun n small =>
      ones_congr fun m lt => (holds.get_eq m (by omega)).symm
    rw [same n1 (by omega), same (n2 + 1) lt]
    exact b.noOnesBetween_eq le

end

theorem Shows.status_empty_iff (shown : s.Shows size bits) (positive : 0 < size) :
    s.status = .empty ↔ ∀ m < size, bits m = false := by
  cases shown with
  | empty lastOne noBit => exact ⟨fun _ => noBit, fun _ => rfl⟩
  | full lastOne inBlock upTo =>
    refine ⟨nofun, fun none => ?_⟩
    have bit := none 0 positive
    rw [upTo 0 positive] at bit
    cases bit
  | mixed lastOne b holds notEmpty _ => simp [← ones_eq_zero_iff, notEmpty]

theorem Shows.lastOne_iff (shown : s.Shows size bits) (positive : 0 < size) :
    s.status = .full ∧ s.lastOne = size - 1 ↔ ∀ m < size, bits m = true := by
  cases shown with
  | empty lastOne noBit =>
    refine ⟨nofun, fun all => ?_⟩
    have bit := all 0 positive
    rw [noBit 0 positive] at bit
    cases bit
  | full lastOne inBlock upTo =>
    constructor
    · rintro ⟨_, last⟩ m lt
      have same : lastOne = size - 1 := last
      rw [upTo m lt, decide_eq_true (by omega)]
    · intro all
      have bit := all (size - 1) (by omega)
      rw [upTo (size - 1) (by omega), decide_eq_true_eq] at bit
      exact ⟨rfl, by show lastOne = _; omega⟩
  | mixed lastOne b holds _ notFull => simp [← ones_eq_iff, notFull]

end Slot

namespace Filter

variable {f : Filter} {rows b n1 n2 row1 : Nat} {bits : Nat → Bool} {value : Bool}

/-! ## Filters -/

theorem fullPackStart_eq (n1 : Nat) : fullPackStart n1 = (n1 + 65535) / 65536 := by
  rw [fullPackStart]
  split <;> omega

theorem fullPackStop_near (f : Filter) (n2 : Nat) :
    n2 / 65536 ≤ f.fullPackStop n2 ∧ f.fullPackStop n2 ≤ n2 / 65536 + 1 := by
  rw [fullPackStop]
  split <;> omega

theorem Shaped.block_inside (shaped : f.Shaped rows) (lt : n2 < rows)
    (before : b < f.fullPackStop n2) :
    b < f.noBlocks ∧ b * 65536 + f.blockSize b ≤ n2 + 1 := by
  have blocks := shaped.noBlocks_eq
  have bits := shaped.bits_eq
  have inFilter : b < f.noBlocks := by
    rw [fullPackStop] at before
    split at before <;> omega
  refine ⟨inFilter, ?_⟩
  rw [shaped.blockSize_eq inFilter]
  rw [fullPackStop] at before
  split at before <;> omega

theorem checkBlocks_tells {whole : Nat → Bool} {first last : Option Bool}
    (shown : f.Shows rows bits) (lt : n2 < rows) (several : n1 / 65536 < n2 / 65536)
    (inFirst : row1 / 65536 = n1 / 65536) (aligned : n1 % 65536 = 0 → row1 = n1)
    (whole_iff : ∀ b < f.noBlocks, whole b = true ↔
      ∀ m < f.blockSize b, bits (b * 65536 + m) = value)
    (first_tells : n1 % 65536 ≠ 0 → (∀ b, n1 / 65536 < b → b < f.fullPackStop n2 → whole b = true) →
      Tells first (∀ n, row1 ≤ n → n ≤ n1 / 65536 * 65536 + 65535 → bits n = value))
    (last_tells : Tells last (∀ n, n2 / 65536 * 65536 ≤ n → n ≤ n2 → bits n = value)) :
    Tells (f.checkBlocks n1 n2 whole first last) (∀ n, row1 ≤ n → n ≤ n2 → bits n = value) := by
  have stops := f.fullPackStop_near n2
  have inside := fun b before => shown.toShaped.block_inside (b := b) lt before
  rw [checkBlocks, fullPackStart_eq]
  generalize f.fullPackStop n2 = stop at *
  by_cases allWhole : (range' ((n1 + 65535) / 65536) (stop - (n1 + 65535) / 65536)).all whole
  · rw [if_neg (by simp [allWhole])]
    rw [all_range'_iff] at allWhole
    have head : Tells (if n1 / 65536 = (n1 + 65535) / 65536 then some true else first)
        (∀ n, row1 ≤ n → n < (n1 + 65535) / 65536 * 65536 → bits n = value) := by
      split
      · exact tells_some ⟨fun _ n low high => by omega, fun _ => rfl⟩
      · have next : (n1 + 65535) / 65536 = n1 / 65536 + 1 := by omega
        rw [next] at allWhole ⊢
        simp only [Nat.succ_mul, Nat.lt_succ_iff]
        exact first_tells (by omega) allWhole
    have tail : Tells (if n2 / 65536 + 1 = stop then some true else last)
        (∀ n, stop * 65536 ≤ n → n ≤ n2 → bits n = value) := by
      split
      · exact tells_some ⟨fun _ n low high => by omega, fun _ => rfl⟩
      · have same : stop = n2 / 65536 := by omega
        rw [same]
        exact last_tells
    have joined : (∀ n, row1 ≤ n → n ≤ n2 → bits n = value) ↔
        (∀ n, row1 ≤ n → n < (n1 + 65535) / 65536 * 65536 → bits n = value) ∧
          ∀ n, stop * 65536 ≤ n → n ≤ n2 → bits n = value := by
      constructor
      · intro all
        exact ⟨fun n low high => all n low (by omega), fun n low high => all n (by omega) high⟩
      · rintro ⟨inHead, inTail⟩ n low high
        by_cases early : n < (n1 + 65535) / 65536 * 65536
        · exact inHead n low early
        · by_cases late : stop * 65536 ≤ n
          · exact inTail n late high
          · obtain ⟨inFilter, _⟩ := inside (n / 65536) (by omega)
            have block := (whole_iff _ inFilter).mp (allWhole (n / 65536) (by omega) (by omega))
            have row := block (n % 65536) (shown.offset_lt (by omega))
            rwa [show n / 65536 * 65536 + n % 65536 = n by omega] at row
    rw [joined]
    exact head.and tail
  · rw [if_pos (by rw [Bool.not_eq_true'] ; exact Bool.eq_false_iff.mpr allWhole)]
    refine tells_some ⟨nofun, fun all => absurd ?_ allWhole⟩
    refine all_range'_iff.mpr fun b low high => ?_
    obtain ⟨inFilter, stops⟩ := inside b high
    exact (whole_iff b inFilter).mpr fun m small => all _ (by omega) (by omega)

theorem Shaped.blockSize_first (shaped : f.Shaped rows) (lt : n2 < rows)
    (several : n1 / 65536 < n2 / 65536) : f.blockSize (n1 / 65536) = 65536 := by
  have blocks := shaped.noBlocks_eq
  rw [shaped.blockSize_eq (by omega)]
  omega

theorem rows_iff {first last : Nat} :
    (∀ m, first ≤ m → m ≤ last → bits (b * 65536 + m) = value) ↔
      ∀ n, b * 65536 + first ≤ n → n ≤ b * 65536 + last → bits n = value := by
  constructor
  · intro all n low high
    obtain ⟨m, rfl⟩ := Nat.exists_eq_add_of_le (Nat.le_of_add_right_le low)
    exact all m (le_of_add_le_add_left low) (le_of_add_le_add_left high)
  · intro all m low high
    exact all _ (Nat.add_le_add_left low _) (Nat.add_le_add_left high _)

theorem Shows.isEmptyBetween (shown : f.Shows rows bits) (le : n1 ≤ n2) (lt : n2 < rows) :
    Tells (f.isEmptyBetween n1 n2) (∀ n, n1 ≤ n → n ≤ n2 → bits n = false) := by
  have head : n1 / 65536 * 65536 + n1 % 65536 = n1 := div_add_mod' n1 65536
  have tail : n2 / 65536 * 65536 + n2 % 65536 = n2 := div_add_mod' n2 65536
  rw [Filter.isEmptyBetween]
  split
  · rename_i one
    subst one
    rw [shown.get_eq lt]
    refine tells_some ⟨fun clear n low high => ?_, fun none => ?_⟩
    · rw [le_antisymm high low]
      simpa using clear
    · simp [none n1 le_rfl le_rfl]
  · split
    · rename_i oneBlock
      have block := (shown.slot _ (shown.block_lt lt)).isEmptyBetween
        (by omega : n1 % 65536 ≤ n2 % 65536) (shown.offset_lt lt)
      rwa [rows_iff, ← oneBlock, head, oneBlock, tail, ← oneBlock] at block
    · have first := (shown.slot _ (shown.block_lt (by omega : n1 < rows))).isEmptyBetween
        (by omega : n1 % 65536 ≤ 65535) (by rw [shown.blockSize_first lt (by omega)]; decide)
      have last := (shown.slot _ (shown.block_lt lt)).isEmptyBetween (zero_le _)
        (shown.offset_lt lt)
      rw [rows_iff, head] at first
      rw [rows_iff, tail, add_zero] at last
      exact checkBlocks_tells shown lt (by omega) rfl (fun _ => rfl)
        (fun b inFilter => beq_iff_eq.trans
          ((shown.slot b inFilter).status_empty_iff (shown.blockSize_pos inFilter)))
        (fun _ _ => first) last

def fullFrom (f : Filter) (n1 n2 : Nat) : Nat :=
  n1 / 65536 * 65536 + (f.slots (n1 / 65536)).fullFrom (n1 % 65536)
    (if n1 / 65536 = n2 / 65536 then n2 % 65536 else 65535)

/-- `IsFullBetween` asks the first block, which is full up to a last one and has no bit block. -/
def MissingBlock (f : Filter) (n1 n2 : Nat) : Prop :=
  n1 / 65536 < n2 / 65536 ∧ n1 % 65536 ≠ 0 ∧ (f.slots (n1 / 65536)).status = .full ∧
    f.isFullBlock (n1 / 65536) = false ∧
    ∀ b, n1 / 65536 < b → b < f.fullPackStop n2 → f.isFullBlock b = true

section
variable (shown : f.Shows rows bits)
include shown

theorem Shows.isFullBlock_iff (lt : b < f.noBlocks) :
    f.isFullBlock b = true ↔ ∀ m < f.blockSize b, bits (b * 65536 + m) = true := by
  rw [isFullBlock, Bool.and_eq_true, beq_iff_eq, beq_iff_eq]
  exact (shown.slot b lt).lastOne_iff (shown.blockSize_pos lt)

theorem Shows.isFirstFull (lt : b < f.noBlocks) (size : f.blockSize b = 65536) (small : n1 ≤ 65535)
    (present : (f.slots b).status = .full → f.isFullBlock b = true) :
    Tells (f.isFirstFull b n1)
      (∀ m, (f.slots b).fullFrom n1 65535 ≤ m → m ≤ 65535 → bits (b * 65536 + m) = true) := by
  have slot := (shown.slot b lt).isFullBetween small (by rw [size]; decide)
  have full := shown.isFullBlock_iff lt
  rw [Filter.isFirstFull]
  split
  · rename_i empty
    rwa [Slot.isFullBetween, empty] at slot
  · rename_i notEmpty
    split
    · rename_i isFull
      refine tells_some ⟨fun _ m _ high => full.mp isFull m (by omega), fun _ => rfl⟩
    · rename_i notFull
      cases status : (f.slots b).status with
      | empty => exact absurd status notEmpty
      | full => exact absurd (present status) notFull
      | mixed => rwa [Slot.isFullBetween, status] at slot

theorem Shows.isFullBetween (le : n1 ≤ n2) (lt : n2 < rows) (present : ¬f.MissingBlock n1 n2) :
    Tells (f.isFullBetween n1 n2) (∀ n, f.fullFrom n1 n2 ≤ n → n ≤ n2 → bits n = true) := by
  have tail : n2 / 65536 * 65536 + n2 % 65536 = n2 := div_add_mod' n2 65536
  rw [Filter.isFullBetween, fullFrom]
  split
  · rename_i one
    subst one
    have start : (f.slots (n1 / 65536)).fullFrom (n1 % 65536) (n1 % 65536) = n1 % 65536 := by
      rw [Slot.fullFrom, Block.firstChecked, if_pos (Or.inl rfl), ite_self]
    rw [if_pos rfl, start, tail, shown.get_eq lt]
    refine tells_some ⟨fun set n low high => ?_, fun all => all n1 le_rfl le_rfl⟩
    rw [le_antisymm high low]
    exact set
  · split
    · rename_i oneBlock
      have block := (shown.slot _ (shown.block_lt lt)).isFullBetween
        (by omega : n1 % 65536 ≤ n2 % 65536) (shown.offset_lt lt)
      rwa [rows_iff, tail, ← oneBlock] at block
    · have last := (shown.slot _ (shown.block_lt lt)).isFullBetween (zero_le (n2 % 65536))
        (shown.offset_lt lt)
      rw [Slot.fullFrom_zero, rows_iff, tail, add_zero] at last
      have size := shown.blockSize_first lt (by omega : n1 / 65536 < n2 / 65536)
      have inBlock := (f.slots (n1 / 65536)).fullFrom_le (by omega : n1 % 65536 ≤ 65535)
      refine checkBlocks_tells shown lt (by omega) (by omega) (fun aligned => ?_)
        (fun b inFilter => shown.isFullBlock_iff inFilter) (fun inside whole => ?_) last
      · rw [aligned, Slot.fullFrom_zero, add_zero,
          Nat.div_mul_cancel (Nat.dvd_of_mod_eq_zero aligned)]
      · have first := shown.isFirstFull (shown.block_lt (by omega : n1 < rows)) size
          (by omega : n1 % 65536 ≤ 65535) (fun full => by
            by_contra notFull
            exact present ⟨by omega, inside, full, by simpa using notFull, whole⟩)
        rwa [rows_iff] at first

theorem isFullBetween_missing (lt : n2 < rows) (missing : f.MissingBlock n1 n2) :
    f.isFullBetween n1 n2 = none := by
  obtain ⟨several, inside, full, notFull, whole⟩ := missing
  have first : f.isFirstFull (n1 / 65536) (n1 % 65536) = none := by
    have slot := shown.slot _ (shown.block_lt (by omega : n1 < rows))
    rw [isFirstFull, if_neg (by simp [full]), if_neg (by simp [notFull])]
    generalize f.slots (n1 / 65536) = s at slot full
    cases slot with
    | empty => rfl
    | full => rfl
    | mixed => cases full
  have start : fullPackStart n1 = n1 / 65536 + 1 := if_neg inside
  rw [isFullBetween, if_neg (by omega), if_neg (by omega), checkBlocks, start, first,
    if_neg (by omega : n1 / 65536 ≠ n1 / 65536 + 1), all_range'_iff.mpr whole]
  rfl

theorem Shows.count_slot {m1 m2 : Nat} (lt : b < f.noBlocks)
    (le : m1 ≤ m2) (small : m2 < f.blockSize b) :
    ones bits (b * 65536 + m1) + (f.slots b).noOnesBetween m1 m2 =
      ones bits (b * 65536 + m2 + 1) := by
  have counted := (shown.slot b lt).noOnesBetween le small
  rw [add_assoc, ones_add, ones_add, ← counted, add_assoc]

theorem Shows.count_first (lt : n2 < rows) (several : n1 / 65536 < n2 / 65536) :
    ones bits n1 + (if n1 / 65536 = (n1 + 65535) / 65536 then 0
      else (f.slots (n1 / 65536)).noOnesBetween (n1 % 65536) 65535) =
        ones bits ((n1 + 65535) / 65536 * 65536) := by
  split
  · rw [show (n1 + 65535) / 65536 * 65536 = n1 by omega, add_zero]
  · have block := shown.count_slot (shown.block_lt (by omega : n1 < rows))
      (by omega : n1 % 65536 ≤ 65535) (by rw [shown.blockSize_first lt several]; decide)
    rw [div_add_mod'] at block
    rw [block, show n1 / 65536 * 65536 + 65535 + 1 = (n1 + 65535) / 65536 * 65536 by omega]

theorem Shows.count_last (lt : n2 < rows) :
    ones bits (min rows (f.fullPackStop n2 * 65536)) +
      (if n2 / 65536 + 1 = f.fullPackStop n2 then 0
        else (f.slots (n2 / 65536)).noOnesBetween 0 (n2 % 65536)) = ones bits (n2 + 1) := by
  have stops := f.fullPackStop_near n2
  split
  · rename_i complete
    obtain ⟨inFilter, inRange⟩ := shown.toShaped.block_inside lt
      (lt_of_lt_of_eq (lt_succ_self (n2 / 65536)) complete)
    rw [shown.blockSize_eq inFilter] at inRange
    rw [add_zero, show min rows (f.fullPackStop n2 * 65536) = n2 + 1 by omega]
  · have block := shown.count_slot (shown.block_lt lt) (zero_le (n2 % 65536)) (shown.offset_lt lt)
    rw [div_add_mod', add_zero] at block
    rw [show f.fullPackStop n2 = n2 / 65536 by omega, min_eq_right (by omega), block]

theorem Shows.noOnesBetween (le : n1 ≤ n2) (lt : n2 < rows) :
    ones bits n1 + f.noOnesBetween n1 n2 = ones bits (n2 + 1) := by
  rw [Filter.noOnesBetween]
  split
  · rename_i one
    subst one
    rw [shown.get_eq lt, ones_succ]
  · split
    · rename_i oneBlock
      have block := shown.count_slot (shown.block_lt lt) (by omega : n1 % 65536 ≤ n2 % 65536)
        (shown.offset_lt lt)
      rwa [div_add_mod', ← oneBlock, div_add_mod'] at block
    · have stops := f.fullPackStop_near n2
      have whole := forLoop_sum (fun i => (f.slots i).noOnes)
        (fun i => ones bits (min rows (i * 65536)))
        (by omega : (n1 + 65535) / 65536 ≤ f.fullPackStop n2) fun i _ high =>
          shown.count_block (shown.toShaped.block_inside lt (by omega)).1
      rw [min_eq_right (by omega), ← shown.count_first lt (by omega)] at whole
      rw [fullPackStart_eq, ← shown.count_last lt]
      dsimp only
      omega

end

structure RangeExact (f : Filter) (n1 n2 : Nat) : Prop where
  full : Tells (f.isFullBetween n1 n2) (∀ n, n1 ≤ n → n ≤ n2 → f.get n = true)
  empty : Tells (f.isEmptyBetween n1 n2) (∀ n, n1 ≤ n → n ≤ n2 → f.get n = false)
  count : f.noOnesBetween n1 n2 = ones (fun k => f.get (n1 + k)) (n2 + 1 - n1)

/-- The first block is there to be asked, and the rows between `n1` and the first row that is
tested make no difference. -/
def FullTested (f : Filter) (n1 n2 : Nat) : Prop :=
  ¬f.MissingBlock n1 n2 ∧
    ((∀ n, max n1 (f.fullFrom n1 n2) ≤ n → n ≤ n2 → f.get n = true) →
      ∀ n, min n1 (f.fullFrom n1 n2) ≤ n → n < max n1 (f.fullFrom n1 n2) → n ≤ n2 → f.get n = true)

/-- In every run whose `Reset(f2)` steps are safe the queries are exact just for the ranges on
which `IsFullBetween` tests the right rows. -/
theorem rangeExact_iff (built : Built ResetSafe f) (le : n1 ≤ n2) (lt : n2 < f.noObj) :
    f.RangeExact n1 n2 ↔ f.FullTested n1 n2 := by
  have shown := shows_of_built built
  constructor
  · rintro ⟨⟨answer, called, right⟩, _, _⟩
    have present : ¬f.MissingBlock n1 n2 := by
      intro missing
      rw [isFullBetween_missing shown lt missing] at called
      cases called
    obtain ⟨answer2, called2, tested⟩ := shown.isFullBetween le lt present
    rw [called, Option.some.injEq] at called2
    rw [← called2, right] at tested
    refine ⟨present, fun both n low _ high => ?_⟩
    rcases le_total n1 (f.fullFrom n1 n2) with order | order
    · rw [max_eq_right order] at both
      rw [min_eq_left order] at low
      exact tested.mpr both n low high
    · rw [max_eq_left order] at both
      rw [min_eq_right order] at low
      exact tested.mp both n low high
  · rintro ⟨present, same⟩
    refine ⟨?_, shown.isEmptyBetween le lt, ?_⟩
    · obtain ⟨answer, called, tested⟩ := shown.isFullBetween le lt present
      refine ⟨answer, called, tested.trans ⟨fun all n low high => ?_, fun all n low high => ?_⟩⟩
      · by_cases inTest : f.fullFrom n1 n2 ≤ n
        · exact all n inTest high
        · exact same (fun m low high => all m (by omega) high) n (by omega) (by omega) high
      · by_cases inRange : n1 ≤ n
        · exact all n inRange high
        · exact same (fun m low high => all m (by omega) high) n (by omega) (by omega) high
    · have counted := shown.noOnesBetween le lt
      have split := ones_add f.get n1 (n2 + 1 - n1)
      rw [Nat.add_sub_cancel' (by omega)] at split
      omega

/-- Rows 6 to 36 of 40, without rows 3 and 39; the first word is tested from bit 4 on. -/
theorem rangeExact_inside_words : (((construct 1 40 true).reset 3).reset 39).RangeExact 6 36 := by
  have all : Built ResetSafe (construct 1 40 true) := .ofRows (by decide : 40 ≤ rowLimit) rfl
  have built : Built ResetSafe (((construct 1 40 true).reset 3).reset 39) :=
    (all.update (.reset 3) (by decide : 3 < 40)).update (.reset 39) (by decide : 39 < 40)
  refine (rangeExact_iff built (by decide) (by decide : 36 < 40)).mpr ⟨?_, ?_⟩
  · exact fun missing => absurd missing.1 (by decide)
  · have tested : fullFrom (((construct 1 40 true).reset 3).reset 39) 6 36 = 4 := by decide
    have rows : ∀ n < 6, 4 ≤ n →
        (((construct 1 40 true).reset 3).reset 39).get n = true := by decide
    rw [tested]
    exact fun _ n low below _ => rows n below low

/-- Rows 1 to 32 of 33 are set and row 0 is not.  The first word is tested from bit 0 on. -/
theorem isFullBetween_misses_rows :
    ¬∀ f : Filter, Built ResetSafe f → ∀ n1 n2, n1 ≤ n2 → n2 < f.noObj → f.RangeExact n1 n2 := by
  intro exact_always
  have built : Built ResetSafe ((construct 1 33 true).reset 0) :=
    (Built.ofRows (by decide : 33 ≤ rowLimit) rfl).update (.reset 0) (by decide : 0 < 33)
  obtain ⟨answer, called, right⟩ := (exact_always _ built 1 32 (by decide) (by decide)).full
  have no : answer = false := Option.some.inj (called.symm.trans (by decide))
  have rows : ∀ n < 33, 1 ≤ n → ((construct 1 33 true).reset 0).get n = true := by decide
  have yes := right.mpr fun n low high => rows n (lt_succ_of_le high) low
  rw [no] at yes
  cases yes

end Filter

end Brighthouse.Core
