import Brighthouse.Core.FilterBlock

/-!
# What bit blocks hold

`Holds` relates a block to the bits it stands for: it answers `get` with them and its
counter is the number of ones among them.  Every operation of a block that holds some
bits leaves a block that holds the bits the operation is meant to produce.  Resetting
a range is the exception: when nothing is left the table may keep a stale bit, and
only the counter and the returned flag are right.
-/

set_option autoImplicit false

namespace Brighthouse.Core.Block

open Library.BitCount Library.Loop Library.WordTable Bool

structure Holds (b : Block) (size : Nat) (bits : Nat → Bool) : Prop where
  noObj_eq : b.noObj = size
  get_eq : ∀ m < size, b.get m = bits m
  noSetBits_eq : b.noSetBits = (ones bits size : Nat)

theorem get_eq_testBit (b : Block) (n : Nat) : b.get n = testBit b.blockTable n := by
  rw [get, lshift1, and_mask_ne_zero _ (Nat.mod_lt n (by decide)), testBit_eq]

variable {b : Block} {size n n1 n2 : Nat} {bits bits2 : Nat → Bool}

theorem Holds.congr (holds : b.Holds size bits) (same : ∀ m < size, bits m = bits2 m) :
    b.Holds size bits2 := by
  refine ⟨holds.noObj_eq, ?_, ?_⟩
  · intro m lt
    rw [holds.get_eq m lt, same m lt]
  · rw [holds.noSetBits_eq, ones_congr same]

theorem init_holds (size : Nat) (value : Bool) : (init size value).Holds size (fun _ => value) := by
  cases value with
  | false =>
    refine ⟨rfl, ?_, ?_⟩
    · intro m _
      rw [get_eq_testBit]
      exact testBit_cleared m
    · rw [ones_const, toNat_false, zero_mul]
      rfl
  | true =>
    refine ⟨rfl, ?_, ?_⟩
    · intro m _
      rw [get_eq_testBit, testBit_eq]
      have allOnes : (init size true).blockTable (m / 32) = BitVec.allOnes 32 := rfl
      rw [allOnes, BitVec.getLsbD_allOnes, decide_eq_true (Nat.mod_lt m (by decide))]
    · rw [ones_const, toNat_true, one_mul]
      rfl

section
variable (holds : b.Holds size bits)
include holds

theorem Holds.copyFrom : b.copyFrom.Holds size bits := by
  refine ⟨holds.noObj_eq, ?_, holds.noSetBits_eq⟩
  intro m lt
  have inTable : m / 32 < b.blockSize := by
    rw [blockSize, holds.noObj_eq]
    omega
  rw [← holds.get_eq m lt, get_eq_testBit, get_eq_testBit, testBit_eq, testBit_eq, Block.copyFrom]
  simp only [inTable, if_true]

/-! ## Flags -/

theorem Holds.empty_flag : (b.noSetBits == 0) = decide (ones bits size = 0) := by
  rw [holds.noSetBits_eq, Bool.eq_iff_iff, beq_iff_eq, decide_eq_true_eq]
  omega

theorem Holds.full_flag (notEmpty : ones bits size ≠ 0) :
    (b.noSetBits == 0 || b.noSetBits == b.noObj) = decide (ones bits size = size) := by
  rw [holds.noSetBits_eq, holds.noObj_eq, Bool.eq_iff_iff, Bool.or_eq_true, beq_iff_eq, beq_iff_eq,
    decide_eq_true_eq]
  omega

/-! ## Single bits -/

section
variable (lt : n < size)
include lt

theorem Holds.setBit (absent : bits n = false) :
    Holds { b with blockTable := setBit b.blockTable n, noSetBits := b.noSetBits + 1 } size
      (fill bits n (n + 1) true) := by
  refine ⟨holds.noObj_eq, ?_, ?_⟩
  · intro m small
    rw [get_eq_testBit, testBit_setBit, ← get_eq_testBit, holds.get_eq m small, fill_one]
    by_cases here : m = n <;> simp [here]
  · have counted := ones_fill_one bits true lt
    rw [absent, toNat_false, toNat_true] at counted
    show b.noSetBits + 1 = _
    rw [holds.noSetBits_eq]
    omega

theorem Holds.clearBit (present : bits n = true) :
    Holds { b with blockTable := clearBit b.blockTable n, noSetBits := b.noSetBits - 1 } size
      (fill bits n (n + 1) false) := by
  refine ⟨holds.noObj_eq, ?_, ?_⟩
  · intro m small
    rw [get_eq_testBit, testBit_clearBit, ← get_eq_testBit, holds.get_eq m small, fill_one]
    by_cases here : m = n <;> simp [here]
  · have counted := ones_fill_one bits false lt
    rw [present, toNat_false, toNat_true] at counted
    show b.noSetBits - 1 = _
    rw [holds.noSetBits_eq]
    omega

theorem Holds.set : (b.set n).1.Holds size (fill bits n (n + 1) true) := by
  rw [Block.set]
  split
  · rename_i present
    rw [holds.get_eq n lt] at present
    rw [fill_same present]
    exact holds
  · rename_i absent
    rw [holds.get_eq n lt, not_eq_true] at absent
    exact holds.setBit lt absent

theorem Holds.reset : (b.reset n).1.Holds size (fill bits n (n + 1) false) := by
  rw [Block.reset]
  split
  · rename_i present
    rw [holds.get_eq n lt] at present
    exact holds.clearBit lt present
  · rename_i absent
    rw [holds.get_eq n lt, not_eq_true] at absent
    rw [fill_same absent]
    exact holds

theorem Holds.set_flag : (b.set n).2 = decide (ones (fill bits n (n + 1) true) size = size) := by
  refine (holds.set lt).full_flag ?_
  intro none
  have bit := ones_eq_zero_iff.mp none n lt
  rw [fill_inside (le_refl n) (by omega)] at bit
  cases bit

theorem Holds.reset_flag : (b.reset n).2 = decide (ones (fill bits n (n + 1) false) size = 0) :=
  (holds.reset lt).empty_flag

end

end

/-! ## Setting a range -/

/-- What the loop of `setBetween` keeps: the bits before `i` are set, and a block that
became full has left the loop. -/
def Filling (size : Nat) (bits : Nat → Bool) (n1 i : Nat) (b : Block) : Prop :=
  b.Holds size (fill bits n1 i true) ∧ (n1 < i → ones (fill bits n1 i true) size ≠ size)

def Filled (size : Nat) (bits : Nat → Bool) (n1 n2 : Nat) (b : Block) : Prop :=
  b.Holds size (fill bits n1 (n2 + 1) true) ∧ ones (fill bits n1 (n2 + 1) true) size = size

theorem set_filling {i : Nat} (low : n1 ≤ i) (high : i ≤ n2) (lt : n2 < size)
    (inv : Filling size bits n1 i b) :
    (b.set i).2 = true ∧ Filled size bits n1 n2 (b.set i).1 ∨
      (b.set i).2 = false ∧ Filling size bits n1 (i + 1) (b.set i).1 := by
  have next := inv.1.set (n := i) (by omega)
  have flag := inv.1.set_flag (n := i) (by omega)
  rw [fill_fill low (Nat.le_succ i)] at next flag
  by_cases full : ones (fill bits n1 (i + 1) true) size = size
  · -- a full block stays as it is when the rest of the range is set
    have rest := fill_of_all (ones_eq_iff.mp full) (by omega : i + 1 ≤ n2 + 1)
    refine .inl ⟨by rw [flag, decide_eq_true full], next.congr ?_, ones_eq_iff.mpr rest⟩
    intro m small
    rw [rest m small, ones_eq_iff.mp full m small]
  · exact .inr ⟨by rw [flag, decide_eq_false full], next, fun _ => full⟩

section
variable (holds : b.Holds size bits) (le : n1 ≤ n2) (lt : n2 < size)
include holds le lt

theorem Holds.setBetween_filled :
    (b.setBetween n1 n2).2 = true ∧ Filled size bits n1 n2 (b.setBetween n1 n2).1 ∨
      (b.setBetween n1 n2).2 = false ∧ Filling size bits n1 (n2 + 1) (b.setBetween n1 n2).1 := by
  have range : n1 + (n2 + 1 - n1) = n2 + 1 := by omega
  have start : Filling size bits n1 n1 b :=
    ⟨(fill_empty bits n1 true).symm ▸ holds, fun lt => absurd lt (lt_irrefl n1)⟩
  have loop := breakLoop_induct (Filling size bits n1) (Filled size bits n1 n2) (n2 + 1 - n1) start
    fun i s low high inv => set_filling low (by omega : i ≤ n2) lt inv
  rw [range] at loop
  exact loop

theorem Holds.setBetween : (b.setBetween n1 n2).1.Holds size (fill bits n1 (n2 + 1) true) := by
  rcases holds.setBetween_filled le lt with ⟨_, result, _⟩ | ⟨_, result, _⟩
  · exact result
  · exact result

theorem Holds.setBetween_flag :
    (b.setBetween n1 n2).2 = decide (ones (fill bits n1 (n2 + 1) true) size = size) := by
  rcases holds.setBetween_filled le lt with ⟨flag, _, full⟩ | ⟨flag, _, notFull⟩
  · rw [flag, decide_eq_true full]
  · rw [flag, decide_eq_false (notFull (by omega))]

end

/-! ## Resetting a range -/

variable (table : Table)

theorem testBit_clearInWord {word first turns : Nat} (inWord : first + turns ≤ 32) :
    testBit (clearInWord table word first turns) =
      fill (testBit table) (word * 32 + first) (word * 32 + (first + turns)) false := by
  refine forLoop_induct
    (fun i t => testBit t = fill (testBit table) (word * 32 + first) (word * 32 + i) false)
    turns (fill_empty _ _ _).symm ?_
  intro i t low high inv
  funext j
  rw [testBit_clearIn t word (by omega) j, inv]
  by_cases here : j = word * 32 + i
  · rw [decide_eq_true here, Bool.not_true, Bool.false_and, fill_inside (by omega) (by omega)]
  · rw [decide_eq_false here, Bool.not_false, Bool.true_and]
    by_cases inside : word * 32 + first ≤ j ∧ j < word * 32 + i
    · rw [fill_inside inside.1 inside.2, fill_inside inside.1 (by omega)]
    · rw [fill_outside (by omega), fill_outside (by omega)]

theorem testBit_clearWord (i : Nat) :
    testBit (Function.update table i 0#32) =
      fill (testBit table) (i * 32) ((i + 1) * 32) false := by
  funext j
  rw [testBit_update]
  by_cases here : j / 32 = i
  · rw [if_pos here, fill_inside (by omega) (by omega), BitVec.getLsbD_zero]
  · rw [if_neg here, fill_outside (by omega)]

theorem testBit_clearWords (first turns : Nat) :
    testBit (forLoop (fun i t => Function.update t i 0#32) first turns table) =
      fill (testBit table) (first * 32) ((first + turns) * 32) false := by
  refine forLoop_induct
    (fun i t => testBit t = fill (testBit table) (first * 32) (i * 32) false)
    turns (fill_empty _ _ _).symm ?_
  intro i t low high inv
  rw [testBit_clearWord, inv, fill_fill (by omega) (by omega)]

theorem testBit_resetFullBetween (b : Block) (le : n1 ≤ n2) :
    testBit (b.resetFullBetween n1 n2).blockTable =
      fill (testBit b.blockTable) n1 (n2 + 1) false := by
  have start : n1 / 32 * 32 + n1 % 32 = n1 := by omega
  rw [resetFullBetween]
  split
  · rw [testBit_clearInWord _ (by omega)]
    congr 1
    omega
  · have firstStop : n1 / 32 * 32 + (n1 % 32 + (32 - n1 % 32)) = (n1 / 32 + 1) * 32 := by omega
    have innerStop : (n1 / 32 + 1 + (n2 / 32 - (n1 / 32 + 1))) * 32 = n2 / 32 * 32 + 0 := by omega
    have stop : n2 / 32 * 32 + (0 + (n2 % 32 + 1)) = n2 + 1 := by omega
    rw [testBit_clearInWord _ (by omega), testBit_clearWords, testBit_clearInWord _ (by omega),
      start, firstStop, innerStop, stop, fill_fill (by omega) (by omega),
      fill_fill (by omega) (by omega)]

theorem Holds.resetFullBetween (holds : b.Holds size bits) (full : ones bits size = size)
    (le : n1 ≤ n2) (lt : n2 < size) :
    (b.resetFullBetween n1 n2).Holds size (fill bits n1 (n2 + 1) false) := by
  refine ⟨holds.noObj_eq, ?_, ?_⟩
  · intro m small
    rw [get_eq_testBit, testBit_resetFullBetween b le]
    by_cases inside : n1 ≤ m ∧ m < n2 + 1
    · rw [fill_inside inside.1 inside.2, fill_inside inside.1 inside.2]
    · rw [fill_outside (by omega), fill_outside (by omega), ← get_eq_testBit, holds.get_eq m small]
  · have counted := ones_fill bits false (by omega : n1 ≤ n2 + 1) (by omega : n2 + 1 ≤ size)
    have inside : ones (fun m => bits (n1 + m)) (n2 + 1 - n1) = n2 + 1 - n1 :=
      ones_eq_iff.mpr fun m small => ones_eq_iff.mp full (n1 + m) (by omega)
    rw [toNat_false] at counted
    show (b.noObj : Int) - (n2 - n1 + 1) = _
    rw [holds.noObj_eq]
    omega

structure Emptied (size : Nat) (bits : Nat → Bool) (n1 n2 : Nat) (b : Block) : Prop where
  noObj_eq : b.noObj = size
  noSetBits_eq : b.noSetBits = 0
  none_left : ones (fill bits n1 (n2 + 1) false) size = 0

/-- What the loops of `resetBetween` keep: the bits before `i` are reset. -/
def Clearing (size : Nat) (bits : Nat → Bool) (n1 i : Nat) (b : Block) : Prop :=
  b.Holds size (fill bits n1 i false)

theorem Clearing.emptied {i : Nat} (inv : Clearing size bits n1 i b) (le : i ≤ n2 + 1)
    (zero : b.noSetBits = 0) : Emptied size bits n1 n2 b := by
  refine ⟨inv.noObj_eq, zero, ?_⟩
  have none : ones (fill bits n1 i false) size = 0 := by
    have counter := inv.noSetBits_eq
    omega
  exact ones_eq_zero_iff.mpr (fill_of_all (ones_eq_zero_iff.mp none) le)

theorem resetInWord_clearing {word i : Nat} (inWord : i < 32) (low : n1 ≤ word * 32 + i)
    (high : word * 32 + i ≤ n2) (lt : n2 < size) (inv : Clearing size bits n1 (word * 32 + i) b) :
    (resetInWord word i b).2 = true ∧ Emptied size bits n1 n2 (resetInWord word i b).1 ∨
      (resetInWord word i b).2 = false ∧
        Clearing size bits n1 (word * 32 + (i + 1)) (resetInWord word i b).1 := by
  have wordOf : (word * 32 + i) / 32 = word := by omega
  have bitOf : (word * 32 + i) % 32 = i := by omega
  have tested : (b.blockTable word &&& lshift1 i != 0#32) = b.get (word * 32 + i) := by
    rw [get, wordOf, bitOf]
  have cleared : clearIn b.blockTable word i = clearBit b.blockTable (word * 32 + i) := by
    rw [clearBit, wordOf, bitOf]
  have advance : ∀ s : Block,
      s.Holds size (fill (fill bits n1 (word * 32 + i) false) (word * 32 + i) (word * 32 + i + 1)
        false) → Clearing size bits n1 (word * 32 + (i + 1)) s := by
    intro s next
    rw [fill_fill low (Nat.le_succ _)] at next
    exact next
  rw [resetInWord, tested, inv.get_eq _ (by omega)]
  cases bit : fill bits n1 (word * 32 + i) false (word * 32 + i) with
  | false =>
    refine .inr ⟨rfl, advance b ?_⟩
    rw [fill_same bit]
    exact inv
  | true =>
    have next := advance _ (inv.clearBit (by omega) bit)
    rw [← cleared] at next
    rw [if_pos rfl]
    dsimp only
    split
    · rename_i zero
      have counted : Emptied size bits n1 n2 _ := next.emptied (by omega) zero
      exact .inl ⟨rfl, counted.noObj_eq, zero, counted.none_left⟩
    · exact .inr ⟨rfl, next⟩

theorem calculateBinSum_word (i : Nat) :
    calculateBinSum (table i) = ones (fun m => testBit table (i * 32 + m)) 32 := by
  rw [calculateBinSum_eq]
  refine ones_congr fun m lt => ?_
  have wordOf : (i * 32 + m) / 32 = i := by omega
  have bitOf : (i * 32 + m) % 32 = m := by omega
  rw [testBit_eq, wordOf, bitOf]

section
variable {i : Nat} (low : n1 ≤ i * 32) (high : (i + 1) * 32 ≤ n2) (lt : n2 < size)
  (inv : Clearing size bits n1 (i * 32) b)
include low high lt inv

theorem Clearing.resetWord : Clearing size bits n1 ((i + 1) * 32) (resetWord i b).1 := by
  have filled : fill (fill bits n1 (i * 32) false) (i * 32) ((i + 1) * 32) false =
      fill bits n1 ((i + 1) * 32) false := fill_fill low (by omega)
  refine ⟨inv.noObj_eq, ?_, ?_⟩
  · intro m small
    have table : testBit (Block.resetWord i b).1.blockTable =
        fill (testBit b.blockTable) (i * 32) ((i + 1) * 32) false := testBit_clearWord _ i
    rw [get_eq_testBit, table, ← filled]
    by_cases inside : i * 32 ≤ m ∧ m < (i + 1) * 32
    · rw [fill_inside inside.1 inside.2, fill_inside inside.1 inside.2]
    · rw [fill_outside (by omega), ← get_eq_testBit, inv.get_eq m small]
      exact (fill_outside (by omega)).symm
  · have counted := ones_fill (fill bits n1 (i * 32) false) false
      (by omega : i * 32 ≤ (i + 1) * 32) (by omega : (i + 1) * 32 ≤ size)
    have inWord : (i + 1) * 32 - i * 32 = 32 := by omega
    have word : ones (fun m => fill bits n1 (i * 32) false (i * 32 + m)) 32 =
        calculateBinSum (b.blockTable i) := by
      rw [calculateBinSum_word]
      refine ones_congr fun m small => ?_
      rw [← get_eq_testBit, inv.get_eq _ (by omega)]
    rw [filled, inWord, word, toNat_false] at counted
    have counter := inv.noSetBits_eq
    show b.noSetBits - (calculateBinSum (b.blockTable i) : Nat) = _
    omega

theorem resetWord_clearing :
    (resetWord i b).2 = true ∧ Emptied size bits n1 n2 (resetWord i b).1 ∨
      (resetWord i b).2 = false ∧ Clearing size bits n1 ((i + 1) * 32) (resetWord i b).1 := by
  have next := inv.resetWord low high lt
  cases flag : (resetWord i b).2 with
  | true => exact .inl ⟨rfl, next.emptied (by omega) (beq_iff_eq.mp flag)⟩
  | false => exact .inr ⟨rfl, next⟩

end

/-- Either the bits before `i` are reset, or nothing is left and the work is over. -/
def Cleared (size : Nat) (bits : Nat → Bool) (n1 n2 i : Nat) (b : Block) : Prop :=
  Clearing size bits n1 i b ∨ Emptied size bits n1 n2 b

theorem breakLoop_cleared {body : Nat → Block → Block × Bool} (position : Nat → Nat)
    {first : Nat} (turns : Nat) (start : Clearing size bits n1 (position first) b)
    (step : ∀ i s, first ≤ i → i < first + turns → Clearing size bits n1 (position i) s →
      (body i s).2 = true ∧ Emptied size bits n1 n2 (body i s).1 ∨
        (body i s).2 = false ∧ Clearing size bits n1 (position (i + 1)) (body i s).1) :
    Cleared size bits n1 n2 (position (first + turns)) (breakLoop body first turns b).1 := by
  have loop := breakLoop_induct (fun i => Clearing size bits n1 (position i))
    (Emptied size bits n1 n2) turns start step
  rcases loop with ⟨_, emptied⟩ | ⟨_, clearing⟩
  · exact .inr emptied
  · exact .inl clearing

theorem Cleared.guarded {i j : Nat} {next : Block} (state : Cleared size bits n1 n2 i b)
    (le : i ≤ n2 + 1) (run : Clearing size bits n1 i b → Cleared size bits n1 n2 j next) :
    Cleared size bits n1 n2 j (if 0 < b.noSetBits then next else b) := by
  rcases state with clearing | emptied
  · by_cases left : 0 < b.noSetBits
    · rw [if_pos left]
      exact run clearing
    · rw [if_neg left]
      have counter := clearing.noSetBits_eq
      exact .inr (clearing.emptied le (by omega))
  · rw [if_neg (by rw [emptied.noSetBits_eq]; decide)]
    exact .inr emptied

theorem Holds.resetFirstWord (holds : b.Holds size bits) (lt : n2 < size)
    (several : n1 / 32 < n2 / 32) :
    Cleared size bits n1 n2 ((n1 / 32 + 1) * 32)
      (breakLoop (resetInWord (n1 / 32)) (n1 % 32) (32 - n1 % 32) b).1 := by
  have here : n1 / 32 * 32 + n1 % 32 = n1 := by omega
  have stop : n1 / 32 * 32 + (n1 % 32 + (32 - n1 % 32)) = (n1 / 32 + 1) * 32 := by omega
  have start : Clearing size bits n1 (n1 / 32 * 32 + n1 % 32) b := by
    rw [here, Clearing, fill_empty]
    exact holds
  rw [← stop]
  refine breakLoop_cleared (n1 / 32 * 32 + ·) (32 - n1 % 32) start ?_
  intro i s low high inv
  exact resetInWord_clearing (by omega) (by omega) (by omega) lt inv

theorem Clearing.resetInnerWords (inv : Clearing size bits n1 ((n1 / 32 + 1) * 32) b)
    (lt : n2 < size) (several : n1 / 32 < n2 / 32) :
    Cleared size bits n1 n2 (n2 / 32 * 32)
      (breakLoop Block.resetWord (n1 / 32 + 1) (n2 / 32 - (n1 / 32 + 1)) b).1 := by
  have stop : n1 / 32 + 1 + (n2 / 32 - (n1 / 32 + 1)) = n2 / 32 := by omega
  nth_rewrite 1 [← stop]
  refine breakLoop_cleared (· * 32) (n2 / 32 - (n1 / 32 + 1)) inv ?_
  intro i s low high begun
  exact resetWord_clearing (by omega) (by omega) lt begun

theorem Clearing.resetLastWord (inv : Clearing size bits n1 (n2 / 32 * 32) b) (lt : n2 < size)
    (several : n1 / 32 < n2 / 32) :
    Cleared size bits n1 n2 (n2 + 1)
      (breakLoop (resetInWord (n2 / 32)) 0 (n2 % 32 + 1) b).1 := by
  have stop : n2 / 32 * 32 + (0 + (n2 % 32 + 1)) = n2 + 1 := by omega
  rw [← stop]
  refine breakLoop_cleared (n2 / 32 * 32 + ·) (n2 % 32 + 1) inv ?_
  intro i s low high begun
  exact resetInWord_clearing (by omega) (by omega) (by omega) lt begun

section
variable (holds : b.Holds size bits)
include holds

theorem Holds.resetWordsBetween (lt : n2 < size) (several : n1 / 32 < n2 / 32) :
    Cleared size bits n1 n2 (n2 + 1) (b.resetWordsBetween n1 n2) := by
  refine Cleared.guarded (i := n2 / 32 * 32) ?_ (by omega) ?_
  · refine (holds.resetFirstWord lt several).guarded (by omega) ?_
    intro begun
    exact begun.resetInnerWords lt several
  · intro begun
    exact begun.resetLastWord lt several

section
variable (le : n1 ≤ n2) (lt : n2 < size)
include le lt

theorem Holds.resetEachBetween :
    (forLoop (fun i (b : Block) => (b.reset i).1) n1 (n2 + 1 - n1) b).Holds size
      (fill bits n1 (n2 + 1) false) := by
  have range : n1 + (n2 + 1 - n1) = n2 + 1 := by omega
  have start : b.Holds size (fill bits n1 n1 false) := by
    rw [fill_empty]
    exact holds
  have loop := forLoop_induct (fun i (s : Block) => s.Holds size (fill bits n1 i false))
    (n2 + 1 - n1) start fun i s low high inv => by
      have next := inv.reset (n := i) (by omega)
      rw [fill_fill low (Nat.le_succ i)] at next
      exact next
  rw [range] at loop
  exact loop

theorem Holds.resetBetween_cleared : Cleared size bits n1 n2 (n2 + 1) (b.resetBetween n1 n2).1 := by
  rw [resetBetween]
  split
  · have all : ones bits size = size := by
      have counter := holds.noSetBits_eq
      have rows := holds.noObj_eq
      omega
    exact .inl (holds.resetFullBetween all le lt)
  · split
    · exact .inl (holds.resetEachBetween le lt)
    · exact holds.resetWordsBetween lt (by omega)

/-- The flag of `resetBetween` is right, and so is the block unless it is empty. -/
theorem Holds.resetBetween_flag :
    (b.resetBetween n1 n2).2 = decide (ones (fill bits n1 (n2 + 1) false) size = 0) := by
  rcases holds.resetBetween_cleared le lt with clearing | emptied
  · exact clearing.empty_flag
  · rw [decide_eq_true emptied.none_left]
    exact beq_iff_eq.mpr emptied.noSetBits_eq

theorem Holds.resetBetween (someLeft : ones (fill bits n1 (n2 + 1) false) size ≠ 0) :
    (b.resetBetween n1 n2).1.Holds size (fill bits n1 (n2 + 1) false) := by
  rcases holds.resetBetween_cleared le lt with clearing | emptied
  · exact clearing
  · exact absurd emptied.none_left someLeft

end

end

end Brighthouse.Core.Block
