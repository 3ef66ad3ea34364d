import Brighthouse.Core.FilterBlockSpec

/-!
# Bitwise operations on bit blocks

Conjunction, disjunction and complement of blocks with the same number of rows, and
growing a block, all in terms of the bits the blocks hold.
-/

set_option autoImplicit false

namespace Brighthouse.Core.Block

open Library.BitCount Library.Loop Library.WordTable Function

variable {b b2 : Block} {size n : Nat} {bits bits2 kept : Nat → Bool}

/-! ## Conjunction -/

def keptBefore (bits kept : Nat → Bool) (i : Nat) : Nat → Bool :=
  fun m => bits m && (decide (i ≤ m) || kept m)

theorem keptBefore_succ (bits kept : Nat → Bool) (i : Nat) :
    keptBefore bits kept (i + 1) =
      if kept i then keptBefore bits kept i else fill (keptBefore bits kept i) i (i + 1) false := by
  funext m
  by_cases here : m = i
  · subst here
    cases keep : kept m <;> simp [keptBefore, keep, fill_one]
  · have later : i + 1 ≤ m ↔ i ≤ m := by omega
    cases keep : kept i <;> simp [keptBefore, later, fill_one, here]

variable {i : Nat}

theorem Holds.keep_step (inv : b.Holds size (keptBefore bits kept i)) (lt : i < size) :
    Holds (if b.get i && !kept i then (b.reset i).1 else b) size
      (keptBefore bits kept (i + 1)) := by
  rw [keptBefore_succ]
  cases keep : kept i with
  | true =>
    rw [Bool.not_true, Bool.and_false]
    exact inv
  | false =>
    cases bit : b.get i with
    | true => exact inv.reset lt
    | false =>
      rw [inv.get_eq i lt] at bit
      rw [fill_same bit]
      exact inv

section
variable (holds : b.Holds size bits)
include holds

theorem Holds.keep : (b.keep kept size).1.Holds size (fun m => bits m && kept m) := by
  have start : b.Holds size (keptBefore bits kept 0) := by
    refine holds.congr fun m _ => ?_
    rw [keptBefore, decide_eq_true (Nat.zero_le m), Bool.true_or, Bool.and_true]
  have loop := forLoop_induct (fun i (s : Block) => s.Holds size (keptBefore bits kept i)) size
    start
    fun i s low high inv => inv.keep_step (by omega)
  refine loop.congr fun m lt => ?_
  rw [keptBefore, decide_eq_false (by omega), Bool.false_or]

section
variable (holds2 : b2.Holds size bits2)
include holds2

theorem Holds.and : (b.and b2).1.Holds size (fun m => bits m && bits2 m) := by
  rw [Block.and, holds.noObj_eq, holds2.noObj_eq, min_self]
  refine holds.keep.congr fun m lt => ?_
  rw [holds2.get_eq m lt]

theorem Holds.andNot : (b.andNot b2).1.Holds size (fun m => bits m && !bits2 m) := by
  rw [Block.andNot, holds.noObj_eq, holds2.noObj_eq, min_self]
  refine holds.keep.congr fun m lt => ?_
  rw [holds2.get_eq m lt]

end

end

/-! ## Disjunction -/

structure WordsJoined (t t2 : Table) (size i : Nat) (b : Block) : Prop where
  noObj_eq : b.noObj = size
  testBit_eq : ∀ m, testBit b.blockTable m = (testBit t m || (decide (m < i * 32) && testBit t2 m))
  noSetBits_eq : b.noSetBits = (ones (fun m => testBit t m || testBit t2 m) (i * 32) : Nat)

theorem WordsJoined.step {t t2 : Table} (inv : WordsJoined t t2 size i b) :
    WordsJoined t t2 size (i + 1)
      { b with
        blockTable := update b.blockTable i (b.blockTable i ||| t2 i)
        noSetBits := b.noSetBits + calculateBinSum (b.blockTable i ||| t2 i) } := by
  have table : ∀ m, testBit (update b.blockTable i (b.blockTable i ||| t2 i)) m =
      (testBit t m || (decide (m < (i + 1) * 32) && testBit t2 m)) := by
    intro m
    rw [testBit_update]
    split
    · rename_i inWord
      have old := inv.testBit_eq m
      rw [Library.WordTable.testBit_eq, inWord, decide_eq_false (by omega), Bool.false_and,
        Bool.or_false] at old
      rw [BitVec.getLsbD_or, old, decide_eq_true (by omega), Bool.true_and,
          Library.WordTable.testBit_eq t2,
        inWord]
    · rename_i otherWord
      have same : m < (i + 1) * 32 ↔ m < i * 32 := by omega
      rw [inv.testBit_eq m, decide_eq_decide.mpr same]
  refine ⟨inv.noObj_eq, table, ?_⟩
  have word : calculateBinSum (b.blockTable i ||| t2 i) =
      ones (fun m => testBit t (i * 32 + m) || testBit t2 (i * 32 + m)) 32 := by
    have counted := calculateBinSum_word
      (update b.blockTable i (b.blockTable i ||| t2 i)) i
    rw [update_self] at counted
    rw [counted]
    refine ones_congr fun m lt => ?_
    rw [table, decide_eq_true (by omega), Bool.true_and]
  have next : (i + 1) * 32 = i * 32 + 32 := by omega
  show b.noSetBits + (calculateBinSum (b.blockTable i ||| t2 i) : Nat) = _
  rw [inv.noSetBits_eq, next, ones_add]
  omega

structure RowsJoined (bits bits2 : Nat → Bool) (size n : Nat) (b : Block) : Prop where
  noObj_eq : b.noObj = size
  get_eq : ∀ m < size, b.get m = (bits m || (decide (m < n) && bits2 m))
  noSetBits_eq : b.noSetBits = (ones (fun m => bits m || bits2 m) n : Nat)

theorem WordsJoined.rowsJoined {s : Block} (words : WordsJoined b.blockTable b2.blockTable size i s)
    (holds : b.Holds size bits) (holds2 : b2.Holds size bits2) (le : i * 32 ≤ size) :
    RowsJoined bits bits2 size (i * 32) s := by
  refine ⟨words.noObj_eq, ?_, ?_⟩
  · intro m lt
    rw [get_eq_testBit, words.testBit_eq, ← get_eq_testBit, ← get_eq_testBit, holds.get_eq m lt,
      holds2.get_eq m lt]
  · rw [words.noSetBits_eq]
    refine congrArg _ (ones_congr fun m lt => ?_)
    rw [← get_eq_testBit, ← get_eq_testBit, holds.get_eq m (by omega), holds2.get_eq m (by omega)]

theorem RowsJoined.advance {next : Block} (inv : RowsJoined bits bits2 size n b)
    (rows : next.noObj = b.noObj) (others : ∀ m, m ≠ n → next.get m = b.get m)
    (here : next.get n = (bits n || bits2 n))
    (counter : next.noSetBits = b.noSetBits + (bits n || bits2 n).toNat) :
    RowsJoined bits bits2 size (n + 1) next := by
  refine ⟨rows.trans inv.noObj_eq, ?_, ?_⟩
  · intro m small
    by_cases same : m = n
    · rw [same, here, decide_eq_true (Nat.lt_succ_self n), Bool.true_and]
    · have before : m < n + 1 ↔ m < n := by omega
      rw [others m same, inv.get_eq m small, decide_eq_decide.mpr before]
  · rw [counter, inv.noSetBits_eq, ones_succ]
    omega

theorem RowsJoined.step (inv : RowsJoined bits bits2 size n b) (holds2 : b2.Holds size bits2)
    (lt : n < size) :
    RowsJoined bits bits2 size (n + 1)
      (if b.get n then { b with noSetBits := b.noSetBits + 1 }
        else if b2.get n then (b.set n).1
        else b) := by
  have here := inv.get_eq n lt
  rw [decide_eq_false (lt_irrefl n), Bool.false_and, Bool.or_false] at here
  rw [set, holds2.get_eq n lt, here]
  cases bit : bits n with
  | true =>
    refine inv.advance rfl (fun _ _ => rfl) ?_ ?_
    · rw [bit]
      exact here.trans bit
    · rw [bit]
      rfl
  | false =>
    cases bit2 : bits2 n with
    | true =>
      refine inv.advance rfl ?_ ?_ ?_
      · intro m other
        show get { b with blockTable := setBit b.blockTable n, .. } m = b.get m
        rw [get_eq_testBit, testBit_setBit, ← get_eq_testBit, decide_eq_false other, Bool.false_or]
      · show get { b with blockTable := setBit b.blockTable n, .. } n = _
        rw [get_eq_testBit, testBit_setBit, bit, bit2, decide_eq_true rfl]
        rfl
      · rw [bit, bit2]
        rfl
    | false =>
      refine inv.advance rfl (fun _ _ => rfl) ?_ ?_
      · rw [bit, bit2]
        exact here.trans bit
      · rw [bit, bit2]
        exact (add_zero _).symm

theorem Holds.or (holds : b.Holds size bits) (holds2 : b2.Holds size bits2) :
    (b.or b2).1.Holds size (fun m => bits m || bits2 m) := by
  have wordsStart : WordsJoined b.blockTable b2.blockTable size 0 { b with noSetBits := 0 } := by
    refine ⟨holds.noObj_eq, ?_, ?_⟩
    · intro m
      rw [decide_eq_false (by omega), Bool.false_and, Bool.or_false]
    · rfl
  have words := forLoop_induct (WordsJoined b.blockTable b2.blockTable size) (b.noObj / 32)
    wordsStart fun i s _ _ inv => inv.step
  rw [zero_add] at words
  have rowsStart := words.rowsJoined holds holds2 (by rw [holds.noObj_eq]; omega)
  have rows := forLoop_induct (RowsJoined bits bits2 size) (b.noObj % 32) rowsStart
    fun n s _ high inv => inv.step holds2 (by have := holds.noObj_eq; omega)
  have all : b.noObj / 32 * 32 + b.noObj % 32 = size := by
    have := holds.noObj_eq
    omega
  rw [all] at rows
  refine ⟨rows.noObj_eq, ?_, rows.noSetBits_eq⟩
  intro m lt
  have bit := rows.get_eq m lt
  rw [decide_eq_true lt] at bit
  exact bit

/-! ## Complement -/

def toggled (bits : Nat → Bool) (first n : Nat) : Nat → Bool :=
  fun m => if first ≤ m ∧ m < n then !bits m else bits m

theorem toggled_succ {first : Nat} (le : first ≤ n) :
    toggled bits first (n + 1) =
      fill (toggled bits first n) n (n + 1) (!toggled bits first n n) := by
  funext m
  rw [fill_one]
  by_cases here : m = n
  · rw [if_pos here, here, toggled, toggled, if_pos (by omega), if_neg (by omega)]
  · rw [if_neg here, toggled, toggled]
    by_cases inside : first ≤ m ∧ m < n
    · rw [if_pos inside, if_pos (by omega)]
    · rw [if_neg inside, if_neg (by omega)]

theorem Holds.toggle_step {first : Nat} (inv : b.Holds size (toggled bits first n))
    (le : first ≤ n) (lt : n < size) :
    Holds (if b.get n then (b.reset n).1 else (b.set n).1) size (toggled bits first (n + 1)) := by
  rw [toggled_succ le, ← inv.get_eq n lt]
  cases b.get n with
  | true => exact inv.reset lt
  | false => exact inv.set lt

theorem testBit_notWord {table t : Table} (inv : testBit t = toggled (testBit table) 0 (i * 32)) :
    testBit (update t i (~~~t i)) = toggled (testBit table) 0 ((i + 1) * 32) := by
  funext m
  have old := congrFun inv m
  rw [toggled] at old
  rw [testBit_update, toggled]
  split
  · rename_i inWord
    rw [if_neg (by omega), testBit_eq, inWord] at old
    rw [BitVec.getLsbD_not, decide_eq_true (Nat.mod_lt m (by decide)), Bool.true_and, old,
      if_pos (by omega)]
  · rename_i otherWord
    rw [old]
    by_cases before : m < i * 32
    · rw [if_pos (by omega), if_pos (by omega)]
    · rw [if_neg (by omega), if_neg (by omega)]

theorem testBit_notWords (table : Table) (turns : Nat) :
    testBit (forLoop (fun i t => update t i (~~~t i)) 0 turns table) =
      toggled (testBit table) 0 (turns * 32) := by
  have start : testBit table = toggled (testBit table) 0 (0 * 32) := by
    funext m
    rw [toggled, if_neg (by omega)]
  have loop := forLoop_induct (fun i t => testBit t = toggled (testBit table) 0 (i * 32)) turns
    start
    fun i t _ _ inv => testBit_notWord inv
  rw [zero_add] at loop
  exact loop

theorem Holds.not (holds : b.Holds size bits) : b.not.Holds size (fun m => !bits m) := by
  have rows := holds.noObj_eq
  have start : b.Holds size (toggled bits (b.noObj / 32 * 32) (b.noObj / 32 * 32)) := by
    refine holds.congr fun m _ => ?_
    rw [toggled, if_neg (by omega)]
  have tail := forLoop_induct
    (fun n (s : Block) => s.Holds size (toggled bits (b.noObj / 32 * 32) n)) (b.noObj % 32) start
    fun n s low high inv => inv.toggle_step low (by omega)
  refine ⟨tail.noObj_eq, ?_, ?_⟩
  · intro m lt
    rw [get_eq_testBit, Block.not]
    rw [testBit_notWords, toggled, ← get_eq_testBit, tail.get_eq m lt, toggled]
    by_cases inWords : m < b.noObj / 32 * 32
    · rw [if_pos (by omega), if_neg (by omega)]
    · rw [if_neg (by omega), if_pos (by omega)]
  · have counted := ones_not bits size
    show (b.noObj : Int) - b.noSetBits = _
    rw [holds.noSetBits_eq]
    omega

/-! ## Growing -/

structure Grown (bits : Nat → Bool) (size i : Nat) (b : Block) : Prop where
  noObj_eq : b.noObj = size
  get_eq : ∀ m < i, b.get m = bits m
  noSetBits_eq : b.noSetBits = (ones bits i : Nat)

theorem Grown.step {value : Bool} (inv : Grown bits size i b) (here : bits i = value) :
    Grown bits size (i + 1)
      (if value then { b with blockTable := setBit b.blockTable i, noSetBits := b.noSetBits + 1 }
        else { b with blockTable := clearBit b.blockTable i }) := by
  have counter := inv.noSetBits_eq
  have counted := ones_succ bits i
  cases value with
  | true =>
    rw [here, Bool.toNat_true] at counted
    refine ⟨inv.noObj_eq, ?_, ?_⟩
    · intro m lt
      rw [if_pos rfl, get_eq_testBit, testBit_setBit, ← get_eq_testBit]
      by_cases same : m = i
      · rw [decide_eq_true same, Bool.true_or, same, here]
      · rw [decide_eq_false same, Bool.false_or, inv.get_eq m (by omega)]
    · show b.noSetBits + 1 = _
      omega
  | false =>
    rw [here, Bool.toNat_false] at counted
    refine ⟨inv.noObj_eq, ?_, ?_⟩
    · intro m lt
      rw [if_neg (by decide), get_eq_testBit, testBit_clearBit, ← get_eq_testBit]
      by_cases same : m = i
      · rw [decide_eq_true same, Bool.not_true, Bool.false_and, same, here]
      · rw [decide_eq_false same, Bool.not_false, Bool.true_and, inv.get_eq m (by omega)]
    · show b.noSetBits = _
      omega

theorem Holds.growBlock (holds : b.Holds size bits) (growSize : Nat) (value : Bool) :
    (b.growBlock growSize value).Holds (size + growSize)
      (fill bits size (size + growSize) value) := by
  have start : Grown (fill bits size (size + growSize) value) size size b := by
    refine ⟨holds.noObj_eq, ?_, ?_⟩
    · intro m lt
      rw [holds.get_eq m lt, fill_outside (by omega)]
    · rw [holds.noSetBits_eq]
      exact congrArg _ (ones_congr fun m lt => (fill_outside (by omega)).symm)
  have grown := forLoop_induct (Grown (fill bits size (size + growSize) value) size) growSize start
    fun i s low high inv => inv.step (fill_inside low (by omega) : _ = value)
  rw [Block.growBlock, holds.noObj_eq]
  exact ⟨rfl, grown.get_eq, grown.noSetBits_eq⟩

end Brighthouse.Core.Block
