import Brighthouse.Core.FilterBlockSpec

/-!
# The search for the next one of a block

Functional model of the loops of `FilterOnesIterator::FindOneInsidePack` of
`core/FilterIterators.cpp`.  Words without ones are passed as a whole; a word with a one is
read byte by byte.  What is left of the current word is kept from one call to the next.
-/

set_option autoImplicit false

namespace Brighthouse.Core

open Library.WordTable BitVec

/-- What is left of word `bln`, shifted to the position of the iterator. -/
structure WordScan where
  b : BitVec 32
  bln : Nat
  bitsLeft : Nat

namespace Block

/-- The position of the lowest one of a byte, 8 if there is none. -/
def posOf1 (byte : Nat) : Nat :=
  ([8, 4, 5, 4, 6, 4, 5, 4, 7, 4, 5, 4, 6, 4, 5, 4].flatMap fun first =>
    [first, 0, 1, 0, 2, 0, 1, 0, 3, 0, 1, 0, 2, 0, 1, 0]).getD byte 0

def skipWords (block : Block) : Nat → Nat → Nat → Nat × Nat
  | 0, n, bln => (n, bln)
  | turns + 1, n, bln =>
    if block.blockTable bln ≠ 0 then (n, bln)
    else if block.noObj ≤ n + 32 then (n + 32, bln)
    else block.skipWords turns (n + 32) (bln + 1)

/-- The loop over the bytes of a portion that is not zero. -/
def scanPortion (noObj : Nat) : Nat → Nat → WordScan → Bool × Nat × WordScan
  | 0, n, s => (false, n, s)
  | turns + 1, n, s =>
    let skip := posOf1 (s.b &&& 0xff).toNat
    if noObj ≤ n then (false, n, s)
    else if s.bitsLeft < skip then (false, n + s.bitsLeft, s)
    else if noObj ≤ n + skip then (false, n + skip, s)
    else
      let s := { s with b := s.b >>> skip, bitsLeft := s.bitsLeft - skip }
      if skip < 8 then (true, n + skip, s) else scanPortion noObj turns (n + skip) s

/-- The outer loop: first find a portion with a one, then the one. -/
def scan (block : Block) : Nat → Nat → WordScan → Bool × Nat × WordScan
  | 0, n, s => (false, n, s)
  | turns + 1, n, s =>
    let portion (n : Nat) (s : WordScan) :=
      let found := scanPortion block.noObj 5 n s
      if found.1 then found else block.scan turns found.2.1 found.2.2
    if block.noObj ≤ n then (false, n, s)
    else if s.b = 0 then
      if block.blockSize ≤ s.bln + 1 then (false, n + s.bitsLeft, { s with bln := s.bln + 1 })
      else
        let next := block.skipWords block.blockSize (n + s.bitsLeft) (s.bln + 1)
        if block.noObj ≤ next.1 then (false, next.1, { s with bln := next.2 })
        else portion next.1 ⟨block.blockTable next.2, next.2, 32⟩
    else portion n s

end Block

/-! ## What the search finds -/

variable {block : Block} {n k turns : Nat} {s : WordScan}

theorem eq_zero_of_getLsbD {b : BitVec 32} (clear : ∀ i, b.getLsbD i = false) : b = 0 :=
  eq_of_getLsbD_eq fun i _ => (clear i).trans getLsbD_zero.symm

namespace WordScan

/-- The bits of `s` are those of the block from position `n` on to the end of the word. -/
structure Reads (s : WordScan) (block : Block) (n : Nat) : Prop where
  le : s.bitsLeft ≤ 32
  position : n + s.bitsLeft = (s.bln + 1) * 32
  bit : ∀ i, s.b.getLsbD i = (decide (i < s.bitsLeft) && block.get (n + i))

theorem reads_word (block : Block) (bln : Nat) :
    Reads ⟨block.blockTable bln, bln, 32⟩ block (bln * 32) := by
  refine ⟨le_rfl, by dsimp only; omega, fun i => ?_⟩
  by_cases small : i < 32
  · rw [Block.get_eq_testBit, testBit_eq, decide_eq_true small, Bool.true_and,
      show (bln * 32 + i) / 32 = bln by omega, show (bln * 32 + i) % 32 = i by omega]
  · rw [decide_eq_false small, Bool.false_and]
    exact getLsbD_of_ge _ _ (not_lt.mp small)

theorem Reads.shift (reads : s.Reads block n) (le : k ≤ s.bitsLeft) :
    Reads ⟨s.b >>> k, s.bln, s.bitsLeft - k⟩ block (n + k) := by
  have position := reads.position
  refine ⟨(Nat.sub_le _ _).trans reads.le, by dsimp only; omega, fun i => ?_⟩
  have same : k + i < s.bitsLeft ↔ i < s.bitsLeft - k := by omega
  rw [getLsbD_ushiftRight, reads.bit, add_assoc, decide_eq_decide.mpr same]

theorem Reads.none (reads : s.Reads block n) (zero : s.b = 0) {m : Nat} (low : n ≤ m)
    (high : m < n + s.bitsLeft) : block.get m = false := by
  have bit := reads.bit (m - n)
  rw [zero, Nat.add_sub_cancel' low, decide_eq_true (by omega), Bool.true_and] at bit
  rw [← bit]
  exact getLsbD_zero

end WordScan

namespace Block

open WordScan

theorem posOf1_spec : ∀ byte < 256, posOf1 byte ≤ 8 ∧
    (∀ i < posOf1 byte, byte.testBit i = false) ∧
    (posOf1 byte < 8 → byte.testBit (posOf1 byte) = true) := by
  decide +kernel

theorem posOf1_bits (b : BitVec 32) :
    posOf1 (b &&& 0xff).toNat ≤ 8 ∧
      (∀ i < posOf1 (b &&& 0xff).toNat, b.getLsbD i = false) ∧
      (posOf1 (b &&& 0xff).toNat < 8 → b.getLsbD (posOf1 (b &&& 0xff).toNat) = true) := by
  have low : ∀ i < 8, (b &&& 0xff).toNat.testBit i = b.getLsbD i := by
    intro i small
    have mask : ∀ i < 8, (0xff : BitVec 32).getLsbD i = true := by decide
    rw [testBit_toNat, getLsbD_and, mask i small, Bool.and_true]
  have byte : (b &&& 0xff).toNat < 256 := by
    rw [toNat_and]
    exact lt_of_le_of_lt Nat.and_le_right (by decide)
  obtain ⟨le, before, here⟩ := posOf1_spec _ byte
  refine ⟨le, fun i less => ?_, fun less => ?_⟩
  · rw [← low i (by omega), before i less]
  · rw [← low _ less, here less]

/-- The outcome of a search from position `n` on. -/
structure ScanFinds (block : Block) (n : Nat) (result : Bool × Nat × WordScan) : Prop where
  none : result.1 = false → block.noObj ≤ result.2.1 ∧
    ∀ m, n ≤ m → m < block.noObj → block.get m = false
  some : result.1 = true → n ≤ result.2.1 ∧ result.2.1 < block.noObj ∧
    block.get result.2.1 = true ∧ (∀ m, n ≤ m → m < result.2.1 → block.get m = false) ∧
    result.2.2.Reads block result.2.1 ∧ 0 < result.2.2.bitsLeft

theorem ScanFinds.missed {m : Nat} (stop : block.noObj ≤ m)
    (all : ∀ k, n ≤ k → k < block.noObj → block.get k = false) :
    block.ScanFinds n (false, m, s) :=
  ⟨fun _ => ⟨stop, all⟩, fun found => absurd found Bool.false_ne_true⟩

theorem ScanFinds.earlier {start : Nat} {result : Bool × Nat × WordScan}
    (finds : block.ScanFinds n result) (le : start ≤ n)
    (clear : ∀ m, start ≤ m → m < n → m < block.noObj → block.get m = false) :
    block.ScanFinds start result where
  none := by
    intro missed
    obtain ⟨stop, all⟩ := finds.none missed
    refine ⟨stop, fun m low high => ?_⟩
    by_cases before : m < n
    · exact clear m low before high
    · exact all m (not_lt.mp before) high
  some := by
    intro found
    obtain ⟨low, high, set, between, reads⟩ := finds.some found
    refine ⟨by omega, high, set, fun m lower upper => ?_, reads⟩
    by_cases before : m < n
    · exact clear m lower before (by omega)
    · exact between m (not_lt.mp before) upper

theorem scanPortion_finds (reads : s.Reads block n) (nonzero : s.b ≠ 0)
    (enough : s.bitsLeft ≤ turns * 8) : block.ScanFinds n (scanPortion block.noObj turns n s) := by
  -- The one that is left keeps the portion from being used up.
  induction turns generalizing n s with
  | zero =>
    refine absurd (eq_zero_of_getLsbD fun i => ?_) nonzero
    rw [reads.bit, decide_eq_false (by omega), Bool.false_and]
  | succ turns ih =>
    obtain ⟨le, before, here⟩ := posOf1_bits s.b
    rw [scanPortion]
    generalize posOf1 (s.b &&& 0xff).toNat = skip at le before here
    have inside : skip ≤ s.bitsLeft := by
      by_contra beyond
      refine nonzero (eq_zero_of_getLsbD fun i => ?_)
      by_cases low : i < skip
      · exact before i low
      · rw [reads.bit, decide_eq_false (by omega), Bool.false_and]
    have clear : ∀ m, n ≤ m → m < n + skip → block.get m = false := by
      intro m low high
      have bit := before (m - n) (by omega)
      rwa [reads.bit, Nat.add_sub_cancel' low, decide_eq_true (by omega), Bool.true_and] at bit
    dsimp only
    split
    · rename_i behind
      exact .missed behind fun m low high => absurd high (by omega)
    · rw [if_neg (by omega)]
      split
      · rename_i behind
        exact .missed behind fun m low high => clear m low (by omega)
      · rename_i inBlock
        have shifted := reads.shift inside
        split
        · rename_i less
          have set := here less
          rw [reads.bit, Bool.and_eq_true, decide_eq_true_iff] at set
          exact ⟨nofun, fun _ => ⟨by dsimp only; omega, by dsimp only; omega, set.2, clear, shifted,
            by dsimp only; omega⟩⟩
        · rename_i whole
          obtain rfl : skip = 8 := by omega
          refine (ih shifted ?_ (by dsimp only; omega)).earlier (by omega)
            fun m low high _ => clear m low high
          intro zero
          refine nonzero (eq_zero_of_getLsbD fun i => ?_)
          by_cases low : i < 8
          · exact before i low
          · have bit := congrArg (getLsbD · (i - 8)) zero
            rw [getLsbD_ushiftRight, Nat.add_sub_cancel' (not_lt.mp low)] at bit
            exact bit.trans getLsbD_zero

/-- The loop stops at a word with a one or behind the block. -/
theorem skipWords_spec {bln : Nat} (inside : bln * 32 < block.noObj)
    (enough : block.blockSize ≤ bln + turns) :
    let next := block.skipWords turns (bln * 32) bln
    bln * 32 ≤ next.1 ∧ (∀ m, bln * 32 ≤ m → m < next.1 → block.get m = false) ∧
      (next.1 < block.noObj → next.1 = next.2 * 32 ∧ block.blockTable next.2 ≠ 0) := by
  induction turns generalizing bln with
  | zero =>
    rw [blockSize] at enough
    omega
  | succ turns ih =>
    rw [skipWords]
    by_cases zero : block.blockTable bln = 0
    · have clear : ∀ m, bln * 32 ≤ m → m < bln * 32 + 32 → block.get m = false :=
        fun m low high => (reads_word block bln).none zero low high
      rw [if_neg (not_not.mpr zero)]
      split
      · rename_i behind
        exact ⟨by dsimp only; omega, clear, fun lt => absurd lt (by dsimp only; omega)⟩
      · have next : bln * 32 + 32 = (bln + 1) * 32 := by omega
        rw [next]
        obtain ⟨low, between, stop⟩ := @ih (bln + 1) (by omega) (by omega)
        refine ⟨by omega, fun m lower upper => ?_, stop⟩
        by_cases before : m < bln * 32 + 32
        · exact clear m lower before
        · exact between m (by omega) upper
    · rw [if_pos zero]
      exact ⟨le_rfl, fun m low high => absurd high (by dsimp only; omega), fun _ => ⟨rfl, zero⟩⟩

/-- A portion with a one, and what follows: a further turn ends at once. -/
theorem portion_finds (turns : Nat) (reads : s.Reads block n) (nonzero : s.b ≠ 0) :
    block.ScanFinds n
      (if (scanPortion block.noObj 5 n s).1 then scanPortion block.noObj 5 n s
        else block.scan turns (scanPortion block.noObj 5 n s).2.1
          (scanPortion block.noObj 5 n s).2.2) := by
  have finds := @scanPortion_finds block n 5 s reads nonzero (reads.le.trans (by decide))
  split
  · exact finds
  · rename_i missed
    obtain ⟨stop, all⟩ := finds.none (Bool.eq_false_iff.mpr missed)
    cases turns with
    | zero => exact .missed stop all
    | succ turns =>
      rw [scan, if_pos stop]
      exact .missed stop all

theorem scan_finds (turns : Nat) (reads : s.Reads block n) (inside : n < block.noObj) :
    block.ScanFinds n (block.scan (turns + 1) n s) := by
  rw [scan]
  dsimp only
  rw [if_neg (not_le.mpr inside)]
  by_cases zero : s.b = 0
  · have position := reads.position
    have clear : ∀ m, n ≤ m → m < n + s.bitsLeft → block.get m = false :=
      fun m low high => reads.none zero low high
    rw [if_pos zero]
    split
    · rename_i last
      rw [blockSize] at last
      exact .missed (by omega) fun m low high => clear m low (by omega)
    · rename_i more
      rw [blockSize] at more
      obtain ⟨low, between, stop⟩ := @skipWords_spec block block.blockSize (s.bln + 1) (by omega)
        (by omega)
      rw [position]
      rw [position] at clear
      have passed : ∀ m, n ≤ m → m < (block.skipWords block.blockSize ((s.bln + 1) * 32)
          (s.bln + 1)).1 → block.get m = false := by
        intro m lower upper
        by_cases before : m < (s.bln + 1) * 32
        · exact clear m lower before
        · exact between m (not_lt.mp before) upper
      generalize block.skipWords block.blockSize ((s.bln + 1) * 32) (s.bln + 1) = next at *
      obtain ⟨n', bln⟩ := next
      dsimp only at *
      split
      · rename_i behind
        exact .missed behind fun m lower upper => passed m lower (by omega)
      · rename_i inBlock
        obtain ⟨rfl, nonzero⟩ := stop (not_le.mp inBlock)
        exact (portion_finds turns (reads_word block bln) nonzero).earlier (by omega)
          fun m lower upper _ => passed m lower upper
  · rw [if_neg zero]
    exact portion_finds turns reads zero

end Block

end Brighthouse.Core
