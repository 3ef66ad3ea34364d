import Brighthouse.Compress.RangeCoder

/-!
# Intervals and renormalisation of the range coder

One picture carries the round trip.  An encoder state owns the interval
`[low, low + range)` of 32-bit words, and the first four bytes it will still
write form a word of that interval.  The decoder holds exactly these four bytes
in `code`.  Choosing a symbol narrows the interval, and renormalisation shifts
the common top byte out on both sides at the same moment.
-/

set_option autoImplicit false

namespace Brighthouse.Compress.RangeCoder

open Library Library.ByteWindow Nat List

/-! ## Intervals -/

/-- The register invariant.  The interval may end at `2 ^ 32`, where `low + range`
wraps to zero, but then it starts above the lowest byte block. -/
structure Live (low range : Nat) : Prop where
  low_lt : low < 2 ^ 32
  range_pos : 0 < range
  sum_le : low + range ≤ 2 ^ 32
  wrap : low + range = 2 ^ 32 → 2 ^ 24 ≤ low

def Inside (low range code : Nat) : Prop := low ≤ code ∧ code < low + range

structure Ready (e : Encoder) : Prop where
  live : Live e.low e.range
  wide : bot ≤ e.range

section
variable {low range : Nat} (live : Live low range)
include live

theorem Live.narrow {step cumFreq freq total : Nat} (stepPos : 0 < step)
    (fits : step * total ≤ range) (freqPos : 1 ≤ freq) (inTotal : cumFreq + freq ≤ total) :
    u32 (low + u32 (step * cumFreq)) = low + step * cumFreq ∧
      u32 (step * freq) = step * freq ∧
      Live (low + step * cumFreq) (step * freq) ∧
      low + step * cumFreq + step * freq ≤ low + range := by
  have parts : step * cumFreq + step * freq ≤ step * total := by
    rw [← mul_add]
    exact mul_le_mul_left step inTotal
  have product : 0 < step * freq := mul_pos stepPos freqPos
  have sumLe := live.sum_le
  have wrap := live.wrap
  have smallCum : u32 (step * cumFreq) = step * cumFreq := u32_of_lt (by omega)
  refine ⟨?_, u32_of_lt (by omega), ⟨by omega, product, by omega, by omega⟩, by omega⟩
  rw [smallCum]
  exact u32_of_lt (by omega)

/-- What the loop condition can do: the interval lies inside one block of `2 ^ 24`
words and is kept; or it crosses a block end, is narrow, and is cut there; or
the loop is left. -/
theorem loopRange_cases :
    (loopRange low range = some range ∧ low % 2 ^ 24 + range < 2 ^ 24) ∨
      (∃ r, loopRange low range = some r ∧ 0 < r ∧ r < 2 ^ 16 ∧ r ≤ range ∧ range < 2 ^ 16 ∧
        low % 2 ^ 24 + r = 2 ^ 24) ∨
      (loopRange low range = none ∧ bot ≤ range) := by
  have ⟨lowLt, rangePos, sumLe, wrap⟩ := live
  unfold loopRange
  by_cases sameTop : low ^^^ u32 (low + range) < top
  · rw [if_pos sameTop]
    rw [top, xor_lt_top_iff, u32] at sameTop
    exact .inl ⟨rfl, by omega⟩
  · rw [if_neg sameTop]
    rw [top, xor_lt_top_iff, u32] at sameTop
    by_cases narrow : range < bot
    · rw [if_pos narrow, bot, neg_and_mask low lowLt]
      rw [bot] at narrow
      exact .inr (.inl ⟨_, rfl, by omega, by omega, by omega, narrow, by omega⟩)
    · rw [if_neg narrow]
      exact .inr (.inr ⟨rfl, by omega⟩)

theorem loopRange_none (leave : loopRange low range = none) : bot ≤ range := by
  rcases loopRange_cases live with ⟨turn, _⟩ | ⟨r, turn, _⟩ | ⟨_, wide⟩
  · rw [turn] at leave
    cases leave
  · rw [turn] at leave
    cases leave
  · exact wide

end

section
variable {low range r : Nat} (live : Live low range) (turn : loopRange low range = some r)
include live turn

theorem loopRange_some :
    0 < r ∧ r ≤ range ∧ r < 2 ^ 24 ∧ low % 2 ^ 24 + r ≤ 2 ^ 24 ∧
      (low % 2 ^ 24 + r = 2 ^ 24 → range < 2 ^ 16) ∧
      (r = range ∨ low % 2 ^ 24 + r = 2 ^ 24) := by
  have rangePos := live.range_pos
  rcases loopRange_cases live with ⟨kept, inBlock⟩ | ⟨cut, isCut, facts⟩ | ⟨leave, _⟩
  · rw [kept, Option.some.injEq] at turn
    omega
  · rw [isCut, Option.some.injEq] at turn
    omega
  · rw [leave] at turn
    cases turn

theorem Live.shifted : Live (u32 (low <<< 8)) (u32 (r <<< 8)) := by
  have facts := loopRange_some live turn
  rw [u32_shiftLeft_eight, u32_shiftLeft_eight]
  constructor <;> omega

end

/-! ## Renormalisation on both sides -/

def NonZero (held : List Nat) : Prop := ∀ r ∈ held, r ≠ 0

theorem NonZero.cons {r : Nat} {held : List Nat} (pos : 0 < r) (rest : NonZero held) :
    NonZero (r :: held) := by
  intro x mem
  rcases mem_cons.mp mem with rfl | mem
  · omega
  · exact rest x mem

/-- The decoder that is level with encoder `e` when the encoder's remaining
output is `bytes` and is followed by `tail`. -/
def level (e : Encoder) (bytes tail : List Byte) (held : List Nat) : Decoder :=
  ⟨e.low, window bytes, e.range, bytes.drop 4 ++ tail, held⟩

/-- `emitted` is what the encoder loop writes on its way from `low, range` to `e`,
and the decoder loop, reading it back, arrives at the decoder level with `e`. -/
def Mirrored (low range : Nat) (emitted : List Byte) (e : Encoder) : Prop :=
  ∀ rest, 4 ≤ rest.length → Inside e.low e.range (window rest) →
    Inside low range (window (emitted ++ rest)) ∧
      ∀ tail held, NonZero held → ∃ heldAfter, NonZero heldAfter ∧
        shiftIn ((emitted ++ rest).drop 4 ++ tail) low range (window (emitted ++ rest)) held =
          .ok (level e rest tail heldAfter)

theorem mirrored_stop {low range : Nat} (out : List Byte) (room : Nat)
    (leave : loopRange low range = none) : Mirrored low range [] ⟨low, range, out, room⟩ := by
  intro rest _ inside
  refine ⟨inside, ?_⟩
  intro tail held nonZero
  refine ⟨held, nonZero, ?_⟩
  unfold shiftIn
  simp [leave, level]

theorem mirrored_turn {low range r : Nat} {emitted : List Byte} {e : Encoder}
    (live : Live low range) (turn : loopRange low range = some r)
    (next : Mirrored (u32 (low <<< 8)) (u32 (r <<< 8)) emitted e) :
    Mirrored low range (Fin.ofNat 256 (low >>> 24) :: emitted) e := by
  intro rest long inside
  obtain ⟨rPos, rLe, rSmall, _⟩ := loopRange_some live turn
  have liveNext := live.shifted turn
  obtain ⟨insideNext, readNext⟩ := next rest long inside
  have longTail : 4 ≤ (emitted ++ rest).length := by
    rw [length_append]
    omega
  obtain ⟨byte, dropEq, windowEq⟩ := window_cons_mod (Fin.ofNat 256 (low >>> 24)) longTail
  have topByte : window (Fin.ofNat 256 (low >>> 24) :: (emitted ++ rest)) / 2 ^ 24 =
      low / 2 ^ 24 := by
    rw [window_cons_div _ longTail, Fin.val_ofNat, shiftRight_eq_div_pow]
    have := live.low_lt
    omega
  rw [u32_shiftLeft_eight, u32_shiftLeft_eight] at insideNext
  obtain ⟨lower, upper⟩ := insideNext
  rw [cons_append]
  refine ⟨⟨by omega, by omega⟩, ?_⟩
  intro tail held nonZero
  obtain ⟨heldAfter, nonZeroAfter, readEq⟩ :=
    readNext tail _ ((nonZero.cons rPos).cons liveNext.range_pos)
  refine ⟨heldAfter, nonZeroAfter, ?_⟩
  have inputEq : (Fin.ofNat 256 (low >>> 24) :: (emitted ++ rest)).drop 4 ++ tail =
      byte :: ((emitted ++ rest).drop 4 ++ tail) := by
    rw [drop_succ_cons, dropEq, cons_append]
  rw [← readEq, inputEq]
  conv_lhs => unfold shiftIn
  simp only [turn]
  rw [shift_in_byte, ← windowEq]

theorem shiftOut_mirrored (room : Nat) : ∀ low range out e,
    Live low range → shiftOut room low range out = .ok e →
    Ready e ∧ ∃ emitted, e.out = out ++ emitted ∧ Mirrored low range emitted e := by
  induction room with
  | zero =>
    intro low range out e live run
    unfold shiftOut at run
    cases turn : loopRange low range with
    | some r => simp [turn] at run
    | none =>
      simp only [turn, Except.ok.injEq] at run
      subst run
      exact ⟨⟨live, loopRange_none live turn⟩, [], by simp, mirrored_stop out 0 turn⟩
  | succ room ih =>
    intro low range out e live run
    unfold shiftOut at run
    cases turn : loopRange low range with
    | none =>
      simp only [turn, Except.ok.injEq] at run
      subst run
      exact ⟨⟨live, loopRange_none live turn⟩, [], by simp, mirrored_stop out _ turn⟩
    | some r =>
      simp only [turn] at run
      obtain ⟨ready, emitted, outEq, mirrored⟩ := ih _ _ _ e (live.shifted turn) run
      exact ⟨ready, _ :: emitted, by simp [outEq], mirrored_turn live turn mirrored⟩

/-! ## Room for the renormalisation loop -/

theorem shiftOut_stop {low range : Nat} (room : Nat) (out : List Byte)
    (leave : loopRange low range = none) :
    shiftOut room low range out = .ok ⟨low, range, out, room⟩ := by
  unfold shiftOut
  simp [leave]

theorem shiftOut_turn {low range r : Nat} (room : Nat) (out : List Byte)
    (turn : loopRange low range = some r) :
    shiftOut (room + 1) low range out =
      shiftOut room (u32 (low <<< 8)) (u32 (r <<< 8))
        (out ++ [Fin.ofNat 256 (low >>> 24)]) := by
  conv_lhs => unfold shiftOut
  simp [turn]

/-- Once the interval has been cut at a block end it stays at the end of the
word range, and every further turn only widens it. -/
theorem shiftOut_atEnd_fits (k : Nat) : ∀ room low range out,
    Live low range → low + range = 2 ^ 32 → 2 ^ 16 ≤ range * 256 ^ k →
    ∃ e, shiftOut (room + k) low range out = .ok e ∧ room ≤ e.room := by
  induction k using Nat.strong_induction_on with
  | _ k ih =>
    intro room low range out live atEnd wide
    cases turn : loopRange low range with
    | none => exact ⟨_, shiftOut_stop _ out turn, by simp only; omega⟩
    | some r =>
      obtain ⟨rPos, rLe, rSmall, inBlock, cut, sameOrCut⟩ := loopRange_some live turn
      obtain ⟨j, rfl⟩ := exists_eq_add_one_of_ne_zero (show k ≠ 0 by rintro rfl; omega)
      have same : r = range := by omega
      have liveNext := live.shifted turn
      rw [← add_assoc, shiftOut_turn _ out turn]
      rw [u32_shiftLeft_eight, u32_shiftLeft_eight] at *
      refine ih j (lt_succ_self j) room _ _ _ liveNext (by omega) ?_
      rw [mod_eq_of_lt rSmall, mul_assoc, ← pow_succ', same]
      exact wide

theorem shiftOut_fits (k : Nat) : ∀ room low range out,
    Live low range → 2 ^ 24 ≤ range * 256 ^ k →
    ∃ e, shiftOut (room + 2 + k) low range out = .ok e ∧ room ≤ e.room := by
  induction k using Nat.strong_induction_on with
  | _ k ih =>
    intro room low range out live wide
    cases turn : loopRange low range with
    | none => exact ⟨_, shiftOut_stop _ out turn, by simp only; omega⟩
    | some r =>
      obtain ⟨rPos, rLe, rSmall, inBlock, cut, sameOrCut⟩ := loopRange_some live turn
      obtain ⟨j, rfl⟩ := exists_eq_add_one_of_ne_zero (show k ≠ 0 by rintro rfl; omega)
      have liveNext := live.shifted turn
      rw [← add_assoc, shiftOut_turn _ out turn]
      rcases sameOrCut with same | atEnd
      · refine ih j (lt_succ_self j) room _ _ _ liveNext ?_
        rw [u32_shiftLeft_eight, mod_eq_of_lt rSmall, same, mul_assoc, ← pow_succ']
        exact wide
      · -- After a cut two more turns are enough, whatever the range was.
        rw [u32_shiftLeft_eight, u32_shiftLeft_eight] at *
        obtain ⟨e, run, roomLe⟩ := shiftOut_atEnd_fits 2 (room + j) _ _ _ liveNext
          (by omega) (by omega)
        exact ⟨e, by rw [← run]; congr 1; omega, by omega⟩

end Brighthouse.Compress.RangeCoder
