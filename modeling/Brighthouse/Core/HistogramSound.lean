import Brighthouse.Core.Histogram

/-!
# What the histograms of fixed-point columns tell

A pack is described by its true minimum and maximum.  The first part says which
bits `fill` leaves in the pack; the second part says when the answers of
`isValue` and `intersection` can be relied on.
-/

set_option autoImplicit false

namespace Brighthouse.Core.Histogram

open Library Library.Binary64 Library.Word64 Library.WordTable RoughAnswer Hist

variable {width v : Int}

/-! ## Packs and their values -/

/-- `packMin` and `packMax` are the extreme values of a pack of 64-bit values. -/
structure Describes (values : List Int) (packMin packMax : Int) : Prop where
  int64 : ∀ v ∈ values, IsInt64 v
  min_mem : packMin ∈ values
  max_mem : packMax ∈ values
  bounds : ∀ v ∈ values, packMin ≤ v ∧ v ≤ packMax

theorem Describes.ints {values : List Int} {packMin packMax : Int}
    (described : Describes values packMin packMax) : IsInt64 packMin ∧ IsInt64 packMax :=
  ⟨described.int64 _ described.min_mem, described.int64 _ described.max_mem⟩

/-- The values that `PutValue` does not skip: not the null code and not a pack end. -/
def Recorded (values : List Int) (packMin packMax v : Int) : Prop :=
  v ∈ values ∧ v ≠ nullValue64 ∧ packMin < v ∧ v < packMax

def valueBit (v packMin packMax : Int) : Int :=
  if exactMode packMin packMax then v - packMin - 1
  else intervalBit (v - packMin - 1) (intervalLen (packMax - packMin - 1))

section Bits

variable {packMin packMax : Int}

theorem exactMode_iff (ints : IsInt64 packMin ∧ IsInt64 packMax)
    (le : packMin ≤ packMax) : exactMode packMin packMax = true ↔ packMax - packMin ≤ 1022 := by
  have ⟨⟨minLow, minHigh⟩, maxLow, maxHigh⟩ := ints
  rw [exactMode, toU64_of_nonneg (by omega) (by omega)]
  norm_num [intRes]

theorem intervalLen_pos (pos : 0 < width) : 0 < intervalLen width := by
  have widthPos : (0 : ℚ) < width := by exact_mod_cast pos
  refine round53_pos (div_pos (round53_pos widthPos) ?_)
  norm_num [intRes]

theorem intervalBit_mono {x y : Int} {len : ℚ} (lenPos : 0 < len) (nonneg : 0 ≤ x) (le : x ≤ y) :
    intervalBit x len ≤ intervalBit y len := by
  have castNonneg : (0 : ℚ) ≤ x := by exact_mod_cast nonneg
  have castLe : (x : ℚ) ≤ y := by exact_mod_cast le
  have quotLe : round53 x / len ≤ round53 y / len :=
    div_le_div_of_nonneg_right (round53_mono castLe) lenPos.le
  refine truncate_mono (round53_nonneg ?_) (round53_mono quotLe)
  exact div_nonneg (round53_nonneg castNonneg) lenPos.le

theorem intervalBit_zero (len : ℚ) : intervalBit 0 len = 0 := by
  simp [intervalBit, truncate]

theorem valueBit_mono {w : Int} (inside : packMin < v) (le : v ≤ w) (below : w < packMax) :
    valueBit v packMin packMax ≤ valueBit w packMin packMax := by
  unfold valueBit
  split
  · omega
  · exact intervalBit_mono (intervalLen_pos (by omega)) (by omega) (by omega)

theorem valueBit_first (packMin packMax : Int) : valueBit (packMin + 1) packMin packMax = 0 := by
  unfold valueBit
  split
  · omega
  · rw [show packMin + 1 - packMin - 1 = 0 by ring, intervalBit_zero]

theorem valueBit_nonneg (inside : packMin < v) (below : v < packMax) :
    0 ≤ valueBit v packMin packMax := by
  rw [← valueBit_first packMin packMax]
  exact valueBit_mono (by omega) (by omega) below

theorem fixedBit_inside (ints : IsInt64 packMin ∧ IsInt64 packMax)
    (inside : packMin < v) (below : v < packMax) :
    fixedBit v packMin packMax = some (valueBit v packMin packMax) := by
  have ⟨⟨minLow, minHigh⟩, maxLow, maxHigh⟩ := ints
  have exact := exactMode_iff ints (by omega)
  rw [fixedBit, if_neg (by omega), valueBit]
  split
  · rename_i isExact
    have narrow := exact.mp isExact
    rw [wrap64_of_isInt64 ⟨by omega, by omega⟩]
  · rw [toU64_of_nonneg (by omega) (by omega), toU64_of_nonneg (by omega) (by omega)]

end Bits

/-! ## What is recorded -/

structure Held (h : Hist) (pack : Int) : Prop where
  fixed : h.fixed = true
  start_le : h.startPack ≤ pack
  le_end : pack ≤ h.endPack

/-- The words of `pack` have exactly the bits of the recorded values. -/
structure Represents (h : Hist) (pack : Int) (values : List Int) (packMin packMax : Int) :
    Prop extends Held h pack where
  bits : ∀ i : Nat, i < 1024 → (testBit (h.packBuf pack) i = true ↔
    ∃ v, Recorded values packMin packMax v ∧ valueBit v packMin packMax = i)

section Fill

variable {h : Hist} {pack packMin packMax : Int}

theorem clearPack_represents (held : Held h pack) :
    Represents (h.clearPack pack) pack [] packMin packMax := by
  have inMemory : pack ≥ h.startPack ∧ pack ≤ h.endPack := ⟨held.start_le, held.le_end⟩
  rw [clearPack, if_pos inMemory]
  refine ⟨⟨held.fixed, held.start_le, held.le_end⟩, ?_⟩
  intro i _
  simp [Recorded]

theorem putValue_skip (held : Held h pack) (skipped : v = nullValue64 ∨ v = packMin ∨ v = packMax) :
    h.putValue v pack packMin packMax = h := by
  have ⟨fixed, startLe, leEnd⟩ := held
  rw [putValue, if_neg (by omega)]
  split
  · rfl
  · have atEnd : v = packMin ∨ v = packMax := by tauto
    simp only [fixedBit, if_pos atEnd]

variable (small : intervalTooLarge packMin packMax = false)
include small

theorem putValue_inside (held : Held h pack)
    (ints : IsInt64 packMin ∧ IsInt64 packMax) (notNull : v ≠ nullValue64) (inside : packMin < v)
    (below : v < packMax) :
    h.putValue v pack packMin packMax =
      if valueBit v packMin packMax ≥ 32 * intRes then h
      else h.setPackBit pack (valueBit v packMin packMax) := by
  have ⟨fixed, startLe, leEnd⟩ := held
  rw [putValue, if_neg (by omega), if_neg (by simp [notNull, small]), if_pos fixed,
    fixedBit_inside ints inside below]

theorem putValue_represents {values : List Int}
    (represents : Represents h pack values packMin packMax)
    (ints : IsInt64 packMin ∧ IsInt64 packMax) (inPack : packMin ≤ v ∧ v ≤ packMax) :
    Represents (h.putValue v pack packMin packMax) pack (v :: values) packMin packMax := by
  obtain ⟨held, bits⟩ := represents
  by_cases skipped : v = nullValue64 ∨ v = packMin ∨ v = packMax
  · rw [putValue_skip held skipped]
    refine ⟨held, ?_⟩
    intro i inRange
    rw [bits i inRange]
    constructor
    · rintro ⟨w, ⟨mem, facts⟩, bitEq⟩
      exact ⟨w, ⟨List.mem_cons_of_mem v mem, facts⟩, bitEq⟩
    · rintro ⟨w, ⟨mem, facts⟩, bitEq⟩
      rcases List.mem_cons.mp mem with rfl | mem
      · omega
      · exact ⟨w, ⟨mem, facts⟩, bitEq⟩
  · have inside : packMin < v := by omega
    have below : v < packMax := by omega
    have nonneg := valueBit_nonneg inside below
    have recorded : ∀ i : Nat, (∃ w, Recorded (v :: values) packMin packMax w ∧
        valueBit w packMin packMax = i) ↔ valueBit v packMin packMax = i ∨
          ∃ w, Recorded values packMin packMax w ∧ valueBit w packMin packMax = i := by
      intro i
      constructor
      · rintro ⟨w, ⟨mem, facts⟩, bitEq⟩
        rcases List.mem_cons.mp mem with rfl | mem
        · exact .inl bitEq
        · exact .inr ⟨w, ⟨mem, facts⟩, bitEq⟩
      · rintro (bitEq | ⟨w, ⟨mem, facts⟩, bitEq⟩)
        · exact ⟨v, ⟨List.mem_cons_self, by omega, inside, below⟩, bitEq⟩
        · exact ⟨w, ⟨List.mem_cons_of_mem v mem, facts⟩, bitEq⟩
    rw [putValue_inside small held ints (by omega) inside below]
    split
    · rename_i tooLarge
      refine ⟨held, ?_⟩
      intro i inRange
      rw [recorded, bits i inRange, or_iff_right]
      simp only [intRes] at tooLarge
      omega
    · refine ⟨⟨held.fixed, held.start_le, held.le_end⟩, ?_⟩
      intro i inRange
      dsimp only [setPackBit]
      rw [Function.update_self, testBit_setBit, Bool.or_eq_true, decide_eq_true_eq, recorded,
        bits i inRange]
      have : i = (valueBit v packMin packMax).toNat ↔ valueBit v packMin packMax = i := by omega
      rw [this]

theorem fill_represents {values : List Int} (held : Held h pack)
    (described : Describes values packMin packMax) :
    Represents (h.fill pack values packMin packMax) pack values packMin packMax := by
  have ints := described.ints
  -- The invariant is stated for the values put so far, kept in reverse order.
  have run : ∀ (rest seen : List Int) (current : Hist), (∀ v ∈ rest, packMin ≤ v ∧ v ≤ packMax) →
      Represents current pack seen packMin packMax →
      Represents (rest.foldl (fun h v => h.putValue v pack packMin packMax) current) pack
        (rest.reverse ++ seen) packMin packMax := by
    intro rest
    induction rest with
    | nil =>
      intro seen current _ represents
      exact represents
    | cons v rest ih =>
      intro seen current inPack represents
      have next := ih (v :: seen) _ (fun w mem => inPack w (List.mem_cons_of_mem v mem))
        (putValue_represents small represents ints (inPack v List.mem_cons_self))
      simpa using next
  have all := run values [] _ described.bounds (clearPack_represents held)
  refine ⟨all.toHeld, ?_⟩
  intro i inRange
  rw [fill, all.bits i inRange]
  simp [Recorded]

end Fill

/-! ## Queries -/

section Query

variable {h : Hist} {pack packMin packMax : Int}

variable {minV maxV : Int}

theorem intervalTooLarge_inside (small : intervalTooLarge packMin packMax = false)
    (above : packMin < minV) (below : maxV < packMax) : intervalTooLarge minV maxV = false := by
  simp only [intervalTooLarge, Bool.and_eq_false_iff, decide_eq_false_iff_not] at *
  omega

theorem fixedBits_inside (narrow : packMax - packMin - 1 < 2 ^ 63) (above : packMin < minV)
    (le : minV ≤ maxV) (below : maxV < packMax) :
    fixedBits minV maxV packMin packMax =
      .ok (valueBit minV packMin packMax, valueBit maxV packMin packMax) := by
  rw [fixedBits, if_neg (by omega), if_neg (by omega), if_neg (by omega)]
  rw [wrap64_of_isInt64 (x := minV - packMin - 1) ⟨by omega, by omega⟩,
    wrap64_of_isInt64 (x := maxV - packMin - 1) ⟨by omega, by omega⟩,
    wrap64_of_isInt64 (x := packMax - packMin - 1) ⟨by omega, by omega⟩, valueBit, valueBit]
  split <;> rfl

variable {values : List Int}

theorem readBit_inside (represents : Represents h pack values packMin packMax) {i : Int}
    (nonneg : 0 ≤ i) (small : i < 1024) :
    h.readBit pack i = true ↔
      ∃ v, Recorded values packMin packMax v ∧ valueBit v packMin packMax = i := by
  rw [readBit, if_pos ⟨nonneg, by simpa [intRes] using small⟩,
    represents.bits i.toNat (by omega), Int.toNat_of_nonneg nonneg]

/-- The scan of `isValue` leaves the table or meets the bit of a recorded value. -/
def Hit (values : List Int) (packMin packMax minV maxV : Int) : Prop :=
  1024 ≤ valueBit maxV packMin packMax ∨
    ∃ v, Recorded values packMin packMax v ∧
      valueBit minV packMin packMax ≤ valueBit v packMin packMax ∧
      valueBit v packMin packMax ≤ valueBit maxV packMin packMax

/-- Inside a pack whose width fits a signed word the answer only depends on the
recorded values. -/
theorem isValue_inside (represents : Represents h pack values packMin packMax)
    (small : intervalTooLarge packMin packMax = false)
    (narrow : packMax - packMin - 1 < 2 ^ 63) (above : packMin < minV)
    (le : minV ≤ maxV) (below : maxV < packMax) :
    h.isValue minV maxV pack packMin packMax = .some ∧ Hit values packMin packMax minV maxV ∨
      h.isValue minV maxV pack packMin packMax = .none ∧
        ¬Hit values packMin packMax minV maxV := by
  have ⟨fixed, startLe, leEnd⟩ := represents.toHeld
  have nonneg := valueBit_nonneg above (lt_of_le_of_lt le below)
  have size : (32 * intRes : Int) = 1024 := rfl
  rw [isValue, if_neg (by omega), small, intervalTooLarge_inside small above below, fixed,
    if_pos rfl, fixedBits_inside narrow above le below]
  dsimp only
  rw [size]
  by_cases tooLarge : valueBit maxV packMin packMax ≥ 1024
  · exact .inl ⟨if_pos tooLarge, .inl tooLarge⟩
  · rw [if_neg tooLarge]
    cases found : anyBetween (h.readBit pack) (valueBit minV packMin packMax)
        (valueBit maxV packMin packMax) with
    | true =>
      obtain ⟨i, lower, upper, isSet⟩ := (anyBetween_iff _ _ _).mp found
      obtain ⟨v, recorded, rfl⟩ := (readBit_inside represents (by omega) (by omega)).mp isSet
      exact .inl ⟨rfl, .inr ⟨v, recorded, lower, upper⟩⟩
    | false =>
      refine .inr ⟨rfl, ?_⟩
      rintro (large | ⟨v, recorded, lower, upper⟩)
      · omega
      · have isSet := (readBit_inside represents (by omega) (by omega)).mpr ⟨v, recorded, rfl⟩
        have := (anyBetween_iff _ _ _).mpr ⟨_, lower, upper, isSet⟩
        rw [found] at this
        cases this

theorem isValue_sound_outside (fixed : h.fixed = true)
    (described : Describes values packMin packMax) (outside : minV ≤ packMin ∨ packMax ≤ maxV) :
    (h.isValue minV maxV pack packMin packMax).Sound {v | v ∈ values}
      (fun v => minV ≤ v ∧ v ≤ maxV) := by
  rw [isValue, fixed, if_pos rfl, fixedBits]
  split
  · exact sound_some
  · split
    · exact sound_some
    · by_cases apart : maxV < packMin ∨ minV > packMax
      · rw [if_pos apart]
        refine sound_none_iff.mpr ?_
        rintro v mem ⟨lower, upper⟩
        have := described.bounds v mem
        omega
      · rw [if_neg apart]
        by_cases covers : maxV ≥ packMax ∧ minV ≤ packMin
        · rw [if_pos covers]
          refine sound_all_iff.mpr ?_
          intro v mem
          have := described.bounds v mem
          omega
        · rw [if_neg covers, if_pos (by omega)]
          exact sound_some

theorem isValue_all (fixed : h.fixed = true)
    (isAll : h.isValue minV maxV pack packMin packMax = .all) : minV ≤ packMin := by
  rw [isValue, fixed, if_pos rfl, fixedBits] at isAll
  split at isAll
  · cases isAll
  · split at isAll
    · cases isAll
    · by_contra above
      rw [if_neg (by omega : ¬(maxV ≥ packMax ∧ minV ≤ packMin))] at isAll
      split at isAll <;> rename_i bits
      · split at bits
        · cases bits
          cases isAll
        · split at bits
          · cases bits
            cases isAll
          · split at bits <;> cases bits
      · split at isAll
        · cases isAll
        · split at isAll <;> cases isAll

def AnswersSoundly (h : Hist) (pack : Int) (values : List Int) (packMin packMax : Int) : Prop :=
  ∀ minV maxV, IsInt64 minV → IsInt64 maxV → minV ≤ maxV →
    (h.isValue minV maxV pack packMin packMax).Sound {v | v ∈ values}
      (fun v => minV ≤ v ∧ v ≤ maxV)

/-- The null code is not recorded, so it must share its bit with a recorded value. -/
def NullCovered (values : List Int) (packMin packMax : Int) : Prop :=
  nullValue64 ∈ values → packMin < nullValue64 → nullValue64 < packMax →
    ∃ v, Recorded values packMin packMax v ∧ valueBit v packMin packMax = 0

theorem nullValue64_first (minInt : IsInt64 packMin) (above : packMin < nullValue64) :
    nullValue64 = packMin + 1 := by
  have := minInt.1
  simp only [nullValue64, minusInf64] at *
  omega

theorem answersSoundly_narrow (represents : Represents h pack values packMin packMax)
    (small : intervalTooLarge packMin packMax = false)
    (described : Describes values packMin packMax) (narrow : packMax - packMin - 1 < 2 ^ 63) :
    AnswersSoundly h pack values packMin packMax ↔ NullCovered values packMin packMax := by
  have ints := described.ints
  constructor
  · intro sound mem above below
    have nullBit : valueBit nullValue64 packMin packMax = 0 := by
      rw [nullValue64_first ints.1 above, valueBit_first]
    have nullInt := described.int64 _ mem
    rcases isValue_inside represents small narrow above (le_refl _) below with
      ⟨_, hit⟩ | ⟨isNone, _⟩
    · rcases hit with large | ⟨v, recorded, _, upper⟩
      · omega
      · exact ⟨v, recorded, by omega⟩
    · have missed := (sound _ _ nullInt nullInt (le_refl _)).none_sound isNone
      exact absurd ⟨le_refl _, le_refl _⟩ (missed nullValue64 mem)
  · intro covered minV maxV _ _ le
    by_cases inside : packMin < minV ∧ maxV < packMax
    · obtain ⟨above, below⟩ := inside
      rcases isValue_inside represents small narrow above le below with
        ⟨isSome, _⟩ | ⟨isNone, noHit⟩
      · rw [isSome]
        exact sound_some
      · rw [isNone, sound_none_iff]
        rintro v mem ⟨lower, upper⟩
        refine noHit (Or.inr ?_)
        have fromMin := valueBit_mono above lower (lt_of_le_of_lt upper below)
        have toMax := valueBit_mono (lt_of_lt_of_le above lower) upper below
        by_cases isNull : v = nullValue64
        · subst isNull
          have first := nullValue64_first ints.1 (by omega)
          obtain ⟨w, recorded, bitEq⟩ := covered mem (by omega) (by omega)
          rw [first, valueBit_first] at fromMin toMax
          exact ⟨w, recorded, by omega, by omega⟩
        · exact ⟨v, ⟨mem, isNull, by omega, by omega⟩, fromMin, toMax⟩
    · exact isValue_sound_outside represents.fixed described (by omega)

end Query

/-! ## Packs wider than a signed word

`IsValue` computes the width of the pack as a signed word.  From `2 ^ 63` on the
width is negative there, so the bits of the lower half of the pack count downwards
from zero and those of the upper half start beyond the table. -/

section Wide

theorem intervalLen_neg (pos : 0 < width) : intervalLen (-width) = -(round53 width / 2 ^ 10) := by
  have castPos : (0 : ℚ) < width := by exact_mod_cast pos
  have size : ((32 * intRes : ℕ) : ℚ) = 2 ^ 10 := by norm_num [intRes]
  rw [intervalLen, Int.cast_neg, round53_neg, neg_div, round53_neg]
  push_cast at size
  rw [size, round53_div_pow castPos 10]

theorem intervalBit_upper {offset : Int} (pos : 0 < width) (le : width ≤ offset) :
    1024 ≤ intervalBit (-offset) (intervalLen (-width)) := by
  have castPos : (0 : ℚ) < width := by exact_mod_cast pos
  have castLe : (width : ℚ) ≤ offset := by exact_mod_cast le
  have lenPos := round53_pos castPos
  rw [intervalLen_neg pos, intervalBit, Int.cast_neg, round53_neg, neg_div_neg_eq]
  refine le_truncate (by norm_num) ?_
  have quotient : (2 ^ 10 : ℚ) ≤ round53 offset / (round53 width / 2 ^ 10) := by
    rw [le_div_iff₀ (by positivity)]
    have := round53_mono castLe
    linarith
  have rounded := round53_mono quotient
  rw [round53_two_pow 10] at rounded
  exact rounded

theorem intervalBit_lower (pos : 0 < width) (le : width ≤ 2 ^ 63) :
    intervalBit (2 ^ 63 - 1) (intervalLen (-width)) ≤ -1 := by
  have castPos : (0 : ℚ) < width := by exact_mod_cast pos
  have castLe : (width : ℚ) ≤ 2 ^ 63 := by exact_mod_cast le
  have lenPos := round53_pos castPos
  have lenLe := round53_mono castLe
  rw [round53_two_pow 63] at lenLe
  have offsetGe : (2 ^ 62 : ℚ) ≤ round53 ((2 ^ 63 - 1 : Int) : ℚ) := by
    rw [← round53_two_pow 62]
    exact round53_mono (by norm_num)
  rw [intervalLen_neg pos, intervalBit, div_neg, round53_neg]
  refine truncate_le_neg (by norm_num) ?_
  have quotient : (2 ^ 0 : ℚ) ≤ round53 ((2 ^ 63 - 1 : Int) : ℚ) / (round53 width / 2 ^ 10) := by
    rw [le_div_iff₀ (by positivity), pow_zero]
    refine le_trans ?_ offsetGe
    linarith
  have rounded := round53_mono quotient
  rw [round53_two_pow 0] at rounded
  push_cast
  norm_num at rounded ⊢
  exact rounded

variable {h : Hist} {pack packMin packMax : Int}

section
variable (ints : IsInt64 packMin ∧ IsInt64 packMax) (wide : 2 ^ 63 ≤ packMax - packMin - 1)
include ints wide

section
variable {minV maxV : Int} (above : packMin < minV) (le : minV ≤ maxV) (below : maxV < packMax)
include above le below

theorem fixedBits_wide : fixedBits minV maxV packMin packMax =
      .ok (intervalBit (wrap64 (minV - packMin - 1))
          (intervalLen (-(2 ^ 64 - (packMax - packMin - 1)))),
        intervalBit (wrap64 (maxV - packMin - 1))
          (intervalLen (-(2 ^ 64 - (packMax - packMin - 1))))) := by
  have ⟨⟨minLow, minHigh⟩, maxLow, maxHigh⟩ := ints
  have notExact : ¬exactMode packMin packMax = true := by
    rw [exactMode_iff ints (by omega)]
    omega
  rw [fixedBits, if_neg (by omega), if_neg (by omega), if_neg (by omega), if_neg notExact,
    wrap64_of_ge wide (by omega),
    show packMax - packMin - 1 - 2 ^ 64 = -(2 ^ 64 - (packMax - packMin - 1)) by ring]

theorem isValue_wide_upper (held : Held h pack) (upper : 2 ^ 63 ≤ maxV - packMin - 1) :
    h.isValue minV maxV pack packMin packMax = .some := by
  have ⟨⟨minLow, minHigh⟩, maxLow, maxHigh⟩ := ints
  have beyond : intervalBit (wrap64 (maxV - packMin - 1))
      (intervalLen (-(2 ^ 64 - (packMax - packMin - 1)))) ≥ 32 * intRes := by
    rw [wrap64_of_ge upper (by omega),
      show maxV - packMin - 1 - 2 ^ 64 = -(2 ^ 64 - (maxV - packMin - 1)) by ring]
    exact intervalBit_upper (by omega) (by omega)
  rw [isValue, held.fixed, if_pos rfl, fixedBits_wide ints wide above le below]
  dsimp only
  split
  · rfl
  · split <;> rfl

end

theorem isValue_wide_lower (held : Held h pack) (small : intervalTooLarge packMin packMax = false) :
    h.isValue (packMin + 1) (packMin + 2 ^ 63) pack packMin packMax = .none := by
  have ⟨fixed, startLe, leEnd⟩ := held
  have ⟨⟨minLow, minHigh⟩, maxLow, maxHigh⟩ := ints
  have negative := intervalBit_lower
    (by omega : 0 < 2 ^ 64 - (packMax - packMin - 1)) (by omega)
  rw [isValue, if_neg (by omega), small,
    intervalTooLarge_inside small (by omega) (by omega), fixed, if_neg (by decide), if_pos rfl,
    fixedBits_wide ints wide (by omega) (by omega) (by omega),
    wrap64_of_isInt64 (x := packMin + 1 - packMin - 1) ⟨by omega, by omega⟩,
    wrap64_of_isInt64 (x := packMin + 2 ^ 63 - packMin - 1) ⟨by omega, by omega⟩,
    show packMin + 1 - packMin - 1 = 0 by ring, intervalBit_zero,
    show packMin + 2 ^ 63 - packMin - 1 = 2 ^ 63 - 1 by ring]
  dsimp only
  rw [if_neg (by omega), if_neg]
  intro found
  obtain ⟨i, lower, upper, _⟩ := (anyBetween_iff _ _ _).mp found
  omega

end

/-- Every value strictly inside the pack lies in its upper half. -/
def UpperHalf (values : List Int) (packMin packMax : Int) : Prop :=
  ∀ v ∈ values, packMin < v → v < packMax → 2 ^ 63 ≤ v - packMin - 1

theorem answersSoundly_wide {values : List Int} (held : Held h pack)
    (small : intervalTooLarge packMin packMax = false)
    (described : Describes values packMin packMax) (wide : 2 ^ 63 ≤ packMax - packMin - 1) :
    AnswersSoundly h pack values packMin packMax ↔ UpperHalf values packMin packMax := by
  have ints := described.ints
  have ⟨⟨minLow, minHigh⟩, maxLow, maxHigh⟩ := ints
  constructor
  · intro sound v mem above below
    by_contra lowerHalf
    have missed := (sound (packMin + 1) (packMin + 2 ^ 63) ⟨by omega, by omega⟩
      ⟨by omega, by omega⟩ (by omega)).none_sound
        (isValue_wide_lower ints wide held small)
    exact missed v mem ⟨by omega, by omega⟩
  · intro upperHalf minV maxV _ _ le
    by_cases inside : packMin < minV ∧ maxV < packMax
    · obtain ⟨above, below⟩ := inside
      by_cases upper : 2 ^ 63 ≤ maxV - packMin - 1
      · rw [isValue_wide_upper ints wide above le below held upper]
        exact sound_some
      · have noValue : ∀ v ∈ values, ¬(minV ≤ v ∧ v ≤ maxV) := by
          rintro v mem ⟨lower, below'⟩
          have := upperHalf v mem (by omega) (by omega)
          omega
        refine ⟨fun _ => noValue, fun isAll => ?_⟩
        have := isValue_all held.fixed isAll
        omega
    · exact isValue_sound_outside held.fixed described (by omega)

end Wide

/-! ## When a filled pack answers soundly -/

/-- The pack is not in memory, or its ends are too far apart to be recorded, or the
recorded bits mean the same to `PutValue` and to `IsValue`. -/
def Reliable (h : Hist) (pack : Int) (values : List Int) (packMin packMax : Int) : Prop :=
  pack < h.startPack ∨ pack > h.endPack ∨ intervalTooLarge packMin packMax = true ∨
    (packMax - packMin - 1 < 2 ^ 63 ∧ NullCovered values packMin packMax) ∨
    (2 ^ 63 ≤ packMax - packMin - 1 ∧ UpperHalf values packMin packMax)

theorem clearPack_frame (h : Hist) (pack : Int) :
    (h.clearPack pack).startPack = h.startPack ∧ (h.clearPack pack).endPack = h.endPack := by
  unfold clearPack
  split <;> exact ⟨rfl, rfl⟩

theorem putValue_frame (h : Hist) (v pack packMin packMax : Int) :
    (h.putValue v pack packMin packMax).startPack = h.startPack ∧
      (h.putValue v pack packMin packMax).endPack = h.endPack := by
  unfold putValue
  split
  · exact ⟨rfl, rfl⟩
  · split
    · exact ⟨rfl, rfl⟩
    · split
      · exact ⟨rfl, rfl⟩
      · split <;> exact ⟨rfl, rfl⟩

theorem fill_frame (h : Hist) (pack : Int) (values : List Int) (packMin packMax : Int) :
    (h.fill pack values packMin packMax).startPack = h.startPack ∧
      (h.fill pack values packMin packMax).endPack = h.endPack := by
  unfold fill
  have start := clearPack_frame h pack
  generalize h.clearPack pack = current at start
  induction values generalizing current with
  | nil => exact start
  | cons v rest ih =>
    have step := putValue_frame current v pack packMin packMax
    exact ih _ ⟨step.1.trans start.1, step.2.trans start.2⟩

theorem answersSoundly_fill_iff (h : Hist) (fixed : h.fixed = true) (pack : Int)
    (values : List Int) (packMin packMax : Int) (described : Describes values packMin packMax) :
    AnswersSoundly (h.fill pack values packMin packMax) pack values packMin packMax ↔
      Reliable h pack values packMin packMax := by
  obtain ⟨startEq, endEq⟩ := fill_frame h pack values packMin packMax
  by_cases inMemory : h.startPack ≤ pack ∧ pack ≤ h.endPack
  · have held : Held h pack := ⟨fixed, inMemory.1, inMemory.2⟩
    cases size : intervalTooLarge packMin packMax with
    | true =>
      refine iff_of_true ?_ (Or.inr (Or.inr (Or.inl size)))
      intro minV maxV _ _ _
      rw [isValue, size, Bool.true_or, if_pos rfl, ite_self]
      exact sound_some
    | false =>
      have represents := fill_represents size held described
      rcases lt_or_ge (packMax - packMin - 1) (2 ^ 63) with narrow | wide
      · rw [answersSoundly_narrow represents size described narrow, Reliable, size]
        constructor
        · intro covered
          exact Or.inr (Or.inr (Or.inr (Or.inl ⟨narrow, covered⟩)))
        · rintro (early | late | tooLarge | ⟨_, covered⟩ | ⟨wide, _⟩)
          · omega
          · omega
          · cases tooLarge
          · exact covered
          · omega
      · rw [answersSoundly_wide represents.toHeld size described wide, Reliable, size]
        constructor
        · intro upperHalf
          exact Or.inr (Or.inr (Or.inr (Or.inr ⟨wide, upperHalf⟩)))
        · rintro (early | late | tooLarge | ⟨narrow, _⟩ | ⟨_, upperHalf⟩)
          · omega
          · omega
          · cases tooLarge
          · omega
          · exact upperHalf
  · refine iff_of_true ?_ (by unfold Reliable; omega)
    intro minV maxV _ _ _
    rw [isValue, if_pos (by omega)]
    exact sound_some

def onePack : Hist := ⟨true, 0, 0, fun _ => cleared, fun _ _ => false⟩

theorem answersSoundly_fill_small :
    AnswersSoundly (onePack.fill 0 [3, 9, 5] 3 9) 0 [3, 9, 5] 3 9 := by
  have described : Describes [3, 9, 5] 3 9 := ⟨by decide, by decide, by decide, by decide⟩
  refine (answersSoundly_fill_iff onePack rfl 0 _ 3 9 described).mpr ?_
  refine Or.inr (Or.inr (Or.inr (Or.inl ⟨by decide, ?_⟩)))
  intro member
  simp [nullValue64, minusInf64] at member

/-- The pack `-2 ^ 63 + 2, 0, 3` is `2 ^ 63` wide.  Asked for `-2 ^ 63 + 3 .. 2`, the
histogram denies the value `0`. -/
theorem isValue_denies_zero :
    Describes [-2 ^ 63 + 2, 0, 3] (-2 ^ 63 + 2) 3 ∧
      (onePack.fill 0 [-2 ^ 63 + 2, 0, 3] (-2 ^ 63 + 2) 3).isValue (-2 ^ 63 + 3) 2 0
        (-2 ^ 63 + 2) 3 = .none ∧
      ¬AnswersSoundly (onePack.fill 0 [-2 ^ 63 + 2, 0, 3] (-2 ^ 63 + 2) 3) 0
        [-2 ^ 63 + 2, 0, 3] (-2 ^ 63 + 2) 3 := by
  have described : Describes [-2 ^ 63 + 2, 0, 3] (-2 ^ 63 + 2) 3 :=
    ⟨by decide, by decide, by decide, by decide⟩
  have held : Held onePack 0 := ⟨rfl, le_refl _, le_refl _⟩
  have filled := (fill_represents (by decide) held described).toHeld
  have denied : (onePack.fill 0 [-2 ^ 63 + 2, 0, 3] (-2 ^ 63 + 2) 3).isValue (-2 ^ 63 + 3)
      2 0 (-2 ^ 63 + 2) 3 = .none :=
    isValue_wide_lower (by decide) (by decide) filled (by decide)
  refine ⟨described, denied, ?_⟩
  intro sound
  have missed := (sound _ _ (by decide) (by decide) (by decide)).none_sound denied
  exact missed 0 (by decide) (by decide)

end Brighthouse.Core.Histogram
