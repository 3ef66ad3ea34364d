import Brighthouse.Core.HistogramSound

/-!
# Common values of two histograms

`Intersection` first asks each histogram for the pack ends of the other and then,
if both packs are in exact mode, scans the values strictly inside both packs.
-/

set_option autoImplicit false

namespace Brighthouse.Core.Histogram

open Library Library.Word64 Library.WordTable

def Known (values : List Int) (packMin packMax v : Int) : Prop :=
  v = packMin ∨ v = packMax ∨ Recorded values packMin packMax v

section Exact

variable {h : Hist} {pack packMin packMax : Int} {values : List Int}

theorem exactMode_small (ints : IsInt64 packMin ∧ IsInt64 packMax) (le : packMin ≤ packMax)
    (exact : exactMode packMin packMax = true) : intervalTooLarge packMin packMax = false := by
  rw [exactMode_iff ints le] at exact
  simp only [intervalTooLarge, Bool.and_eq_false_iff, decide_eq_false_iff_not]
  omega

theorem valueBit_exact (exact : exactMode packMin packMax = true) (v : Int) :
    valueBit v packMin packMax = v - packMin - 1 := if_pos exact

theorem isValue_point_exact (represents : Represents h pack values packMin packMax)
    (described : Describes values packMin packMax) (exact : exactMode packMin packMax = true)
    (x : Int) : h.isValue x x pack packMin packMax ≠ .none ↔ Known values packMin packMax x := by
  have ints := described.ints
  have le := (described.bounds _ described.min_mem).2
  have small := exactMode_small ints le exact
  have width := (exactMode_iff ints le).mp exact
  have ⟨fixed, startLe, leEnd⟩ := represents.toHeld
  by_cases inside : packMin < x ∧ x < packMax
  · obtain ⟨above, below⟩ := inside
    have hitIff : Hit values packMin packMax x x ↔ Known values packMin packMax x := by
      simp only [Hit, valueBit_exact exact]
      constructor
      · rintro (large | ⟨v, recorded, lower, upper⟩)
        · omega
        · have same : v = x := by omega
          exact .inr (.inr (same ▸ recorded))
      · rintro (rfl | rfl | recorded)
        · omega
        · omega
        · exact .inr ⟨x, recorded, le_refl _, le_refl _⟩
    rcases isValue_inside represents small (by omega) above (le_refl x) below with
      ⟨isSome, hit⟩ | ⟨isNone, noHit⟩
    · simp [isSome, hitIff.mp hit]
    · simp [isNone, mt hitIff.mpr noHit]
  · have point : intervalTooLarge x x = false := by
      simp only [intervalTooLarge, Bool.and_eq_false_iff, decide_eq_false_iff_not]
      omega
    have onEnds : Known values packMin packMax x ↔ x = packMin ∨ x = packMax := by
      simp only [Known, Recorded]
      omega
    rw [onEnds, Hist.isValue, if_neg (by omega), small, point, if_neg (by decide), fixed,
      if_pos rfl, Hist.fixedBits]
    by_cases apart : x < packMin ∨ x > packMax
    · rw [if_pos apart]
      simp only [ne_eq, not_true_eq_false, false_iff]
      omega
    · rw [if_neg apart]
      by_cases covers : x ≥ packMax ∧ x ≤ packMin
      · rw [if_pos covers]
        simp only [ne_eq, reduceCtorEq, not_false_eq_true, true_iff]
        omega
      · rw [if_neg covers, if_pos (by omega)]
        simp only [ne_eq, reduceCtorEq, not_false_eq_true, true_iff]
        omega

theorem readBit_exact (represents : Represents h pack values packMin packMax)
    (exact : exactMode packMin packMax = true) {offset : Int} (nonneg : 0 ≤ offset)
    (small : offset < 1024) :
    h.readBit pack offset = true ↔ Recorded values packMin packMax (packMin + 1 + offset) := by
  rw [readBit_inside represents nonneg small]
  simp only [valueBit_exact exact]
  constructor
  · rintro ⟨v, recorded, bitEq⟩
    have same : packMin + 1 + offset = v := by omega
    rw [same]
    exact recorded
  · intro recorded
    exact ⟨_, recorded, by omega⟩

end Exact

/-- What `Intersection` looks for in two exact-mode packs.  The scan compares the bits
of a value for both packs within the first pack, so besides `v` it looks for the
value that lies as far from the first minimum as `v` does from the second. -/
def Visible (values : List Int) (packMin packMax : Int) (values2 : List Int)
    (packMin2 packMax2 : Int) : Prop :=
  Known values2 packMin2 packMax2 packMin ∨ Known values2 packMin2 packMax2 packMax ∨
    Known values packMin packMax packMin2 ∨ Known values packMin packMax packMax2 ∨
    ∃ v, packMin2 < v ∧ v < packMax2 ∧ Recorded values packMin packMax v ∧
      Recorded values packMin packMax (packMin + (v - packMin2))

section Intersection

variable {h sec : Hist} {pack packMin packMax pack2 packMin2 packMax2 : Int}
  {values values2 : List Int}

variable (represents : Represents h pack values packMin packMax)
  (described : Describes values packMin packMax) (described2 : Describes values2 packMin2 packMax2)
  (exact : exactMode packMin packMax = true) (exact2 : exactMode packMin2 packMax2 = true)
include represents described described2 exact exact2

theorem scan_exact (overlap : packMin2 < packMax) (overlap2 : packMin < packMax2) :
    anyBetween (fun v => h.readBit pack (wrap64 (v - packMin - 1)) &&
        h.readBit pack (wrap64 (v - packMin2 - 1)))
      (wrap64 (if packMin < packMin2 then packMin2 + 1 else packMin + 1))
      (wrap64 (if packMax > packMax2 then packMax2 - 1 else packMax - 1)) = true ↔
    ∃ v, packMin2 < v ∧ v < packMax2 ∧ Recorded values packMin packMax v ∧
      Recorded values packMin packMax (packMin + (v - packMin2)) := by
  have ints := described.ints
  have ints2 := described2.ints
  have width := (exactMode_iff ints (described.bounds _ described.min_mem).2).mp exact
  have width2 :=
    (exactMode_iff ints2 (described2.bounds _ described2.min_mem).2).mp exact2
  have ⟨⟨minLow, minHigh⟩, maxLow, maxHigh⟩ := ints
  have ⟨⟨minLow2, minHigh2⟩, maxLow2, maxHigh2⟩ := ints2
  have first : wrap64 (if packMin < packMin2 then packMin2 + 1 else packMin + 1) =
      max packMin packMin2 + 1 := by
    rw [wrap64_of_isInt64 (by split <;> constructor <;> omega)]
    split <;> omega
  have last : wrap64 (if packMax > packMax2 then packMax2 - 1 else packMax - 1) =
      min packMax packMax2 - 1 := by
    rw [wrap64_of_isInt64 (by split <;> constructor <;> omega)]
    split <;> omega
  have bits : ∀ v, max packMin packMin2 + 1 ≤ v → v ≤ min packMax packMax2 - 1 →
      ((h.readBit pack (wrap64 (v - packMin - 1)) &&
        h.readBit pack (wrap64 (v - packMin2 - 1))) = true ↔
        Recorded values packMin packMax v ∧
          Recorded values packMin packMax (packMin + (v - packMin2))) := by
    intro v lower upper
    rw [wrap64_of_isInt64 ⟨by omega, by omega⟩, wrap64_of_isInt64 ⟨by omega, by omega⟩,
      Bool.and_eq_true, readBit_exact represents exact (by omega) (by omega),
      readBit_exact represents exact (by omega) (by omega),
      show packMin + 1 + (v - packMin - 1) = v by ring,
      show packMin + 1 + (v - packMin2 - 1) = packMin + (v - packMin2) by ring]
  rw [first, last, anyBetween_iff]
  constructor
  · rintro ⟨v, lower, upper, isSet⟩
    exact ⟨v, by omega, by omega, (bits v lower upper).mp isSet⟩
  · rintro ⟨v, above, below, recorded, shifted⟩
    have inside := recorded.2.2
    exact ⟨v, by omega, by omega, (bits v (by omega) (by omega)).mpr ⟨recorded, shifted⟩⟩

theorem intersection_exact (represents2 : Represents sec pack2 values2 packMin2 packMax2)
    (common : ∃ c, c ∈ values ∧ c ∈ values2) :
    h.intersection pack packMin packMax sec pack2 packMin2 packMax2 = true ↔
      Visible values packMin packMax values2 packMin2 packMax2 := by
  have small := exactMode_small described.ints (described.bounds _ described.min_mem).2 exact
  have small2 := exactMode_small described2.ints (described2.bounds _ described2.min_mem).2 exact2
  have known2 := isValue_point_exact represents2 described2 exact2
  have known := isValue_point_exact represents described exact
  rw [Hist.intersection, represents.fixed, represents2.fixed, if_neg (by decide), small, small2,
    if_neg (by decide), exact, exact2]
  by_cases ends : sec.isValue packMin packMin pack2 packMin2 packMax2 ≠ .none ∨
      sec.isValue packMax packMax pack2 packMin2 packMax2 ≠ .none ∨
      h.isValue packMin2 packMin2 pack packMin packMax ≠ .none ∨
      h.isValue packMax2 packMax2 pack packMin packMax ≠ .none
  · rw [if_pos ends]
    rw [known2, known2, known, known] at ends
    refine iff_of_true rfl ?_
    tauto
  · rw [if_neg ends, if_pos (by decide)]
    rw [known2, known2, known, known] at ends
    obtain ⟨c, mem, member2⟩ := common
    have bounds := described.bounds c mem
    have bounds2 := described2.bounds c member2
    -- The packs share `c`, so they would only touch at an end that is known.
    have overlap : packMin2 < packMax := by
      by_contra touch
      exact ends (.inr (.inl (.inl (by omega))))
    have overlap2 : packMin < packMax2 := by
      by_contra touch
      exact ends (.inl (.inr (.inl (by omega))))
    simp only [not_or] at ends
    obtain ⟨noMin, noMax, noMin2, noMax2⟩ := ends
    rw [scan_exact represents described described2 exact exact2 overlap overlap2]
    simp only [Visible, noMin, noMax, noMin2, noMax2, false_or]

end Intersection

/-- Both packs are in memory and in exact mode, the case in which the answer may be
negative. -/
def Scanned (h : Hist) (pack packMin packMax : Int) : Prop :=
  h.startPack ≤ pack ∧ pack ≤ h.endPack ∧ exactMode packMin packMax = true

theorem isValue_not_in_memory {h : Hist} {pack : Int}
    (away : ¬(h.startPack ≤ pack ∧ pack ≤ h.endPack)) (minV maxV packMin packMax : Int) :
    h.isValue minV maxV pack packMin packMax = .some := by
  rw [Hist.isValue, if_pos (by omega)]

theorem intersection_not_scanned {h sec : Hist} {pack packMin packMax pack2 packMin2 packMax2 : Int}
    (unscanned : ¬(Scanned h pack packMin packMax ∧ Scanned sec pack2 packMin2 packMax2)) :
    h.intersection pack packMin packMax sec pack2 packMin2 packMax2 = true := by
  by_contra denied
  unfold Hist.intersection at denied
  split at denied
  · exact denied rfl
  · split at denied
    · exact denied rfl
    · split at denied
      · exact denied rfl
      · rename_i noEnds
        split at denied
        · rename_i exact
          rw [Bool.and_eq_true] at exact
          have inMemory : h.startPack ≤ pack ∧ pack ≤ h.endPack := by
            by_contra away
            exact noEnds (.inr (.inr (.inl (by rw [isValue_not_in_memory away]; decide))))
          have inMemory2 : sec.startPack ≤ pack2 ∧ pack2 ≤ sec.endPack := by
            by_contra away
            exact noEnds (.inl (by rw [isValue_not_in_memory away]; decide))
          exact unscanned ⟨⟨inMemory.1, inMemory.2, exact.1⟩, inMemory2.1, inMemory2.2, exact.2⟩
        · exact denied rfl

/-- Two packs with a common value are found to intersect exactly if one of them is not
scanned or a common value is visible. -/
theorem intersection_fill_iff (h sec : Hist) (fixed : h.fixed = true) (fixed2 : sec.fixed = true)
    (pack pack2 : Int) (values values2 : List Int) (packMin packMax packMin2 packMax2 : Int)
    (described : Describes values packMin packMax)
    (described2 : Describes values2 packMin2 packMax2)
    (common : ∃ c, c ∈ values ∧ c ∈ values2) :
    (h.fill pack values packMin packMax).intersection pack packMin packMax
        (sec.fill pack2 values2 packMin2 packMax2) pack2 packMin2 packMax2 = true ↔
      (Scanned h pack packMin packMax → Scanned sec pack2 packMin2 packMax2 →
        Visible values packMin packMax values2 packMin2 packMax2) := by
  obtain ⟨startEq, endEq⟩ := fill_frame h pack values packMin packMax
  obtain ⟨startEq2, endEq2⟩ := fill_frame sec pack2 values2 packMin2 packMax2
  by_cases scanned : Scanned h pack packMin packMax ∧ Scanned sec pack2 packMin2 packMax2
  · obtain ⟨⟨startLe, leEnd, exact⟩, startLe2, leEnd2, exact2⟩ := scanned
    have small := exactMode_small described.ints (described.bounds _ described.min_mem).2 exact
    have small2 := exactMode_small described2.ints (described2.bounds _ described2.min_mem).2 exact2
    rw [intersection_exact (fill_represents small ⟨fixed, startLe, leEnd⟩ described) described
      described2 exact exact2 (fill_represents small2 ⟨fixed2, startLe2, leEnd2⟩ described2) common]
    constructor
    · intro visible _ _
      exact visible
    · intro visible
      exact visible ⟨startLe, leEnd, exact⟩ ⟨startLe2, leEnd2, exact2⟩
  · refine iff_of_true (intersection_not_scanned ?_) ?_
    · simpa only [Scanned, startEq, endEq, startEq2, endEq2] using scanned
    · intro first second
      exact absurd ⟨first, second⟩ scanned

theorem intersection_finds_five :
    (onePack.fill 0 [0, 5, 10] 0 10).intersection 0 0 10
      (onePack.fill 0 [0, 5, 12] 0 12) 0 0 12 = true := by
  refine (intersection_fill_iff onePack onePack rfl rfl 0 0 [0, 5, 10] [0, 5, 12] 0 10 0 12
    ⟨by decide, by decide, by decide, by decide⟩ ⟨by decide, by decide, by decide, by decide⟩
    ⟨5, by decide, by decide⟩).mpr ?_
  intro _ _
  exact Or.inl (Or.inl rfl)

/-- `5` is common, but the scan looks for its second bit in the first pack. -/
theorem intersection_misses_five :
    Describes [0, 5, 10] 0 10 ∧ Describes [3, 5, 12] 3 12 ∧
      (onePack.fill 0 [0, 5, 10] 0 10).intersection 0 0 10
        (onePack.fill 0 [3, 5, 12] 3 12) 0 3 12 = false := by
  refine ⟨⟨?_, ?_, ?_, ?_⟩, ⟨?_, ?_, ?_, ?_⟩, ?_⟩ <;> decide

end Brighthouse.Core.Histogram
