import Brighthouse.Core.ColumnBinEncoderCodes

/-!
# The ranges of the integer encoders

The largest code, the size and the null status that an encoder has after its constructor
and after `SecondColumn`, and whether the codes of a range are faithful then.
-/

set_option autoImplicit false

namespace Brighthouse.Core.ColumnBinEncoder

open Library Library.Word64

variable {x y low high : Int}

/-- The values of a column as far as its rough range tells. -/
def VirtualColumn.InRange (vc : VirtualColumn) (v : Int) : Prop :=
  vc.roughMin ≤ v ∧ v ≤ vc.roughMax ∧ v ≠ nullValue64

def FullRange (low high : Int) : Prop := low = minusInf64 ∧ high = plusInf64

instance (low high : Int) : Decidable (FullRange low high) := inferInstanceAs (Decidable (_ ∧ _))

theorem wrap64_eq_wrap64 (same : x % 2 ^ 64 = y % 2 ^ 64) : wrap64 x = wrap64 y := by
  unfold wrap64
  rw [← Int.emod_bmod (x := x), ← Int.emod_bmod (x := y)]
  exact congrArg (Int.bmod · _) same

theorem wrap64_congr (inRange : IsInt64 y) (same : x % 2 ^ 64 = y % 2 ^ 64) : wrap64 x = y := by
  rw [wrap64_eq_wrap64 same, wrap64_of_isInt64 inRange]

theorem wrap64_uint64 (inRange : IsInt64 high) (shift : Int) :
    wrap64 (uint64 (high - low) + shift + low - shift) = high := by
  refine wrap64_congr inRange ?_
  rw [uint64_cast]
  omega

theorem uint64_eq_max_iff (lowInRange : IsInt64 low) (highInRange : IsInt64 high) :
    uint64 (high - low) = uint64Max ↔ FullRange low high ∨ low = high + 1 := by
  have cast := uint64_cast (high - low)
  obtain ⟨low1, low2⟩ := lowInRange
  obtain ⟨high1, high2⟩ := highInRange
  unfold uint64Max FullRange minusInf64 plusInf64
  constructor
  · intro full
    omega
  · rintro (⟨rfl, rfl⟩ | rfl) <;> omega

theorem uint64_of_le (lowInRange : IsInt64 low) (highInRange : IsInt64 high)
    (le : low ≤ high) : (uint64 (high - low) : Int) = high - low := by
  obtain ⟨low1, low2⟩ := lowInRange
  obtain ⟨high1, high2⟩ := highInRange
  exact uint64_of_nonneg (by omega) (by omega)

namespace EncoderInt

section
variable (vc : VirtualColumn) (nulls descending : Bool)

theorem new_maxVal : (new vc nulls descending).maxVal = vc.roughMax := by
  have same : (((new vc nulls descending).maxCode : Int) + (new vc nulls descending).minVal -
      (new vc nulls descending).nullShift) = uint64 (vc.roughMax - vc.roughMin) +
        (new vc nulls descending).nullShift + vc.roughMin -
        (new vc nulls descending).nullShift := by
    unfold nullShift new
    dsimp only
    split <;> push_cast <;> omega
  rw [maxVal, same, wrap64_uint64 vc.max_isInt64]

theorem new_nullStatus : (new vc nulls descending).nullStatus =
    if nulls then if uint64 (vc.roughMax - vc.roughMin) = uint64Max then 2 else 1 else 0 := by
  have small := uint64_lt (vc.roughMax - vc.roughMin)
  have limit : uint64Max = 2 ^ 64 - 1 := rfl
  unfold new
  dsimp only
  split
  · split <;> split <;> omega
  · rfl

theorem new_maxCode : (new vc nulls descending).maxCode =
    if nulls = true ∧ uint64 (vc.roughMax - vc.roughMin) ≠ uint64Max then
      uint64 (vc.roughMax - vc.roughMin) + 1
    else uint64 (vc.roughMax - vc.roughMin) := by
  change (if (new vc nulls descending).nullStatus = 1 then _ else _) = _
  rw [new_nullStatus]
  refine if_congr ?_ rfl rfl
  cases nulls with
  | false => simp
  | true =>
    by_cases full : uint64 (vc.roughMax - vc.roughMin) = uint64Max <;> simp [full]

theorem new_faithful (ordered : Bool) :
    Faithful ((new vc nulls descending).Written vc.InRange) ordered descending := by
  by_cases nonempty : vc.roughMin ≤ vc.roughMax
  · have cast := uint64_of_le vc.min_isInt64 vc.max_isInt64 nonempty
    have small := uint64_lt (vc.roughMax - vc.roughMin)
    have status := new_nullStatus vc nulls descending
    have reserved : Reserved (new vc nulls descending) vc.InRange vc.roughMax := {
      notNull := fun k key => key.2.2
      bounds := fun k key => ⟨key.1, key.2.1⟩
      status := by
        rw [status]
        split
        · split <;> decide
        · decide
      maxCode := by
        unfold nullShift new
        dsimp only
        split <;> push_cast <;> omega
      inRange := by
        rw [new_maxCode, uint64Max]
        split <;> omega
      size := rfl }
    exact reserved.faithful ordered
  · refine faithful_empty (fun k key => ?_) ordered descending
    exact nonempty (key.1.trans key.2.1)

end

theorem isInt64_min (hx : IsInt64 x) (hy : IsInt64 y) : IsInt64 (min x y) := by
  rcases min_choice x y with same | same <;> rw [same] <;> assumption

theorem isInt64_max (hx : IsInt64 x) (hy : IsInt64 y) : IsInt64 (max x y) := by
  rcases max_choice x y with same | same <;> rw [same] <;> assumption

theorem extend_faithful_iff (e : EncoderInt) (keys : Int → Prop) (high1 low2 high2 : Int)
    (status : e.nullStatus ≤ 2) (notNull : ∀ k, keys k → k ≠ nullValue64)
    (bounds : ∀ k, keys k → min e.minVal low2 ≤ k ∧ k ≤ max high1 high2)
    (lowInRange : IsInt64 (min e.minVal low2)) (highInRange : IsInt64 (max high1 high2)) :
    Faithful ((e.extend high1 low2 high2).Written keys) true e.descending ↔
      ¬(e.nullStatus = 1 ∧ ¬FullRange (min e.minVal low2) (max high1 high2) ∧
        Clashing keys (min e.minVal low2) (max high1 high2) e.descending) := by
  by_cases nonempty : ∃ k, keys k
  · obtain ⟨k, key⟩ := nonempty
    have le : min e.minVal low2 ≤ max high1 high2 := (bounds k key).1.trans (bounds k key).2
    have cast := uint64_of_le lowInRange highInRange le
    have full := uint64_eq_max_iff lowInRange highInRange
    rw [or_iff_left (by omega : ¬min e.minVal low2 = max high1 high2 + 1)] at full
    have minVal : (e.extend high1 low2 high2).minVal = min e.minVal low2 := (min_def_lt' _ _).symm
    have maxCode : (e.extend high1 low2 high2).maxCode =
        uint64 (max high1 high2 - min e.minVal low2) := by
      unfold extend
      simp only [← min_def_lt', ← max_def_lt]
    have finalStatus : (e.extend high1 low2 high2).nullStatus =
        if e.nullStatus = 1 ∧ FullRange (min e.minVal low2) (max high1 high2) then 2
        else e.nullStatus := by
      change (if e.nullStatus = 1 ∧ (e.extend high1 low2 high2).maxCode = uint64Max then 2
        else e.nullStatus) = _
      rw [maxCode]
      exact if_congr (and_congr_right fun _ => full) rfl rfl
    by_cases unreserved : e.nullStatus = 1 ∧ ¬FullRange (min e.minVal low2) (max high1 high2)
    · have final : (e.extend high1 low2 high2).nullStatus = 1 := by
        rw [finalStatus, if_neg (fun both => unreserved.2 both.2), unreserved.1]
      have state : Unreserved (e.extend high1 low2 high2) keys (max high1 high2) := {
        notNull
        bounds := fun k key => minVal ▸ bounds k key
        status := final
        maxCode := by rw [maxCode, minVal, cast]
        inRange := maxCode ▸ uint64_lt _
        size := by
          change calculateByteSize (e.extend high1 low2 high2).maxCode +
            flagSize (e.extend high1 low2 high2).nullStatus = _
          rw [final]
          rfl }
      have iff := state.written_faithful_iff
      rw [minVal] at iff
      rw [and_iff_right unreserved.1, and_iff_right unreserved.2]
      exact iff
    · have shift : (e.extend high1 low2 high2).nullShift = 0 := by
        refine if_neg ?_
        rw [finalStatus]
        split
        · decide
        · next other =>
            intro one
            exact unreserved ⟨one, fun isFull => other ⟨one, isFull⟩⟩
      have state : Reserved (e.extend high1 low2 high2) keys (max high1 high2) := {
        notNull
        bounds := fun k key => minVal ▸ bounds k key
        status := by
          rw [finalStatus]
          split <;> omega
        maxCode := by rw [maxCode, minVal, cast, shift, Int.natCast_zero, add_zero]
        inRange := maxCode ▸ uint64_lt _
        size := rfl }
      exact iff_of_true (state.faithful true) fun all => unreserved ⟨all.1, all.2.1⟩
  · rw [not_exists] at nonempty
    exact iff_of_true (faithful_empty nonempty true _) fun all => nonempty _ all.2.2.1

theorem sized_faithful_iff {e : EncoderInt} {keys : Int → Prop} (top : Int) (nulls : Bool)
    (status : e.nullStatus = if nulls then 1 else 0) (notNull : ∀ k, keys k → k ≠ nullValue64)
    (bounds : ∀ k, keys k → e.minVal ≤ k ∧ k ≤ top)
    (lowInRange : IsInt64 e.minVal) (topInRange : IsInt64 top)
    (maxCode : e.maxCode =
      if nulls = true ∧ uint64 (top - e.minVal) ≠ uint64Max then uint64 (top - e.minVal) + 1
      else uint64 (top - e.minVal)) (size : e.size = calculateByteSize e.maxCode) :
    Faithful (e.Written keys) true e.descending ↔
      ¬(nulls = true ∧ e.minVal = minusInf64 ∧ keys plusInf64) := by
  by_cases nonempty : ∃ k, keys k
  · obtain ⟨k, key⟩ := nonempty
    have le : e.minVal ≤ top := (bounds k key).1.trans (bounds k key).2
    have cast := uint64_of_le lowInRange topInRange le
    have small := uint64_lt (top - e.minVal)
    have full := uint64_eq_max_iff lowInRange topInRange
    rw [or_iff_left (by omega : ¬e.minVal = top + 1)] at full
    have topKey : e.minVal = minusInf64 → keys plusInf64 → FullRange e.minVal top := by
      intro lowest key
      have above := (bounds _ key).2
      have below := topInRange.2
      refine ⟨lowest, ?_⟩
      unfold plusInf64 at above ⊢
      omega
    by_cases unreserved : nulls = true ∧ FullRange e.minVal top
    · obtain ⟨isNull, isFull⟩ := unreserved
      rw [if_neg (fun both => both.2 (full.mpr isFull))] at maxCode
      have state : Unreserved e keys top := {
        notNull, bounds, size
        status := by rw [status, if_pos isNull]
        maxCode := by rw [maxCode, cast]
        inRange := maxCode ▸ small }
      rw [state.written_faithful_iff, and_iff_right isNull, and_iff_right isFull.1, isFull.2]
      refine not_congr (and_iff_left (.inl ⟨8, ?_⟩))
      rw [isFull.1]
      decide
    · have shift : e.nullShift = if nulls then 1 else 0 := by
        rw [nullShift, status]
        cases nulls <;> rfl
      have state : Reserved e keys top := {
        notNull, bounds
        status := by rw [status]; split <;> decide
        maxCode := by
          rw [maxCode, shift]
          cases nulls with
          | false => simpa using cast
          | true =>
            rw [if_pos ⟨rfl, fun isMax => unreserved ⟨rfl, full.mp isMax⟩⟩]
            push_cast
            rw [cast]
            rfl
        inRange := by
          rw [maxCode, uint64Max]
          split <;> omega
        size := by
          rw [size, status]
          cases nulls <;> rfl }
      exact iff_of_true (state.faithful true) fun all =>
        unreserved ⟨all.1, topKey all.2.1 all.2.2⟩
  · rw [not_exists] at nonempty
    exact iff_of_true (faithful_empty nonempty true _) fun all => nonempty _ all.2.2

end EncoderInt

/-! ## Lookups -/

theorem VirtualColumn.InRange.isInt64 {vc : VirtualColumn} {v : Int} (inRange : vc.InRange v) :
    IsInt64 v :=
  ⟨vc.min_isInt64.1.trans inRange.1, inRange.2.1.trans_lt vc.max_isInt64.2⟩

namespace EncoderLookup

theorem new_faithful_iff (vc : VirtualColumn) (descending : Bool) :
    Faithful ((new vc descending).Written vc.InRange) false descending ↔
      ¬FullRange vc.roughMin vc.roughMax := by
  have isMax := uint64_eq_max_iff vc.min_isInt64 vc.max_isInt64
  by_cases full : FullRange vc.roughMin vc.roughMax
  · have sizeless : (new vc descending).size = 0 := by
      change calculateByteSize (uint64 (uint64 (vc.roughMax - vc.roughMin) + 1)) = 0
      rw [isMax.mpr (.inl full)]
      decide
    rw [EncoderInt.faithful_iff_of_sizeless rfl sizeless]
    refine iff_of_false (fun none => none 0 ?_) (not_not.mpr full)
    rw [VirtualColumn.InRange, full.1, full.2]
    decide
  · refine iff_of_true ?_ full
    by_cases nonempty : vc.roughMin ≤ vc.roughMax
    · have cast := uint64_of_le vc.min_isInt64 vc.max_isInt64 nonempty
      have small := uint64_lt (vc.roughMax - vc.roughMin)
      rw [or_iff_left (by omega : ¬vc.roughMin = vc.roughMax + 1)] at isMax
      have below := mt isMax.mp full
      unfold uint64Max at below
      have code : (new vc descending).maxCode = uint64 (vc.roughMax - vc.roughMin) + 1 := by
        have outer := uint64_cast ((uint64 (vc.roughMax - vc.roughMin) : Int) + 1)
        change uint64 (uint64 (vc.roughMax - vc.roughMin) + 1) = _
        omega
      have state : EncoderInt.Reserved (new vc descending).toEncoderInt vc.InRange vc.roughMax := {
        notNull := fun k key => key.2.2
        bounds := fun k key => ⟨key.1, key.2.1⟩
        status := by change 1 ≤ 2; decide
        maxCode := by
          rw [code]
          push_cast
          rw [cast]
          rfl
        inRange := by omega
        size := rfl }
      exact state.faithful false
    · refine EncoderInt.faithful_empty (fun k key => ?_) false descending
      exact nonempty (key.1.trans key.2.1)

theorem secondColumn_state {vc w : VirtualColumn} {descending : Bool} {e : EncoderLookup}
    (accepted : secondColumn (new vc descending) vc w = some e) :
    e.nullStatus = 1 ∧ e.minVal = min vc.roughMin w.roughMin ∧
      e.maxCode = uint64 (max vc.roughMax w.roughMax - min vc.roughMin w.roughMin) ∧
      e.size = calculateByteSize e.maxCode ∧
      translation vc w vc.roughMin vc.roughMax = some e.translate2 := by
  have maxVal : wrap64 ((new vc descending).maxCode + (new vc descending).minVal - 1) =
      vc.roughMax := by
    refine wrap64_congr vc.max_isInt64 ?_
    change ((uint64 (uint64 (vc.roughMax - vc.roughMin) + 1) : Int) + vc.roughMin - 1) % 2 ^ 64 = _
    rw [uint64_cast, uint64_cast]
    omega
  unfold secondColumn at accepted
  split at accepted
  · cases accepted
  · rw [maxVal] at accepted
    obtain ⟨translate2, translated, result⟩ := Option.bind_eq_some_iff.mp accepted
    simp only [← min_def_lt', ← max_def_lt] at result
    cases result
    exact ⟨rfl, rfl, rfl, rfl, translated⟩

end EncoderLookup

end Brighthouse.Core.ColumnBinEncoder
