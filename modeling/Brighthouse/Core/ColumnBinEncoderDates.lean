import Brighthouse.Core.ColumnBinEncoderRanges

/-!
# The ranges of dates and years

`EncoderDate` and `EncoderYear` compare dates by their leading bits.  The two count the
code of null differently when a second column is added.
-/

set_option autoImplicit false

namespace Brighthouse.Core.ColumnBinEncoder

open Library Library.Word64 EncoderInt

variable {k : Int}

/-! ## Keys -/

section
variable {shift : Nat}

theorem sortEncoding_shiftRight (v : Int) : v >>> shift = v / 2 ^ shift := by
  rw [Int.shiftRight_eq_div_pow]
  push_cast
  rfl

variable {v : Int}

section
variable (shift) [large : Fact (28 ≤ shift)] (inRange : IsInt64 v)
include inRange

theorem sortEncoding_cases :
    v = minusInf64 ∧ sortEncoding shift v = minusInf64 ∨
      v = plusInf64 ∧ sortEncoding shift v = plusInf64 ∨
      sortEncoding shift v = v / 2 ^ shift ∧ -2 ^ 35 ≤ sortEncoding shift v ∧
        sortEncoding shift v < 2 ^ 35 := by
  unfold sortEncoding
  by_cases low : v = minusInf64
  · simp [low]
  · by_cases high : v = plusInf64
    · right; left
      simp [high]
    · rw [if_pos ⟨low, high⟩, sortEncoding_shiftRight]
      right; right
      have positive : (0 : Int) < 2 ^ shift := Int.pow_pos (by decide)
      have scale : (2 : Int) ^ 28 ≤ 2 ^ shift := pow_le_pow_right₀ (by decide) large.out
      obtain ⟨lower, upper⟩ := inRange
      refine ⟨rfl, ?_, ?_⟩
      · rw [Int.le_ediv_iff_mul_le positive]
        omega
      · rw [Int.ediv_lt_iff_lt_mul positive]
        omega

theorem sortEncoding_isInt64 : IsInt64 (sortEncoding shift v) := by
  rcases sortEncoding_cases shift inRange with ⟨-, same⟩ | ⟨-, same⟩ | ⟨-, low, high⟩
  · rw [same]; decide
  · rw [same]; decide
  · exact ⟨by omega, by omega⟩

theorem sortEncoding_ne_null : sortEncoding shift v ≠ nullValue64 := by
  unfold nullValue64 minusInf64
  rcases sortEncoding_cases shift inRange with ⟨-, same⟩ | ⟨-, same⟩ | ⟨-, low, high⟩
  · rw [same]; decide
  · rw [same]; decide
  · omega

end

theorem sortEncoding_mono [Fact (28 ≤ shift)] {w : Int} (inRange : IsInt64 v)
    (inRange' : IsInt64 w) (le : v ≤ w) : sortEncoding shift v ≤ sortEncoding shift w := by
  have first := sortEncoding_isInt64 shift inRange
  have second := sortEncoding_isInt64 shift inRange'
  unfold IsInt64 at first second inRange inRange'
  have low : minusInf64 = -2 ^ 63 := rfl
  have high : plusInf64 = 2 ^ 63 - 1 := rfl
  rcases sortEncoding_cases shift inRange with ⟨isLow, same⟩ | ⟨isHigh, same⟩ | ⟨same, -⟩
  · omega
  · have top : w = plusInf64 := by omega
    rw [isHigh, top]
  · rcases sortEncoding_cases shift inRange' with ⟨isLow, same'⟩ | ⟨isHigh, same'⟩ | ⟨same', -⟩
    · have bottom : v = minusInf64 := by omega
      rw [isLow, bottom]
    · omega
    · rw [same, same']
      exact Int.ediv_le_ediv (Int.pow_pos (by decide)) le

def SortKeys (shift : Nat) (vc : VirtualColumn) (k : Int) : Prop :=
  ∃ v, vc.InRange v ∧ k = sortEncoding shift v

section
variable [Fact (28 ≤ shift)] {vc : VirtualColumn}

theorem SortKeys.bounds (key : SortKeys shift vc k) :
    sortEncoding shift vc.roughMin ≤ k ∧ k ≤ sortEncoding shift vc.roughMax := by
  obtain ⟨v, inRange, rfl⟩ := key
  exact ⟨sortEncoding_mono vc.min_isInt64 inRange.isInt64 inRange.1,
    sortEncoding_mono inRange.isInt64 vc.max_isInt64 inRange.2.1⟩

theorem SortKeys.ne_null (key : SortKeys shift vc k) : k ≠ nullValue64 := by
  obtain ⟨v, inRange, rfl⟩ := key
  exact sortEncoding_ne_null shift inRange.isInt64

theorem sortKeys_plusInf (infinite : sortEncoding shift vc.roughMax = plusInf64) :
    SortKeys shift vc plusInf64 := by
  have top : plusInf64 = 2 ^ 63 - 1 := rfl
  have isTop : vc.roughMax = plusInf64 := by
    have cases := sortEncoding_cases shift vc.max_isInt64
    omega
  have below := vc.min_isInt64.2
  rw [isTop] at infinite
  exact ⟨plusInf64, ⟨by omega, isTop.ge, by decide⟩, infinite.symm⟩

end

section
variable [Fact (28 ≤ shift)] (vc : VirtualColumn) (nulls descending : Bool)

theorem newSortEncoded_faithful_iff :
    Faithful ((newSortEncoded (sortEncoding shift) vc nulls descending).Written
        (SortKeys shift vc)) true descending ↔
      ¬(nulls = true ∧ sortEncoding shift vc.roughMin = minusInf64 ∧
        SortKeys shift vc plusInf64) := by
  exact sized_faithful_iff (e := newSortEncoded (sortEncoding shift) vc nulls descending)
    (sortEncoding shift vc.roughMax) nulls rfl (fun k key => key.ne_null)
    (fun k key => key.bounds) (sortEncoding_isInt64 shift vc.min_isInt64)
    (sortEncoding_isInt64 shift vc.max_isInt64) rfl rfl

theorem newSortEncoded_maxVal :
    (newSortEncoded (sortEncoding shift) vc nulls descending).maxVal =
      if nulls = true ∧ uint64 (sortEncoding shift vc.roughMax - sortEncoding shift vc.roughMin) =
          uint64Max then wrap64 (sortEncoding shift vc.roughMax - 1)
      else sortEncoding shift vc.roughMax := by
  have inRange := sortEncoding_isInt64 shift vc.max_isInt64
  have cast := uint64_cast (sortEncoding shift vc.roughMax - sortEncoding shift vc.roughMin)
  rw [maxVal, nullShift]
  unfold newSortEncoded
  cases nulls with
  | false =>
    simp only [Bool.false_eq_true, false_and]
    refine wrap64_congr inRange ?_
    push_cast
    omega
  | true =>
    simp only [true_and]
    by_cases full : uint64 (sortEncoding shift vc.roughMax - sortEncoding shift vc.roughMin) =
        uint64Max
    · rw [if_pos full]
      refine wrap64_eq_wrap64 ?_
      push_cast
      omega
    · rw [if_neg full]
      refine wrap64_congr inRange ?_
      push_cast
      omega

end

def lowestKey (shift : Nat) (vc w : VirtualColumn) : Int :=
  min (sortEncoding shift vc.roughMin) (sortEncoding shift w.roughMin)

def highestKey (shift : Nat) (vc w : VirtualColumn) : Int :=
  max (sortEncoding shift vc.roughMax) (sortEncoding shift w.roughMax)

def FullKeys (shift : Nat) (vc : VirtualColumn) : Prop :=
  FullRange (sortEncoding shift vc.roughMin) (sortEncoding shift vc.roughMax)

def SortKeys2 (shift : Nat) (vc w : VirtualColumn) (k : Int) : Prop :=
  SortKeys shift vc k ∨ SortKeys shift w k

section
variable [Fact (28 ≤ shift)] {vc w : VirtualColumn}

theorem SortKeys2.ne_null (key : SortKeys2 shift vc w k) : k ≠ nullValue64 := by
  rcases key with first | second
  · exact first.ne_null
  · exact second.ne_null

theorem SortKeys2.bounds (key : SortKeys2 shift vc w k) :
    lowestKey shift vc w ≤ k ∧ k ≤ highestKey shift vc w := by
  unfold lowestKey highestKey
  rcases key with first | second
  · have := first.bounds
    omega
  · have := second.bounds
    omega

theorem isInt64_lowest : IsInt64 (lowestKey shift vc w) :=
  isInt64_min (sortEncoding_isInt64 shift vc.min_isInt64)
    (sortEncoding_isInt64 shift w.min_isInt64)

theorem isInt64_highest : IsInt64 (highestKey shift vc w) :=
  isInt64_max (sortEncoding_isInt64 shift vc.max_isInt64)
    (sortEncoding_isInt64 shift w.max_isInt64)

end

end

/-- The larger key of the upper bounds, as `SecondColumn` reads them. -/
def recordedTop (shift : Nat) (vc w : VirtualColumn) (nulls : Bool) : Int :=
  max (if nulls = true ∧ uint64 (sortEncoding shift vc.roughMax - sortEncoding shift vc.roughMin) =
      uint64Max then wrap64 (sortEncoding shift vc.roughMax - 1)
    else sortEncoding shift vc.roughMax) (sortEncoding shift w.roughMax)

section
variable {shift : Nat} [Fact (28 ≤ shift)] {vc w : VirtualColumn} {nulls : Bool}

theorem isInt64_recordedTop : IsInt64 (recordedTop shift vc w nulls) := by
  refine isInt64_max ?_ (sortEncoding_isInt64 shift w.max_isInt64)
  split
  · exact isInt64_wrap64 _
  · exact sortEncoding_isInt64 shift vc.max_isInt64

theorem SortKeys2.le_recordedTop (key : SortKeys2 shift vc w k)
    (notFull : ¬(nulls = true ∧ FullKeys shift vc)) :
    lowestKey shift vc w ≤ k ∧ k ≤ recordedTop shift vc w nulls := by
  refine ⟨key.bounds.1, ?_⟩
  rcases key with first | second
  · have bounds := first.bounds
    refine le_trans bounds.2 (le_trans (le_of_eq ?_) (le_max_left _ _))
    rw [if_neg]
    rintro ⟨isNull, full⟩
    rw [uint64_eq_max_iff (sortEncoding_isInt64 shift vc.min_isInt64)
      (sortEncoding_isInt64 shift vc.max_isInt64), or_iff_left (by omega)] at full
    exact notFull ⟨isNull, full⟩
  · exact (second.bounds).2.trans (le_max_right _ _)

theorem recordedTop_of_full (full : nulls = true ∧ FullKeys shift vc) :
    lowestKey shift vc w = minusInf64 ∧
      (recordedTop shift vc w nulls = plusInf64 - 1 ∨
        recordedTop shift vc w nulls = plusInf64) := by
  obtain ⟨isNull, low, high⟩ := full
  have lowInRange := sortEncoding_isInt64 shift w.min_isInt64
  have highInRange := sortEncoding_isInt64 shift w.max_isInt64
  have less : wrap64 (plusInf64 - 1) = plusInf64 - 1 := by decide
  have bottom : minusInf64 = -2 ^ 63 := rfl
  have top : plusInf64 = 2 ^ 63 - 1 := rfl
  unfold IsInt64 at lowInRange highInRange
  refine ⟨?_, ?_⟩
  · rw [lowestKey]
    omega
  · rw [recordedTop, low, high]
    omega

end

instance yearShift : Fact (28 ≤ 37) := ⟨by decide⟩

namespace EncoderYear

section
variable {vc w : VirtualColumn} {nulls descending : Bool} {e : EncoderInt}
  (accepted : secondColumn (new vc nulls descending) w = some e)
include accepted

theorem secondColumn_state :
    e.descending = descending ∧ e.nullStatus = (if nulls then 1 else 0) ∧
      e.minVal = lowestKey 37 vc w ∧
      e.maxCode = (if nulls = true ∧
          uint64 (recordedTop 37 vc w nulls - lowestKey 37 vc w) ≠ uint64Max then
        uint64 (recordedTop 37 vc w nulls - lowestKey 37 vc w) + 1
        else uint64 (recordedTop 37 vc w nulls - lowestKey 37 vc w)) ∧
      e.size = calculateByteSize e.maxCode := by
  have maxVal : (new vc nulls descending).maxVal = _ :=
    newSortEncoded_maxVal vc nulls descending
  unfold secondColumn at accepted
  split at accepted
  · cases accepted
  · simp only [← min_def_lt', ← max_def_lt, maxVal] at accepted
    cases accepted
    refine ⟨rfl, rfl, rfl, ?_, rfl⟩
    have status : (new vc nulls descending).nullStatus = 1 ↔ nulls = true := by
      cases nulls <;> simp [new, newSortEncoded]
    exact if_congr (and_comm.trans (and_congr_left fun _ => status)) rfl rfl

theorem secondColumn_faithful_iff :
    Faithful (e.Written (SortKeys2 37 vc w)) true descending ↔
      ¬(nulls = true ∧ lowestKey 37 vc w = minusInf64 ∧ SortKeys2 37 vc w plusInf64) := by
  have lowInRange : IsInt64 (lowestKey 37 vc w) := isInt64_lowest
  obtain ⟨descends, status, minVal, maxCode, size⟩ := secondColumn_state accepted
  rw [← descends, ← minVal]
  by_cases full : nulls = true ∧ FullKeys 37 vc
  · -- the largest code is the same, whether the largest value was read back or not
    obtain ⟨lowest, top⟩ := recordedTop_of_full (w := w) full
    have isMax : uint64 (plusInf64 - minusInf64) = uint64Max := by decide
    have less : uint64 (plusInf64 - 1 - minusInf64) + 1 = uint64Max ∧
        uint64 (plusInf64 - 1 - minusInf64) ≠ uint64Max := by decide
    have codes : e.maxCode = uint64Max := by
      rw [maxCode, lowest]
      rcases top with isLess | isTop
      · rw [isLess, if_pos ⟨full.1, less.2⟩, less.1]
      · rw [isTop, isMax, if_neg (fun both => both.2 rfl)]
    refine sized_faithful_iff plusInf64 nulls status
      (fun k key => key.ne_null) (fun k key => ?_) (minVal ▸ lowInRange) (by decide) ?_ size
    · rw [minVal]
      refine ⟨key.bounds.1, key.bounds.2.trans ?_⟩
      have highInRange : IsInt64 (highestKey 37 vc w) := isInt64_highest
      have below := highInRange.2
      unfold plusInf64
      omega
    · rw [minVal, lowest, isMax, if_neg (fun both => both.2 rfl), codes]
  · refine sized_faithful_iff (recordedTop 37 vc w nulls) nulls status
      (fun k key => key.ne_null) (fun k key => ?_) (minVal ▸ lowInRange)
      isInt64_recordedTop (minVal ▸ maxCode) size
    rw [minVal]
    exact key.le_recordedTop full

end

end EncoderYear

instance dateShift : Fact (28 ≤ 28) := ⟨le_refl 28⟩

namespace EncoderDate

def CountsNull (vc : VirtualColumn) : Prop :=
  uint64 (dateSortEncoding vc.roughMax - dateSortEncoding vc.roughMin) ≠ uint64Max ∧
    uint64 (dateSortEncoding vc.roughMax - dateSortEncoding vc.roughMin) + 1 ≠ uint64Max

/-- The bounds of an empty first column, too close to leave that room. -/
def Emptied (vc : VirtualColumn) : Prop :=
  dateSortEncoding vc.roughMin = dateSortEncoding vc.roughMax + 1 ∨
    dateSortEncoding vc.roughMin = dateSortEncoding vc.roughMax + 2

instance (vc : VirtualColumn) : Decidable (CountsNull vc) := inferInstanceAs (Decidable (_ ∧ _))

variable {e : EncoderInt}
variable {descending : Bool} {vc w : VirtualColumn}

theorem secondColumn_state {nulls : Bool}
    (accepted : secondColumn (new vc nulls descending) w = some e) :
    e.descending = descending ∧ e.nullStatus = (if nulls then 1 else 0) ∧
      e.minVal = lowestKey 28 vc w ∧
      e.maxCode = uint64 (uint64 (recordedTop 28 vc w nulls - lowestKey 28 vc w) +
        (if nulls = true ∧ CountsNull vc then 1 else 0 : Nat)) ∧
      e.size = calculateByteSize e.maxCode := by
  have maxVal : (new vc nulls descending).maxVal = _ :=
    newSortEncoded_maxVal vc nulls descending
  unfold secondColumn at accepted
  split at accepted
  · cases accepted
  · simp only [← min_def_lt', ← max_def_lt, maxVal] at accepted
    cases accepted
    refine ⟨rfl, rfl, rfl, ?_, rfl⟩
    have counts : (new vc nulls descending).nullStatus = 1 ∧
        (new vc nulls descending).maxCode ≠ uint64Max ↔ nulls = true ∧ CountsNull vc := by
      cases nulls with
      | false => simp [new, newSortEncoded]
      | true =>
        unfold new newSortEncoded CountsNull
        simp only [if_true, true_and]
        split <;> simp [*]
    exact congrArg (fun n : Nat => uint64
      ((uint64 (recordedTop 28 vc w nulls - lowestKey 28 vc w) : Int) + n))
      (if_congr counts rfl rfl)

theorem empty_of_not_countsNull (uncounted : ¬CountsNull vc) (notFull : ¬FullKeys 28 vc) :
    Emptied vc ∧
    ∀ w, recordedTop 28 vc w true =
      max (dateSortEncoding vc.roughMin - 2) (dateSortEncoding w.roughMax) := by
  have lowCases := sortEncoding_cases 28 vc.min_isInt64
  have highCases := sortEncoding_cases 28 vc.max_isInt64
  have cast := uint64_cast (sortEncoding 28 vc.roughMax - sortEncoding 28 vc.roughMin)
  unfold CountsNull at uncounted
  unfold FullKeys FullRange at notFull
  unfold dateSortEncoding at *
  have bottom : minusInf64 = -2 ^ 63 := rfl
  have top : plusInf64 = 2 ^ 63 - 1 := rfl
  have limit : uint64Max = 2 ^ 64 - 1 := rfl
  have bounds : sortEncoding 28 vc.roughMin = sortEncoding 28 vc.roughMax + 1 ∨
      sortEncoding 28 vc.roughMin = sortEncoding 28 vc.roughMax + 2 := by omega
  refine ⟨bounds, fun w => ?_⟩
  unfold recordedTop
  congr 1
  by_cases isMax : uint64 (sortEncoding 28 vc.roughMax - sortEncoding 28 vc.roughMin) = uint64Max
  · rw [if_pos ⟨rfl, isMax⟩, wrap64_of_isInt64 ⟨by omega, by omega⟩]
    omega
  · omega

theorem not_countsNull_of_empty (empty : Emptied vc) : ¬CountsNull vc := by
  rintro ⟨notMax, notLess⟩
  have cast := uint64_cast (dateSortEncoding vc.roughMax - dateSortEncoding vc.roughMin)
  unfold Emptied at empty
  unfold uint64Max at notMax notLess
  omega

theorem fullRange_of_first (full : FullKeys 28 vc) :
    FullRange (lowestKey 28 vc w) (highestKey 28 vc w) := by
  have low := (sortEncoding_isInt64 28 w.min_isInt64).1
  have high := (sortEncoding_isInt64 28 w.max_isInt64).2
  obtain ⟨isLow, isHigh⟩ := full
  unfold dateSortEncoding minusInf64 plusInf64 at *
  unfold FullRange lowestKey highestKey minusInf64 plusInf64
  omega

theorem clashing_of_emptied (empty : Emptied vc) (descending : Bool) :
    EncoderInt.Clashing (SortKeys2 28 vc w) (lowestKey 28 vc w)
        (max (dateSortEncoding vc.roughMin - 2) (dateSortEncoding w.roughMax)) descending ↔
      FullRange (lowestKey 28 vc w) (highestKey 28 vc w) ∧
        (∃ k, SortKeys2 28 vc w k) ∨
      dateSortEncoding vc.roughMin - 2 ≤ dateSortEncoding w.roughMax ∧
        EncoderInt.Clashing (SortKeys2 28 vc w) (lowestKey 28 vc w)
          (dateSortEncoding w.roughMax) descending := by
  unfold Emptied at empty
  have lowBound := (sortEncoding_isInt64 28 vc.min_isInt64).2
  have plus : plusInf64 = 2 ^ 63 - 1 := rfl
  have second : ∀ k, SortKeys2 28 vc w k → k ≤ dateSortEncoding w.roughMax := by
    rintro k (first | second)
    · have := first.bounds
      unfold dateSortEncoding at empty
      omega
    · exact (second.bounds).2
  have infinite : FullRange (lowestKey 28 vc w) (highestKey 28 vc w) →
      dateSortEncoding w.roughMax = plusInf64 := by
    intro full
    have high := full.2
    unfold highestKey at high
    unfold dateSortEncoding at *
    omega
  by_cases le : dateSortEncoding vc.roughMin - 2 ≤ dateSortEncoding w.roughMax
  · rw [max_eq_right le, and_iff_right le]
    refine ⟨Or.inr, ?_⟩
    rintro (⟨full, -⟩ | clash)
    · have isTop := infinite full
      rw [isTop]
      refine ⟨.inr (sortKeys_plusInf isTop), .inl ⟨8, ?_⟩⟩
      rw [full.1]
      decide
    · exact clash
  · refine iff_of_false (fun clash => ?_) ?_
    · have below := second _ clash.1
      have above := le_max_left (dateSortEncoding vc.roughMin - 2) (dateSortEncoding w.roughMax)
      exact le (above.trans below)
    · rintro (⟨full, -⟩ | both)
      · have isTop := infinite full
        unfold dateSortEncoding at *
        omega
      · exact le both.1

theorem not_faithful_of_full (accepted : secondColumn (new vc true descending) w = some e)
    (full : FullKeys 28 vc) : ¬Faithful (e.Written (SortKeys2 28 vc w)) true descending := by
  intro faithful
  obtain ⟨-, status, minVal, maxCode, size⟩ := secondColumn_state accepted
  obtain ⟨lowest, top⟩ := recordedTop_of_full (w := w) ⟨(rfl : true = true), full⟩
  have isMax : uint64 (plusInf64 - minusInf64) = uint64Max := by decide
  have uncounted : ¬CountsNull vc := fun counts => counts.1 (by
    rw [dateSortEncoding, dateSortEncoding, full.1, full.2, isMax])
  rw [if_neg (fun both => uncounted both.2), lowest] at maxCode
  have eight : e.size = 8 := by
    rw [size, maxCode]
    rcases top with isLess | isTop
    · rw [isLess]
      decide
    · rw [isTop]
      decide
  have key : SortKeys2 28 vc w plusInf64 := .inl (sortKeys_plusInf full.2)
  have apart := ((unordered_faithful_iff (fun k key => key.ne_null) status
    eight.le (maxCode ▸ uint64_lt _) descending).mp faithful.unordered).2 plusInf64 key
  rw [eight, minVal, lowest] at apart
  exact apart (by decide)

theorem uint64_uint64 (x : Int) : uint64 (uint64 x) = uint64 x := by
  have cast := uint64_cast (uint64 x)
  have small := uint64_lt x
  omega

section
variable {vc w : VirtualColumn} {descending : Bool}

theorem faithful_of_no_nulls (accepted : secondColumn (new vc false descending) w = some e) :
    Faithful (e.Written (SortKeys2 28 vc w)) true descending := by
  obtain ⟨descends, status, minVal, maxCode, size⟩ := secondColumn_state accepted
  have noShift : ¬(false = true ∧ CountsNull vc) := fun both => Bool.false_ne_true both.1
  rw [if_neg noShift, Int.natCast_zero, add_zero, uint64_uint64] at maxCode
  rw [← descends]
  refine (sized_faithful_iff (recordedTop 28 vc w false) false status
    (fun k key => key.ne_null) (fun k key => ?_) ?_ isInt64_recordedTop ?_ size).mpr
    (fun all => Bool.false_ne_true all.1)
  · rw [minVal]
    exact key.le_recordedTop fun both => Bool.false_ne_true both.1
  · rw [minVal]
    exact isInt64_lowest
  · rw [minVal, if_neg (fun both => Bool.false_ne_true both.1), maxCode]

/-- With room for the code of null the range is only too large where it is full: then the
largest code overflows. -/
theorem faithful_iff_of_counted (accepted : secondColumn (new vc true descending) w = some e)
    (counts : CountsNull vc) :
    Faithful (e.Written (SortKeys2 28 vc w)) true descending ↔
      ¬(FullRange (lowestKey 28 vc w) (highestKey 28 vc w) ∧
        ∃ k, SortKeys2 28 vc w k) := by
  obtain ⟨descends, status, minVal, maxCode, size⟩ := secondColumn_state accepted
  have top : recordedTop 28 vc w true = highestKey 28 vc w := by
    rw [recordedTop, if_neg (fun both => counts.1 both.2)]
    rfl
  have lowInRange : IsInt64 (lowestKey 28 vc w) := isInt64_lowest
  have topInRange : IsInt64 (recordedTop 28 vc w true) := isInt64_recordedTop
  have bounds : ∀ k, SortKeys2 28 vc w k →
      lowestKey 28 vc w ≤ k ∧ k ≤ recordedTop 28 vc w true := fun k key =>
    key.le_recordedTop fun full => counts.1
      ((uint64_eq_max_iff (sortEncoding_isInt64 28 vc.min_isInt64)
        (sortEncoding_isInt64 28 vc.max_isInt64)).mpr (.inl full.2))
  have isMax := uint64_eq_max_iff lowInRange topInRange
  rw [if_pos ⟨rfl, counts⟩] at maxCode
  rw [← top]
  by_cases nonempty : ∃ k, SortKeys2 28 vc w k
  · obtain ⟨k, key⟩ := nonempty
    have le := (bounds k key).1.trans (bounds k key).2
    rw [or_iff_left (by omega : ¬lowestKey 28 vc w = recordedTop 28 vc w true + 1)] at isMax
    by_cases full : FullRange (lowestKey 28 vc w) (recordedTop 28 vc w true)
    · have sizeless : e.size = 0 := by
        rw [size, maxCode, isMax.mpr full]
        decide
      rw [faithful_iff_of_sizeless status sizeless, and_iff_right full, not_exists]
    · have small := uint64_lt (recordedTop 28 vc w true - lowestKey 28 vc w)
      have below : uint64 (recordedTop 28 vc w true - lowestKey 28 vc w) ≠ uint64Max :=
        mt isMax.mp full
      have codes : e.maxCode = uint64 (recordedTop 28 vc w true - lowestKey 28 vc w) + 1 := by
        have cast := uint64_cast ((uint64 (recordedTop 28 vc w true - lowestKey 28 vc w) : Int) +
          (1 : Nat))
        unfold uint64Max at below
        omega
      refine iff_of_true ?_ fun both => full both.1
      rw [← descends]
      refine (sized_faithful_iff (recordedTop 28 vc w true) true status
        (fun k key => key.ne_null) (fun k key => minVal ▸ bounds k key) (minVal ▸ lowInRange)
        topInRange ?_ size).mpr fun all => ?_
      · rw [minVal, if_pos ⟨rfl, below⟩, codes]
      · have above := (bounds _ all.2.2).2
        have bound := topInRange.2
        unfold plusInf64 at above
        exact full ⟨minVal ▸ all.2.1, by unfold plusInf64; omega⟩
  · exact iff_of_true (faithful_empty (not_exists.mp nonempty) true descending)
      fun both => nonempty both.2

theorem faithful_iff_of_emptied (accepted : secondColumn (new vc true descending) w = some e)
    (uncounted : ¬CountsNull vc) (notFull : ¬FullKeys 28 vc) (nonempty : ∃ k, SortKeys2 28 vc w k) :
    Faithful (e.Written (SortKeys2 28 vc w)) true descending ↔
      ¬EncoderInt.Clashing (SortKeys2 28 vc w) (lowestKey 28 vc w)
        (recordedTop 28 vc w true) descending := by
  obtain ⟨descends, status, minVal, maxCode, size⟩ := secondColumn_state accepted
  rw [if_neg (fun both => uncounted both.2), Int.natCast_zero, add_zero,
    uint64_uint64] at maxCode
  have bounds : ∀ k, SortKeys2 28 vc w k →
      lowestKey 28 vc w ≤ k ∧ k ≤ recordedTop 28 vc w true := fun k key =>
    key.le_recordedTop fun full => notFull full.2
  obtain ⟨k, key⟩ := nonempty
  have cast := uint64_of_le isInt64_lowest isInt64_recordedTop
    ((bounds k key).1.trans (bounds k key).2)
  have state : EncoderInt.Unreserved e (SortKeys2 28 vc w) (recordedTop 28 vc w true) := {
    notNull := fun k key => key.ne_null
    bounds := fun k key => minVal ▸ bounds k key
    status := status
    maxCode := by rw [maxCode, cast, minVal]
    inRange := maxCode ▸ uint64_lt _
    size := size }
  rw [← descends, ← minVal]
  exact state.written_faithful_iff

end

theorem secondColumn_faithful_iff {vc w : VirtualColumn} {nulls descending : Bool}
    (accepted : secondColumn (new vc nulls descending) w = some e) :
    Faithful (e.Written (SortKeys2 28 vc w)) true descending ↔
      ¬(nulls = true ∧
        (FullRange (lowestKey 28 vc w) (highestKey 28 vc w) ∧
          (∃ k, SortKeys2 28 vc w k) ∨
        Emptied vc ∧
          dateSortEncoding vc.roughMin - 2 ≤ dateSortEncoding w.roughMax ∧
          EncoderInt.Clashing (SortKeys2 28 vc w) (lowestKey 28 vc w)
            (dateSortEncoding w.roughMax) descending)) := by
  by_cases nonempty : ∃ k, SortKeys2 28 vc w k
  · cases nulls with
    | false =>
      exact iff_of_true (faithful_of_no_nulls accepted) fun both => Bool.false_ne_true both.1
    | true =>
      rw [and_iff_right rfl]
      by_cases counts : CountsNull vc
      · rw [faithful_iff_of_counted accepted counts, or_iff_left]
        rintro ⟨empty, -⟩
        exact not_countsNull_of_empty empty counts
      · by_cases full : FullKeys 28 vc
        · refine iff_of_false (not_faithful_of_full accepted full) (not_not.mpr (Or.inl ?_))
          exact ⟨fullRange_of_first full, nonempty⟩
        · obtain ⟨empty, top⟩ := empty_of_not_countsNull counts full
          rw [faithful_iff_of_emptied accepted counts full nonempty, top w, and_iff_right empty]
          exact not_congr (clashing_of_emptied empty descending)
  · refine iff_of_true ?_ ?_
    · exact faithful_empty (not_exists.mp nonempty) true descending
    · rintro ⟨-, ⟨-, exists'⟩ | ⟨-, -, clash⟩⟩
      · exact nonempty exists'
      · exact nonempty ⟨_, clash.1⟩

end EncoderDate

end Brighthouse.Core.ColumnBinEncoder
