import Brighthouse.Core.ColumnBinEncoder

/-!
# The codes of `EncoderInt`

What is expected of the codes written for the values of some columns, and when an
`EncoderInt` with a given range, largest code and size meets it.
-/

set_option autoImplicit false

namespace Brighthouse.Core.ColumnBinEncoder

open Library Library.SortKey Library.Word64 Option Bool Int

/-! ## Faithful codes -/

/-- `written key code` says that `code` was written for a value with this key, where the
key `none` is that of null. -/
structure Faithful (written : Option Int → Bytes → Prop) (ordered descending : Bool) : Prop where
  equal : ∀ x y c d, written x c → written y d → (c = d ↔ x = y)
  order : ordered = true → ∀ k l c d, written (some k) c → written (some l) d →
    (c < d ↔ if descending then l < k else k < l)
  nullEnd : ordered = true →
    (∀ k c n, written (some k) c → written none n → n < c) ∨
      ∀ k c n, written (some k) c → written none n → c < n

variable {written : Option Int → Bytes → Prop} {descending : Bool} {x : Int} {n size : Nat}

theorem Faithful.unordered {ordered : Bool} (faithful : Faithful written ordered descending) :
    Faithful written false descending :=
  ⟨faithful.equal, fun impossible => absurd impossible false_ne_true,
    fun impossible => absurd impossible false_ne_true⟩

theorem faithful_of_numbers (size : Nat) (number : Option Int → Int)
    (codes : ∀ x c, written x c → c = wordBytes size (number x))
    (fits : ∀ x c, written x c → 0 ≤ number x ∧ number x < 256 ^ size)
    (order : ∀ k l c d, written (some k) c → written (some l) d → k < l →
      if descending then number (some l) < number (some k) else number (some k) < number (some l))
    (nullEnd : ∀ k c d, written (some k) c → written none d →
      if descending then number (some k) < number none else number none < number (some k))
    (ordered : Bool) : Faithful written ordered descending := by
  have less : ∀ {x y c d}, written x c → written y d → (c < d ↔ number x < number y) := by
    intro x y c d hasX hasY
    obtain ⟨low, high⟩ := fits x c hasX
    obtain ⟨low', high'⟩ := fits y d hasY
    rw [codes x c hasX, codes y d hasY, wordBytes_lt_iff low high low' high']
  have same : ∀ {x y c d}, written x c → written y d → (c = d ↔ number x = number y) := by
    intro x y c d hasX hasY
    obtain ⟨low, high⟩ := fits x c hasX
    obtain ⟨low', high'⟩ := fits y d hasY
    rw [codes x c hasX, codes y d hasY, wordBytes_eq_iff, emod_eq_of_lt low high,
      emod_eq_of_lt low' high']
  have injective : ∀ {x y c d}, written x c → written y d → number x = number y → x = y := by
    intro x y c d hasX hasY equal
    cases x with
    | none =>
      cases y with
      | none => rfl
      | some l =>
        have apart := nullEnd l d c hasY hasX
        split at apart <;> omega
    | some k =>
      cases y with
      | none =>
        have apart := nullEnd k c d hasX hasY
        split at apart <;> omega
      | some l =>
        rcases lt_trichotomy k l with below | rfl | above
        · have apart := order k l c d hasX hasY below
          split at apart <;> omega
        · rfl
        · have apart := order l k d c hasY hasX above
          split at apart <;> omega
  refine ⟨fun x y c d hasX hasY => ?_, fun _ k l c d hasK hasL => ?_, fun _ => ?_⟩
  · rw [same hasX hasY]
    exact ⟨injective hasX hasY, fun equal => by rw [equal]⟩
  · rw [less hasK hasL]
    rcases lt_trichotomy k l with below | rfl | above
    · have apart := order k l c d hasK hasL below
      cases descending with
      | false => exact iff_of_true apart below
      | true => exact iff_of_false (lt_asymm apart) (lt_asymm below)
    · cases descending with
      | false => exact iff_of_false (lt_irrefl _) (lt_irrefl _)
      | true => exact iff_of_false (lt_irrefl _) (lt_irrefl _)
    · have apart := order l k d c hasL hasK above
      cases descending with
      | false => exact iff_of_false (lt_asymm apart) (lt_asymm above)
      | true => exact iff_of_true apart above
  · cases descending with
    | false =>
      refine .inl fun k c n hasK hasNull => ?_
      exact (less hasNull hasK).mpr (nullEnd k c n hasK hasNull)
    | true =>
      refine .inr fun k c n hasK hasNull => ?_
      exact (less hasK hasNull).mpr (nullEnd k c n hasK hasNull)

/-! ## Numbers -/

theorem uint64_of_nonneg (nonneg : 0 ≤ x) (small : x < 2 ^ 64) : (uint64 x : Int) = x := by
  rw [uint64, toU64_of_nonneg nonneg small, toNat_of_nonneg nonneg]

theorem uint64_cast (x : Int) : (uint64 x : Int) = x % 2 ^ 64 := by
  rw [uint64, toU64, toNat_of_nonneg (emod_nonneg x (by decide))]

theorem uint64_lt (x : Int) : uint64 x < 2 ^ 64 := by
  have cast := uint64_cast x
  omega

theorem byteSizeLoop_spec (turns : Nat) :
    ∀ n < 256 ^ turns, n < 256 ^ byteSizeLoop turns n ∧ byteSizeLoop turns n ≤ turns ∧
      (0 < n → 256 ^ byteSizeLoop turns n ≤ 256 * n) := by
  induction turns with
  | zero =>
    intro n small
    exact ⟨small, le_refl _, fun positive => by simp at small; omega⟩
  | succ turns ih =>
    intro n small
    rw [byteSizeLoop]
    split
    · next zero => exact ⟨by simp [zero], Nat.zero_le _, fun positive => by omega⟩
    · next nonzero =>
        have shift : n >>> 8 = n / 256 := Nat.shiftRight_eq_div_pow n 8
        rw [pow_succ'] at small
        obtain ⟨above, size, below⟩ := ih (n / 256) (Nat.div_lt_of_lt_mul small)
        rw [shift, pow_succ']
        refine ⟨by omega, by omega, fun _ => ?_⟩
        rcases eq_zero_or_pos (n / 256) with none | some
        · rw [none] at *
          have empty : byteSizeLoop turns 0 = 0 := by cases turns <;> rfl
          rw [empty]
          omega
        · omega

theorem lt_calculateByteSize (small : n < 2 ^ 64) : n < 256 ^ calculateByteSize n :=
  (byteSizeLoop_spec 8 n small).1

theorem calculateByteSize_le (small : n < 2 ^ 64) : calculateByteSize n ≤ 8 :=
  (byteSizeLoop_spec 8 n small).2.1

theorem succ_eq_pow_calculateByteSize (small : n < 2 ^ 64) :
    n + 1 = 256 ^ calculateByteSize n ↔ ∃ j, n + 1 = 256 ^ j := by
  refine ⟨fun full => ⟨_, full⟩, ?_⟩
  rintro ⟨j, full⟩
  obtain ⟨above, -, below⟩ := byteSizeLoop_spec 8 n small
  change n < 256 ^ calculateByteSize n at above
  rcases lt_trichotomy j (calculateByteSize n) with less | same | more
  · rcases eq_zero_or_pos n with rfl | positive
    · exact absurd less (Nat.not_lt_zero j)
    · have bound : 256 ^ calculateByteSize n ≤ 256 * n := below positive
      have step : 256 ^ (j + 1) ≤ 256 ^ calculateByteSize n := Nat.pow_le_pow_right (by decide) less
      omega
  · rw [full, same]
  · have step : 256 ^ (calculateByteSize n + 1) ≤ 256 ^ j := Nat.pow_le_pow_right (by decide) more
    omega

/-! ## Codes as numbers -/

namespace EncoderInt

def number (e : EncoderInt) (k : Int) : Int :=
  if e.descending then e.maxCode - (k - e.minVal + e.nullShift) else k - e.minVal + e.nullShift

def nullNumber (e : EncoderInt) : Int := if e.descending then e.maxCode else 0

def Written (e : EncoderInt) (keys : Int → Prop) : Option Int → Bytes → Prop
  | none, c => 0 < e.nullStatus ∧ c = e.setNull
  | some k, c => keys k ∧ c = e.encode k

theorem codedVal_eq (e : EncoderInt) (k : Int) :
    (if e.descending then uint64 (e.maxCode - uint64 (uint64 (k - e.minVal) + e.nullShift))
      else uint64 (uint64 (k - e.minVal) + e.nullShift)) = uint64 (e.number k) := by
  have inner : ∀ x y : Int, x % 2 ^ 64 = y % 2 ^ 64 → uint64 x = uint64 y := by
    intro x y same
    rw [uint64, uint64, toU64, toU64, same]
  unfold number
  split
  · refine inner _ _ ?_
    rw [uint64_cast, uint64_cast, emod_add_emod, sub_emod_emod]
  · refine inner _ _ ?_
    rw [uint64_cast, emod_add_emod]

theorem bigEndian_uint64 (small : size ≤ 8) (x : Int) :
    bigEndian size (uint64 x) = wordBytes size x := by
  exact bigEndian_eq_wordBytes 8 small

theorem replicate_zero (size : Nat) : List.replicate size (0 : Byte) = bigEndian size 0 := by
  induction size with
  | zero => rfl
  | succ size ih =>
    rw [List.replicate_succ', ih]
    rfl

section
variable {e : EncoderInt} {k : Int}

theorem encode_eq (notNull : k ≠ nullValue64) (plain : e.nullStatus ≠ 2) (small : e.size ≤ 8) :
    e.encode k = wordBytes e.size (e.number k) := by
  rw [encode, if_neg (fun both => notNull both.2)]
  simp only [codedVal_eq]
  rw [if_neg plain, bigEndian_uint64 small]

theorem setNull_eq (shifted : e.nullStatus = 1) (small : e.size ≤ 8)
    (inRange : e.maxCode < 2 ^ 64) : e.setNull = wordBytes e.size e.nullNumber := by
  unfold setNull nullNumber
  split
  · rw [← bigEndian_uint64 small]
    congr 1
    have cast := uint64_of_nonneg (natCast_nonneg e.maxCode) (by omega)
    omega
  · rw [replicate_zero, wordBytes]
    rfl

end

/-! ## Ranges with a code for null -/

section
variable {e : EncoderInt} {keys : Int → Prop} {top : Int}

theorem faithful_empty (none : ∀ k, ¬keys k) (ordered descending : Bool) :
    Faithful (e.Written keys) ordered descending := by
  have null : ∀ x c, e.Written keys x c → x = Option.none ∧ c = e.setNull := by
    intro x c written
    cases x with
    | none => exact ⟨rfl, written.2⟩
    | some k => exact absurd written.1 (none k)
  refine ⟨fun x y c d hasX hasY => ?_, fun _ k _ _ _ hasK _ => absurd hasK.1 (none k),
    fun _ => .inl fun k _ _ hasK _ => absurd hasK.1 (none k)⟩
  obtain ⟨rfl, rfl⟩ := null x c hasX
  obtain ⟨rfl, rfl⟩ := null y d hasY
  exact iff_of_true rfl rfl

/-- The state that the constructors aim at. -/
structure Reserved (e : EncoderInt) (keys : Int → Prop) (top : Int) : Prop where
  notNull : ∀ k, keys k → k ≠ nullValue64
  bounds : ∀ k, keys k → e.minVal ≤ k ∧ k ≤ top
  status : e.nullStatus ≤ 2
  maxCode : (e.maxCode : Int) = top - e.minVal + e.nullShift
  inRange : e.maxCode < 2 ^ 64
  size : e.size = calculateByteSize e.maxCode + flagSize e.nullStatus

theorem Reserved.number_le (reserved : Reserved e keys top) {k : Int} (key : keys k) :
    0 ≤ e.number k ∧ e.number k ≤ e.maxCode := by
  obtain ⟨low, high⟩ := reserved.bounds k key
  have code := reserved.maxCode
  unfold number
  split <;> omega

theorem number_order {k l : Int} (less : k < l) :
    if e.descending then e.number l < e.number k else e.number k < e.number l := by
  unfold number
  split <;> omega

theorem Reserved.faithful_plain (reserved : Reserved e keys top) (plain : e.nullStatus ≠ 2)
    (ordered : Bool) : Faithful (e.Written keys) ordered e.descending := by
  have size : e.size = calculateByteSize e.maxCode := by
    rw [reserved.size, flagSize, if_neg plain, add_zero]
  have small : e.size ≤ 8 := size ▸ calculateByteSize_le reserved.inRange
  have room : (e.maxCode : Int) < 256 ^ e.size := by
    rw [size]
    exact_mod_cast lt_calculateByteSize reserved.inRange
  refine faithful_of_numbers e.size
    (fun x => match x with | none => e.nullNumber | some k => e.number k) ?_ ?_ ?_ ?_ ordered
  · intro x c written
    cases x with
    | none =>
      have shifted : e.nullStatus = 1 := by
        have := written.1
        have := reserved.status
        omega
      rw [written.2]
      exact setNull_eq shifted small reserved.inRange
    | some k =>
      rw [written.2]
      exact encode_eq (reserved.notNull k written.1) plain small
  · intro x c written
    cases x with
    | none =>
      change 0 ≤ e.nullNumber ∧ e.nullNumber < _
      unfold nullNumber
      split
      · omega
      · exact ⟨le_refl _, by omega⟩
    | some k =>
      have bounds := reserved.number_le written.1
      exact ⟨bounds.1, bounds.2.trans_lt room⟩
  · exact fun k l c d _ _ less => number_order less
  · intro k c d hasK hasNull
    have shifted : e.nullStatus = 1 := by
      have := hasNull.1
      have := reserved.status
      omega
    have shift : e.nullShift = 1 := if_pos shifted
    obtain ⟨low, high⟩ := reserved.bounds k hasK.1
    change if e.descending then e.number k < e.nullNumber else e.nullNumber < e.number k
    unfold number nullNumber
    split <;> rw [shift] <;> omega

theorem cons_uint64 (c : Byte) (small : size ≤ 8) (nonneg : 0 ≤ x) (fits : x < 256 ^ size) :
    c :: bigEndian size (uint64 x) = wordBytes (size + 1) (c.val * 256 ^ size + x) ∧
      0 ≤ c.val * 256 ^ size + x ∧ c.val * 256 ^ size + x < 256 ^ (size + 1) := by
  have byte : (c.val : Int) ≤ 255 := by
    omega
  have positive : (0 : Int) < 256 ^ size := Int.pow_pos (by decide)
  have low : 0 ≤ (c.val : Int) * 256 ^ size := mul_nonneg (natCast_nonneg _) positive.le
  have high : (c.val : Int) * 256 ^ size ≤ 255 * 256 ^ size :=
    mul_le_mul_of_nonneg_right byte positive.le
  have bounds : 0 ≤ c.val * 256 ^ size + x ∧ c.val * 256 ^ size + x < 256 ^ (size + 1) :=
    ⟨by omega, by omega⟩
  refine ⟨?_, bounds⟩
  rw [bigEndian_uint64 small, wordBytes_of_nonneg nonneg fits,
    wordBytes_of_nonneg bounds.1 bounds.2,
    cons_bigEndian c (by zify; rwa [toNat_of_nonneg nonneg])]
  congr 1
  zify
  rw [toNat_of_nonneg nonneg, toNat_of_nonneg bounds.1]

def flag (e : EncoderInt) (isNull : Bool) : Byte := if e.descending = isNull then 1 else 0

theorem Reserved.faithful_flagged (reserved : Reserved e keys top) (flagged : e.nullStatus = 2)
    (ordered : Bool) : Faithful (e.Written keys) ordered e.descending := by
  have size : e.size = calculateByteSize e.maxCode + 1 := by
    rw [reserved.size, flagSize, if_pos flagged]
  have small := calculateByteSize_le reserved.inRange
  have room : (e.maxCode : Int) < 256 ^ calculateByteSize e.maxCode := by
    exact_mod_cast lt_calculateByteSize reserved.inRange
  have bounds : ∀ k, keys k → 0 ≤ e.number k ∧ e.number k < 256 ^ calculateByteSize e.maxCode :=
    fun k key => ⟨(reserved.number_le key).1, (reserved.number_le key).2.trans_lt room⟩
  have nullWord := cons_uint64 (e.flag true) small (le_refl 0) (by omega)
  have word := fun k (key : keys k) =>
    cons_uint64 (e.flag false) small (bounds k key).1 (bounds k key).2
  rw [← size] at nullWord word
  refine faithful_of_numbers e.size (fun x => match x with
    | none => (e.flag true).val * 256 ^ calculateByteSize e.maxCode + 0
    | some k => (e.flag false).val * 256 ^ calculateByteSize e.maxCode + e.number k)
    ?_ ?_ ?_ ?_ ordered
  · intro x c written
    cases x with
    | none =>
      rw [written.2, ← nullWord.1]
      have unshifted : e.nullStatus ≠ 1 := by omega
      rw [setNull, if_neg unshifted, size, Nat.add_sub_cancel, List.replicate_succ,
        replicate_zero, flag]
      cases e.descending <;> rfl
    | some k =>
      rw [written.2, ← (word k written.1).1, encode,
        if_neg (fun both => reserved.notNull k written.1 both.2)]
      simp only [codedVal_eq]
      rw [if_pos flagged, size, flag]
      cases e.descending <;> rfl
  · intro x c written
    cases x with
    | none => exact nullWord.2
    | some k => exact (word k written.1).2
  · intro k l c d _ _ less
    have order := number_order (e := e) less
    split at order <;> simp [*]
  · intro k c d hasK _
    have := bounds k hasK.1
    cases descends : e.descending <;> simp [flag, descends] <;> omega

theorem Reserved.faithful (reserved : Reserved e keys top) (ordered : Bool) :
    Faithful (e.Written keys) ordered e.descending := by
  by_cases flagged : e.nullStatus = 2
  · exact reserved.faithful_flagged flagged ordered
  · exact reserved.faithful_plain flagged ordered

/-! ## Ranges without a code for null -/

/-- The codes of a range that has no room for null: the largest key must not be there if
its code is cut off or, in a descending column, goes below zero. -/
def Clashing (keys : Int → Prop) (low top : Int) (descending : Bool) : Prop :=
  keys top ∧ ((∃ j, top - low + 1 = 256 ^ j) ∨ descending = true ∧ ∃ k, keys k ∧ k ≠ top)

/-- The state after a second column that did not count the code for null again. -/
structure Unreserved (e : EncoderInt) (keys : Int → Prop) (top : Int) : Prop where
  notNull : ∀ k, keys k → k ≠ nullValue64
  bounds : ∀ k, keys k → e.minVal ≤ k ∧ k ≤ top
  status : e.nullStatus = 1
  maxCode : (e.maxCode : Int) = top - e.minVal
  inRange : e.maxCode < 2 ^ 64
  size : e.size = calculateByteSize e.maxCode

section
variable (unreserved : Unreserved e keys top)
include unreserved

theorem Unreserved.small : e.size ≤ 8 := unreserved.size ▸ calculateByteSize_le unreserved.inRange

theorem Unreserved.room : (e.maxCode : Int) < 256 ^ e.size := by
  rw [unreserved.size]
  exact_mod_cast lt_calculateByteSize unreserved.inRange

theorem Unreserved.written_null : e.Written keys none (wordBytes e.size e.nullNumber) :=
  ⟨by rw [unreserved.status]; decide,
    (setNull_eq unreserved.status unreserved.small unreserved.inRange).symm⟩

theorem Unreserved.written_key {k : Int} (key : keys k) :
    e.Written keys (some k) (wordBytes e.size (e.number k)) :=
  ⟨key, (encode_eq (unreserved.notNull k key) (by rw [unreserved.status]; decide)
    unreserved.small).symm⟩

theorem Unreserved.number_eq (k : Int) :
    e.number k = if e.descending then top - k - 1 else k - e.minVal + 1 := by
  have shift : e.nullShift = 1 := if_pos unreserved.status
  have code := unreserved.maxCode
  rw [number]
  split <;> omega

theorem Unreserved.full_iff :
    (∃ j, top - e.minVal + 1 = 256 ^ j) ↔ (e.maxCode : Int) + 1 = 256 ^ e.size := by
  have iff := succ_eq_pow_calculateByteSize unreserved.inRange
  rw [← unreserved.size] at iff
  rw [← unreserved.maxCode]
  constructor
  · rintro ⟨j, full⟩
    exact_mod_cast iff.mpr ⟨j, by exact_mod_cast full⟩
  · intro full
    exact ⟨_, full⟩

theorem Unreserved.not_faithful (clashing : Clashing keys e.minVal top e.descending) :
    ¬Faithful (e.Written keys) true e.descending := by
  intro faithful
  obtain ⟨key, reason⟩ := clashing
  have written := unreserved.written_key key
  have top_eq := unreserved.number_eq top
  have code := unreserved.maxCode
  have room := unreserved.room
  rw [unreserved.full_iff] at reason
  by_cases full : (e.maxCode : Int) + 1 = 256 ^ e.size
  · -- the code of the largest key is that of null
    have same : wordBytes e.size (e.number top) = wordBytes e.size e.nullNumber := by
      rw [wordBytes_eq_iff, top_eq, nullNumber, emod_eq_emod_iff_emod_sub_eq_zero]
      split
      · exact emod_eq_zero_of_dvd ⟨-1, by omega⟩
      · exact emod_eq_zero_of_dvd ⟨1, by omega⟩
    have equal := (faithful.equal _ _ _ _ written unreserved.written_null).mp same
    cases equal
  · obtain ⟨descends, k, other, different⟩ := reason.resolve_left full
    have less : k < top := lt_of_le_of_ne (unreserved.bounds k other).2 different
    have low := (unreserved.bounds k other).1
    have order := (faithful.order rfl top k _ _ written (unreserved.written_key other)).mpr
      (by rw [descends]; exact less)
    have key_eq := unreserved.number_eq k
    rw [descends, if_pos rfl] at top_eq key_eq
    have wraps : wordBytes e.size (e.number top) = wordBytes e.size (256 ^ e.size - 1) := by
      rw [wordBytes_eq_iff, emod_eq_emod_iff_emod_sub_eq_zero]
      exact emod_eq_zero_of_dvd ⟨-1, by omega⟩
    rw [wraps, wordBytes_lt_iff (by omega) (by omega) (by omega) (by omega)] at order
    omega

theorem Unreserved.codes {number : Option Int → Int} (onNull : number none = e.nullNumber)
    (onKeys : ∀ k, keys k → number (some k) % 256 ^ e.size = e.number k % 256 ^ e.size) :
    ∀ x c, e.Written keys x c → c = wordBytes e.size (number x) := by
  intro x c written
  cases x with
  | none =>
    rw [written.2, onNull]
    exact setNull_eq unreserved.status unreserved.small unreserved.inRange
  | some k =>
    rw [written.2, wordBytes_eq_iff.mpr (onKeys k written.1)]
    exact (unreserved.written_key written.1).2.symm

theorem Unreserved.null_fits : 0 ≤ e.nullNumber ∧ e.nullNumber < 256 ^ e.size := by
  have room := unreserved.room
  unfold nullNumber
  split <;> omega

theorem Unreserved.faithful_of_fits
    (fits : ∀ k, keys k → 0 ≤ e.number k ∧ e.number k < 256 ^ e.size) :
    Faithful (e.Written keys) true e.descending := by
  refine faithful_of_numbers e.size (fun x => match x with
    | none => e.nullNumber
    | some k => e.number k) (unreserved.codes rfl fun k _ => rfl) ?_
    (fun k l _ _ _ _ less => number_order less) ?_ true
  · intro x c written
    cases x with
    | none => exact unreserved.null_fits
    | some k => exact fits k written.1
  · intro k c d hasK _
    have bounds := unreserved.bounds k hasK.1
    have code := unreserved.maxCode
    change if e.descending then e.number k < e.nullNumber else e.nullNumber < e.number k
    rw [unreserved.number_eq, nullNumber]
    split <;> omega

theorem Unreserved.faithful_of_single (single : ∀ k, keys k → k = top)
    (notFull : (e.maxCode : Int) + 1 ≠ 256 ^ e.size) (descends : e.descending = true) :
    Faithful (e.Written keys) true e.descending := by
  have room := unreserved.room
  have faithful : Faithful (e.Written keys) true false := by
    refine faithful_of_numbers e.size (fun x => match x with
      | none => e.nullNumber
      | some _ => 256 ^ e.size - 1) (unreserved.codes rfl fun k key => ?_) ?_ ?_ ?_ true
    · rw [single k key, unreserved.number_eq, descends, emod_eq_emod_iff_emod_sub_eq_zero]
      refine emod_eq_zero_of_dvd ⟨1, ?_⟩
      change (256 : Int) ^ e.size - 1 - (top - top - 1) = 256 ^ e.size * 1
      omega
    · intro x c written
      cases x with
      | none => exact unreserved.null_fits
      | some k =>
        change 0 ≤ (256 : Int) ^ e.size - 1 ∧ (256 : Int) ^ e.size - 1 < 256 ^ e.size
        omega
    · intro k l c d hasK hasL less
      have := single k hasK.1
      have := single l hasL.1
      omega
    · intro k c d _ _
      change e.nullNumber < 256 ^ e.size - 1
      rw [nullNumber, descends]
      omega
  refine ⟨faithful.equal, fun _ k l c d hasK hasL => ?_, faithful.nullEnd⟩
  have order := faithful.order rfl k l c d hasK hasL
  rw [single k hasK.1, single l hasL.1] at order ⊢
  rw [descends]
  exact order

theorem Unreserved.written_faithful_iff :
    Faithful (e.Written keys) true e.descending ↔ ¬Clashing keys e.minVal top e.descending := by
  refine ⟨fun faithful clashing => unreserved.not_faithful clashing faithful, fun clear => ?_⟩
  have code := unreserved.maxCode
  have room := unreserved.room
  by_cases isKey : keys top
  · have notFull : (e.maxCode : Int) + 1 ≠ 256 ^ e.size :=
      fun full => clear ⟨isKey, .inl (unreserved.full_iff.mpr full)⟩
    by_cases descends : e.descending = true
    · refine unreserved.faithful_of_single (fun k key => ?_) notFull descends
      by_contra different
      exact clear ⟨isKey, .inr ⟨descends, k, key, different⟩⟩
    · refine unreserved.faithful_of_fits fun k key => ?_
      have bounds := unreserved.bounds k key
      rw [unreserved.number_eq, if_neg descends]
      omega
  · refine unreserved.faithful_of_fits fun k key => ?_
    have bounds := unreserved.bounds k key
    have different : k ≠ top := fun same => isKey (same ▸ key)
    rw [unreserved.number_eq]
    split <;> omega

end

/-! ## Keys outside of the range -/

theorem faithful_iff_of_sizeless (status : e.nullStatus = 1) (size : e.size = 0)
    (ordered descending : Bool) : Faithful (e.Written keys) ordered descending ↔ ∀ k, ¬keys k := by
  refine ⟨fun faithful k key => ?_, fun none => faithful_empty none ordered descending⟩
  have empty : ∀ n, bigEndian e.size n = [] := by
    intro n
    rw [size]
    rfl
  have plain : e.nullStatus ≠ 2 := by omega
  have nullCode : e.setNull = [] := by
    rw [setNull, size]
    split <;> rfl
  have code : e.encode k = [] := by
    rw [encode]
    split
    · exact nullCode
    · exact empty _
  have written : e.Written keys (some k) [] := ⟨key, code.symm⟩
  have writtenNull : e.Written keys none [] := ⟨by omega, nullCode.symm⟩
  have equal := (faithful.equal _ _ _ _ written writtenNull).mp rfl
  cases equal

/-- Codes that need not be ordered must only be different when they are cut to the size;
null has the number before the smallest value. -/
theorem unordered_faithful_iff (notNull : ∀ k, keys k → k ≠ nullValue64) (status : e.nullStatus = 1)
    (small : e.size ≤ 8) (inRange : e.maxCode < 2 ^ 64) (descending : Bool) :
    Faithful (e.Written keys) false descending ↔
      (∀ k l, keys k → keys l → k % 256 ^ e.size = l % 256 ^ e.size → k = l) ∧
        ∀ k, keys k → k % 256 ^ e.size ≠ (e.minVal - 1) % 256 ^ e.size := by
  have plain : e.nullStatus ≠ 2 := by omega
  have shift : e.nullShift = 1 := if_pos status
  have written : ∀ k, keys k → e.Written keys (some k) (wordBytes e.size (e.number k)) :=
    fun k key => ⟨key, (encode_eq (notNull k key) plain small).symm⟩
  have writtenNull : e.Written keys none (wordBytes e.size e.nullNumber) :=
    ⟨by omega, (setNull_eq status small inRange).symm⟩
  have code : ∀ x c, e.Written keys x c → c = wordBytes e.size
      (e.number (x.getD (e.minVal - 1))) := by
    intro x c has
    cases x with
    | none =>
      rw [has.2, setNull_eq status small inRange, nullNumber, number]
      congr 1
      simp only [getD_none]
      split <;> omega
    | some k => rw [has.2, encode_eq (notNull k has.1) plain small, getD_some]
  have congruent : ∀ k l : Int, wordBytes e.size (e.number k) = wordBytes e.size (e.number l) ↔
      k % 256 ^ e.size = l % 256 ^ e.size := by
    intro k l
    rw [wordBytes_eq_iff, emod_eq_emod_iff_emod_sub_eq_zero,
      emod_eq_emod_iff_emod_sub_eq_zero, ← dvd_iff_emod_eq_zero, ← dvd_iff_emod_eq_zero]
    unfold number
    split
    · rw [← Int.dvd_neg]
      exact iff_of_eq (congrArg _ (by omega))
    · exact iff_of_eq (congrArg _ (by omega))
  constructor
  · intro faithful
    refine ⟨fun k l isKey isKey' same => ?_, fun k isKey same => ?_⟩
    · have codes := (congruent k l).mpr same
      exact some.inj ((faithful.equal _ _ _ _ (written k isKey) (written l isKey')).mp codes)
    · have codes := (congruent k (e.minVal - 1)).mpr same
      rw [code none _ writtenNull] at writtenNull
      cases (faithful.equal _ _ _ _ (written k isKey) writtenNull).mp codes
  · rintro ⟨apart, fromNull⟩
    refine ⟨fun x y c d hasX hasY => ?_, fun ordered => absurd ordered false_ne_true,
      fun ordered => absurd ordered false_ne_true⟩
    rw [code x c hasX, code y d hasY, congruent]
    refine ⟨fun same => ?_, fun same => by rw [same]⟩
    cases x with
    | none =>
      cases y with
      | none => rfl
      | some l => exact absurd same.symm (fromNull l hasY.1)
    | some k =>
      cases y with
      | none => exact absurd same (fromNull k hasX.1)
      | some l => rw [apart k l hasX.1 hasY.1 same]

end

end EncoderInt

end Brighthouse.Core.ColumnBinEncoder
