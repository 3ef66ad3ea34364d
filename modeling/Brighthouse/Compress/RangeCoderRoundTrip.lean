import Brighthouse.Compress.RangeCoderInterval

/-!
# Round trip of the range coder

`Codes` relates an encoder call to the decoder calls that undo it.  It composes,
so a group of a uniform symbol, a symbol and a whole sequence are all treated
the same way.
-/

set_option autoImplicit false

namespace Brighthouse.Compress.RangeCoder

open Library Library.ByteWindow List

variable {bytes : List Byte} {shift bits x : Nat}

/-! ## Reading back what was written -/

/-- From `e` to `e'` the encoder writes bytes from which a decoder level with `e`
goes, by `reads`, to one level with `e'`. -/
def Codes (e e' : Encoder) (reads : Decoder → Decoder → Prop) : Prop :=
  Ready e' ∧ ∃ emitted, e'.out = e.out ++ emitted ∧
    ∀ rest, 4 ≤ rest.length → Inside e'.low e'.range (window rest) →
      Inside e.low e.range (window (emitted ++ rest)) ∧
        ∀ tail held, NonZero held → ∃ heldAfter, NonZero heldAfter ∧
          reads (level e (emitted ++ rest) tail held) (level e' rest tail heldAfter)

theorem Codes.mono {e e' : Encoder} {reads reads' : Decoder → Decoder → Prop}
    (codes : Codes e e' reads) (imp : ∀ d d', reads d d' → reads' d d') : Codes e e' reads' := by
  obtain ⟨ready, emitted, outEq, back⟩ := codes
  refine ⟨ready, emitted, outEq, ?_⟩
  intro rest long inside
  obtain ⟨insideBefore, read⟩ := back rest long inside
  refine ⟨insideBefore, ?_⟩
  intro tail held nonZero
  obtain ⟨heldAfter, nonZeroAfter, step⟩ := read tail held nonZero
  exact ⟨heldAfter, nonZeroAfter, imp _ _ step⟩

theorem Codes.refl {e : Encoder} (ready : Ready e) : Codes e e Eq := by
  refine ⟨ready, [], by simp, ?_⟩
  intro rest long inside
  exact ⟨inside, fun tail held nonZero => ⟨held, nonZero, rfl⟩⟩

theorem Codes.trans {e₁ e₂ e₃ : Encoder} {first second : Decoder → Decoder → Prop}
    (codes₁ : Codes e₁ e₂ first) (codes₂ : Codes e₂ e₃ second) :
    Codes e₁ e₃ (Relation.Comp first second) := by
  obtain ⟨ready₂, emitted₁, outEq₁, back₁⟩ := codes₁
  obtain ⟨ready₃, emitted₂, outEq₂, back₂⟩ := codes₂
  refine ⟨ready₃, emitted₁ ++ emitted₂, by rw [outEq₂, outEq₁, append_assoc], ?_⟩
  intro rest long inside
  obtain ⟨inside₂, read₂⟩ := back₂ rest long inside
  obtain ⟨inside₁, read₁⟩ := back₁ (emitted₂ ++ rest) (by rw [length_append]; omega) inside₂
  rw [append_assoc]
  refine ⟨inside₁, ?_⟩
  intro tail held nonZero
  obtain ⟨held₂, nonZero₂, step₁⟩ := read₁ tail held nonZero
  obtain ⟨held₃, nonZero₃, step₂⟩ := read₂ tail held₂ nonZero₂
  exact ⟨held₃, nonZero₃, _, step₁, step₂⟩

/-! ## One interval -/

theorem encodeShift_eq (e : Encoder) (cumFreq freq shift : Nat) :
    encodeShift e cumFreq freq shift = encode e cumFreq freq (2 ^ shift) := by
  simp only [encodeShift, encode, Nat.shiftRight_eq_div_pow]

theorem getCountShift_eq (d : Decoder) (shift : Nat) :
    getCountShift d shift = getCount d (2 ^ shift) := by
  simp only [getCountShift, getCount, Nat.shiftRight_eq_div_pow, Nat.one_shiftLeft]

theorem decodeShift_eq (d : Decoder) (cumFreq freq : Nat) :
    decodeShift d cumFreq freq = decode d cumFreq freq := rfl

structure ValidInterval (cumFreq freq total : Nat) : Prop where
  freq_pos : 1 ≤ freq
  sum_le : cumFreq + freq ≤ total
  total_le : total ≤ maxTotal

/-- `GetCount` finds a count of the interval and `Decode` confirms the interval. -/
def ReadsInterval (cumFreq freq total : Nat) (d d' : Decoder) : Prop :=
  ∃ count mid, getCount d total = .ok (count, mid) ∧ cumFreq ≤ count ∧ count < cumFreq + freq ∧
    decode mid cumFreq freq = .ok d'

section Interval

variable {e e' : Encoder} {cumFreq freq total : Nat}

section
variable (ready : Ready e) (valid : ValidInterval cumFreq freq total)
include ready valid

theorem step_pos : 0 < e.range / total ∧ e.range / total * total ≤ e.range := by
  have wide := ready.wide
  have totalLe := valid.total_le
  have freqPos := valid.freq_pos
  have sumLe := valid.sum_le
  rw [maxTotal] at totalLe
  exact ⟨Nat.div_pos (by omega) (by omega), Nat.div_mul_le_self _ _⟩

theorem getCount_level
    (inside : Inside (e.low + e.range / total * cumFreq) (e.range / total * freq) (window bytes))
    (tail : List Byte) (held : List Nat) :
    ∃ count, cumFreq ≤ count ∧ count < cumFreq + freq ∧
      getCount (level e bytes tail held) total =
        .ok (count, ⟨e.low, window bytes, e.range / total, bytes.drop 4 ++ tail,
          e.range / total :: held⟩) := by
  obtain ⟨stepPos, fits⟩ := step_pos ready valid
  obtain ⟨lower, upper⟩ := inside
  have countGe : cumFreq ≤ (window bytes - e.low) / (e.range / total) := by
    rw [Nat.le_div_iff_mul_le stepPos, mul_comm]
    omega
  have countLt : (window bytes - e.low) / (e.range / total) < cumFreq + freq := by
    rw [Nat.div_lt_iff_lt_mul stepPos, mul_comm, mul_add]
    omega
  have codeLow : u32 (window bytes + (2 ^ 32 - e.low)) = window bytes - e.low := by
    have windowLt := window_lt bytes
    rw [u32]
    omega
  have belowTotal := valid.sum_le
  refine ⟨_, countGe, countLt, ?_⟩
  simp only [getCount, level, codeLow]
  rw [if_neg (by omega)]

theorem encode_codes (run : encode e cumFreq freq total = .ok e') :
    Codes e e' (ReadsInterval cumFreq freq total) := by
  obtain ⟨stepPos, fits⟩ := step_pos ready valid
  obtain ⟨lowEq, rangeEq, live, within⟩ :=
    ready.live.narrow stepPos fits valid.freq_pos valid.sum_le
  unfold encode at run
  simp only [lowEq, rangeEq] at run
  obtain ⟨ready', emitted, outEq, mirrored⟩ := shiftOut_mirrored _ _ _ _ _ live run
  refine ⟨ready', emitted, outEq, ?_⟩
  intro rest long inside
  obtain ⟨insideNarrow, read⟩ := mirrored rest long inside
  refine ⟨⟨by have := insideNarrow.1; omega, by have := insideNarrow.2; omega⟩, ?_⟩
  intro tail held nonZero
  obtain ⟨heldAfter, nonZeroAfter, readEq⟩ :=
    read tail _ ((nonZero.cons stepPos).cons live.range_pos)
  obtain ⟨count, countGe, countLt, countEq⟩ := getCount_level ready valid insideNarrow tail held
  refine ⟨heldAfter, nonZeroAfter, count, _, countEq, countGe, countLt, ?_⟩
  simp only [decode, lowEq, rangeEq]
  exact readEq

theorem encode_fits (room : 5 ≤ e.room) :
    ∃ e', encode e cumFreq freq total = .ok e' ∧ e.room ≤ e'.room + 5 := by
  obtain ⟨stepPos, fits⟩ := step_pos ready valid
  obtain ⟨lowEq, rangeEq, live, _⟩ := ready.live.narrow stepPos fits valid.freq_pos valid.sum_le
  have rangePos := live.range_pos
  obtain ⟨e', run, roomLe⟩ := shiftOut_fits 3 (e.room - 5) _ _ e.out live (by omega)
  refine ⟨e', ?_, by omega⟩
  unfold encode
  simp only [lowEq]
  rw [← run]
  congr 1
  omega

end

end Interval

/-! ## Uniform symbols -/

theorem bind_eq_ok {ε α β : Type} {x : Except ε α} {f : α → Except ε β} {r : β} :
    (x >>= f) = .ok r ↔ ∃ a, x = .ok a ∧ f a = .ok r := by
  cases x with
  | error failure => simp [bind, Except.bind]
  | ok a => simp [bind, Except.bind]

theorem and_uniMask (x : Nat) : x &&& uniMask = x % 2 ^ uniNbit := by
  rw [uniMask, Nat.and_two_pow_sub_one_eq_mod]

theorem validInterval_group (x : Nat) : ValidInterval (x % 2 ^ uniNbit) 1 (2 ^ uniNbit) := by
  refine ⟨le_refl 1, ?_, by decide⟩
  exact Nat.mod_lt x (by decide)

theorem ReadsInterval.exact {cumFreq total : Nat} {d d' : Decoder}
    (reads : ReadsInterval cumFreq 1 total d d') :
    ∃ mid, getCount d total = .ok (cumFreq, mid) ∧ decode mid cumFreq 1 = .ok d' := by
  obtain ⟨count, mid, countEq, lower, upper, decodeEq⟩ := reads
  have : count = cumFreq := by omega
  subst this
  exact ⟨mid, countEq, decodeEq⟩

theorem or_group {val width group : Nat} (small : val < 2 ^ bits)
    (groupEq : group = val / 2 ^ shift % 2 ^ width) :
    val % 2 ^ shift ||| group <<< shift % 2 ^ bits = val % 2 ^ (shift + width) := by
  have split : val % 2 ^ (shift + width) = val % 2 ^ shift + 2 ^ shift * group := by
    rw [pow_add, Nat.mod_mul, groupEq]
  have le : group <<< shift ≤ val := by
    rw [Nat.shiftLeft_eq, mul_comm]
    have := Nat.mod_le val (2 ^ (shift + width))
    omega
  have noWrap : group <<< shift % 2 ^ bits = group <<< shift :=
    Nat.mod_eq_of_lt (lt_of_le_of_lt le small)
  rw [noWrap, Nat.or_comm,
    ← Nat.shiftLeft_add_eq_or_of_lt (Nat.mod_lt val (Nat.two_pow_pos shift)), split,
    Nat.shiftLeft_eq, mul_comm group, add_comm]

structure ValidUniform (T : UIntType) (val maxval bitmax : Nat) : Prop where
  val_le : val ≤ maxval
  maxval_lt : maxval < 2 ^ bitmax
  maxval_fits : maxval < 2 ^ T.bits
  bitmax_le : bitmax ≤ max uniNbit T.bits

theorem UIntType.bits_le (T : UIntType) : T.bits ≤ 64 := by
  cases T <;> decide

section Uniform

variable {T : UIntType} {val maxval bitmax : Nat} (valid : ValidUniform T val maxval bitmax)
include valid

theorem validInterval_last (shift : Nat) (last : bitmax ≤ shift + uniNbit) :
    u32 (val >>> shift) = val / 2 ^ shift ∧
      u32 (u32 (maxval >>> shift) + 1) = maxval / 2 ^ shift + 1 ∧
      ValidInterval (val / 2 ^ shift) 1 (maxval / 2 ^ shift + 1) ∧
      val / 2 ^ shift < 2 ^ uniNbit := by
  have topSmall : maxval / 2 ^ shift < 2 ^ uniNbit := by
    rw [Nat.div_lt_iff_lt_mul (Nat.two_pow_pos shift), ← pow_add]
    exact lt_of_lt_of_le valid.maxval_lt (Nat.pow_le_pow_right (by decide) (by omega))
  have valLe : val / 2 ^ shift ≤ maxval / 2 ^ shift := Nat.div_le_div_right valid.val_le
  rw [Nat.shiftRight_eq_div_pow, Nat.shiftRight_eq_div_pow]
  simp only [uniNbit] at *
  refine ⟨u32_of_lt (by omega), ?_, ⟨le_refl 1, by omega, by rw [maxTotal, bot]; omega⟩, by omega⟩
  rw [u32_of_lt (by omega : maxval / 2 ^ shift < 2 ^ 32)]
  exact u32_of_lt (by omega)

/-- The encoder loop after `shift` bits against the decoder loop that has
collected these bits. -/
theorem encodeUniformLoop_codes (left : Nat) :
    ∀ (shift : Nat) (e e' : Encoder), bitmax - shift = left → Ready e →
      encodeUniformLoop e (val >>> shift) (maxval >>> shift) left = .ok e' →
      Codes e e' (fun d d' =>
        decodeUniformLoop T maxval bitmax d (val % 2 ^ shift) shift = .ok (val, d')) := by
  have small : val < 2 ^ T.bits := lt_of_le_of_lt valid.val_le valid.maxval_fits
  induction left using Nat.strong_induction_on with
  | _ left ih =>
    intro shift e e' leftEq ready run
    unfold encodeUniformLoop at run
    by_cases more : uniNbit < left
    · rw [if_pos more] at run
      obtain ⟨mid, first, rest⟩ := bind_eq_ok.mp run
      rw [encodeShift_eq, and_uniMask] at first
      have codesGroup := encode_codes ready (validInterval_group _) first
      have codesRest := ih (left - uniNbit) (by simp only [uniNbit] at *; omega)
        (shift + uniNbit) mid e' (by omega) codesGroup.1 rest
      refine (codesGroup.trans codesRest).mono ?_
      rintro d d' ⟨between, reads, readRest⟩
      obtain ⟨counted, countEq, decodeEq⟩ := reads.exact
      unfold decodeUniformLoop
      rw [if_pos (by omega), getCountShift_eq, countEq]
      simp only [bind, Except.bind, decodeShift_eq, decodeEq]
      rw [or_group small (by rw [Nat.shiftRight_eq_div_pow])]
      exact readRest
    · rw [if_neg more] at run
      obtain ⟨valEq, totalEq, interval, lastSmall⟩ := validInterval_last valid shift (by omega)
      rw [valEq, totalEq] at run
      refine (encode_codes ready interval run).mono ?_
      intro d d' reads
      obtain ⟨counted, countEq, decodeEq⟩ := reads.exact
      unfold decodeUniformLoop
      rw [if_neg (by omega)]
      simp only [totalEq, countEq, bind, Except.bind, decodeEq]
      have noHigher : val < 2 ^ (shift + uniNbit) := by
        rw [pow_add, mul_comm]
        exact (Nat.div_lt_iff_lt_mul (Nat.two_pow_pos shift)).mp lastSmall
      rw [or_group small (Nat.mod_eq_of_lt lastSmall).symm, Nat.mod_eq_of_lt noHigher]

theorem encodeUniform_codes {e e' : Encoder}
    (ready : Ready e) (run : encodeUniform e val maxval bitmax = .ok e') :
    Codes e e' (fun d d' => decodeUniform T d maxval bitmax = .ok (val, d')) := by
  unfold encodeUniform at run
  by_cases zero : maxval = 0
  · rw [if_pos zero, Except.ok.injEq] at run
    subst run
    have valZero : val = 0 := by
      have := valid.val_le
      omega
    refine (Codes.refl ready).mono ?_
    rintro d _ rfl
    rw [decodeUniform, if_pos zero, valZero]
  · rw [if_neg zero] at run
    have codes := encodeUniformLoop_codes valid bitmax 0 e e' (Nat.sub_zero bitmax) ready run
    refine codes.mono ?_
    intro d d' reads
    rw [decodeUniform, if_neg zero, ← reads, pow_zero, Nat.mod_one]

theorem encodeUniformLoop_fits (groups : Nat) :
    ∀ (shift : Nat) (e : Encoder), Ready e → bitmax - shift ≤ (groups + 1) * uniNbit →
      5 * (groups + 1) ≤ e.room →
      ∃ e', encodeUniformLoop e (val >>> shift) (maxval >>> shift) (bitmax - shift) = .ok e' ∧
        e.room ≤ e'.room + 5 * (groups + 1) := by
  induction groups using Nat.strong_induction_on with
  | _ groups ih =>
    intro shift e ready last room
    unfold encodeUniformLoop
    by_cases more : uniNbit < bitmax - shift
    · obtain ⟨others, rfl⟩ := Nat.exists_eq_succ_of_ne_zero (show groups ≠ 0 by rintro rfl; omega)
      rw [if_pos more, encodeShift_eq, and_uniMask]
      obtain ⟨mid, first, roomMid⟩ :=
        encode_fits ready (validInterval_group (val >>> shift)) (by omega)
      have readyMid := (encode_codes ready (validInterval_group _) first).1
      obtain ⟨e', rest, roomLe⟩ :=
        ih others (Nat.lt_succ_self _) (shift + uniNbit) mid readyMid
          (by simp only [uniNbit] at *; omega) (by omega)
      refine ⟨e', ?_, by omega⟩
      rw [first]
      exact rest
    · rw [if_neg more]
      obtain ⟨valEq, totalEq, interval, _⟩ := validInterval_last valid shift (by omega)
      obtain ⟨e', run, roomLe⟩ := encode_fits ready interval (by omega)
      exact ⟨e', by rw [valEq, totalEq, run], by omega⟩

theorem encodeUniform_fits {e : Encoder} (ready : Ready e) (room : 20 ≤ e.room) :
    ∃ e', encodeUniform e val maxval bitmax = .ok e' ∧ e.room ≤ e'.room + 20 := by
  unfold encodeUniform
  by_cases zero : maxval = 0
  · exact ⟨e, if_pos zero, by omega⟩
  · rw [if_neg zero]
    have bitmaxLe : bitmax - 0 ≤ (3 + 1) * uniNbit := by
      have := valid.bitmax_le
      have := T.bits_le
      simp only [uniNbit] at *
      omega
    exact encodeUniformLoop_fits valid 3 0 e ready bitmaxLe (by omega)

end Uniform

structure ValidUniShift (T : UIntType) (x shift : Nat) : Prop where
  x_lt : x < 2 ^ shift
  x_fits : x < 2 ^ T.bits
  shift_le : shift ≤ max uniNbit T.bits

section UniShift

variable {T : UIntType}

theorem validInterval_uniShift (valid : ValidUniShift T x shift)
    (last : shift ≤ uniNbit) : u32 x = x ∧ ValidInterval x 1 (2 ^ shift) := by
  have powLe : 2 ^ shift ≤ 2 ^ uniNbit := Nat.pow_le_pow_right (by decide) last
  have xLt := valid.x_lt
  simp only [uniNbit] at powLe
  exact ⟨u32_of_lt (by omega), ⟨le_refl 1, xLt, powLe⟩⟩

theorem ValidUniShift.next (valid : ValidUniShift T x shift)
    (more : ¬(T.bits ≤ uniNbit ∨ shift ≤ uniNbit)) :
    ValidUniShift T (x >>> uniNbit) (shift - uniNbit) := by
  refine ⟨?_, ?_, ?_⟩
  · rw [Nat.shiftRight_eq_div_pow, Nat.div_lt_iff_lt_mul (Nat.two_pow_pos uniNbit), ← pow_add,
      Nat.sub_add_cancel (by omega)]
    exact valid.x_lt
  · exact lt_of_le_of_lt (Nat.shiftRight_le x uniNbit) valid.x_fits
  · have := valid.shift_le
    omega

theorem u32_group (x : Nat) : u32 x &&& uniMask = x % 2 ^ uniNbit := by
  rw [and_uniMask, u32, uniNbit]
  omega

theorem join_groups (fits : x < 2 ^ bits) :
    (x >>> uniNbit) <<< uniNbit % 2 ^ bits ||| x % 2 ^ uniNbit % 2 ^ bits = x := by
  have lowFits : x % 2 ^ uniNbit < 2 ^ bits := lt_of_le_of_lt (Nat.mod_le _ _) fits
  have highFits : x / 2 ^ uniNbit < 2 ^ bits := lt_of_le_of_lt (Nat.div_le_self _ _) fits
  have noHigher : x < 2 ^ (uniNbit + bits) :=
    lt_of_lt_of_le fits (Nat.pow_le_pow_right (by decide) (by omega))
  rw [Nat.mod_eq_of_lt lowFits, Nat.or_comm, Nat.shiftRight_eq_div_pow,
    or_group fits (Nat.mod_eq_of_lt highFits).symm, Nat.mod_eq_of_lt noHigher]

theorem encodeUniShift_codes (shift : Nat) : ∀ (x : Nat) (e e' : Encoder),
    ValidUniShift T x shift → Ready e → encodeUniShift T e x shift = .ok e' →
    Codes e e' (fun d d' => decodeUniShift T d shift = .ok (x, d')) := by
  induction shift using Nat.strong_induction_on with
  | _ shift ih =>
    intro x e e' valid ready run
    unfold encodeUniShift at run
    by_cases single : T.bits ≤ uniNbit ∨ shift ≤ uniNbit
    · have last : shift ≤ uniNbit := by
        have := valid.shift_le
        omega
      obtain ⟨xEq, interval⟩ := validInterval_uniShift valid last
      rw [if_pos single, encodeShift_eq, xEq] at run
      refine (encode_codes ready interval run).mono ?_
      intro d d' reads
      obtain ⟨counted, countEq, decodeEq⟩ := reads.exact
      unfold decodeUniShift
      rw [if_pos last, getCountShift_eq, countEq]
      simp only [bind, Except.bind, Nat.mod_eq_of_lt valid.x_fits, decodeShift_eq, decodeEq]
    · rw [if_neg single] at run
      obtain ⟨mid, first, rest⟩ := bind_eq_ok.mp run
      rw [encodeShift_eq, u32_group] at first
      have codesGroup := encode_codes ready (validInterval_group x) first
      have codesRest := ih (shift - uniNbit) (by simp only [uniNbit] at *; omega)
        (x >>> uniNbit) mid e' (valid.next single) codesGroup.1 rest
      refine (codesGroup.trans codesRest).mono ?_
      rintro d d' ⟨between, reads, readRest⟩
      obtain ⟨counted, countEq, decodeEq⟩ := reads.exact
      unfold decodeUniShift
      rw [if_neg (by omega), getCountShift_eq, countEq]
      simp only [bind, Except.bind, decodeShift_eq, decodeEq, readRest]
      rw [join_groups valid.x_fits]

theorem encodeUniShift_fits (groups : Nat) : ∀ (x shift : Nat) (e : Encoder),
    ValidUniShift T x shift → Ready e → shift ≤ (groups + 1) * uniNbit →
    5 * (groups + 1) ≤ e.room →
    ∃ e', encodeUniShift T e x shift = .ok e' ∧ e.room ≤ e'.room + 5 * (groups + 1) := by
  induction groups using Nat.strong_induction_on with
  | _ groups ih =>
    intro x shift e valid ready last room
    unfold encodeUniShift
    by_cases single : T.bits ≤ uniNbit ∨ shift ≤ uniNbit
    · have shiftLe := valid.shift_le
      obtain ⟨xEq, interval⟩ := validInterval_uniShift valid (by omega)
      obtain ⟨e', run, roomLe⟩ := encode_fits ready interval (by omega)
      exact ⟨e', by rw [if_pos single, encodeShift_eq, xEq, run], by omega⟩
    · obtain ⟨others, rfl⟩ := Nat.exists_eq_succ_of_ne_zero (show groups ≠ 0 by rintro rfl; omega)
      rw [if_neg single, encodeShift_eq, u32_group]
      obtain ⟨mid, first, roomMid⟩ := encode_fits ready (validInterval_group x) (by omega)
      have readyMid := (encode_codes ready (validInterval_group _) first).1
      obtain ⟨e', rest, roomLe⟩ := ih others (Nat.lt_succ_self _) (x >>> uniNbit) (shift - uniNbit)
        mid (valid.next single) readyMid (by simp only [uniNbit] at *; omega) (by omega)
      refine ⟨e', ?_, by omega⟩
      rw [first]
      exact rest

end UniShift

/-! ## Whole sequences -/

def Symbol.Valid : Symbol → Prop
  | .freq cumFreq length total => ValidInterval cumFreq length total
  | .shift cumFreq length bits => ValidInterval cumFreq length (2 ^ bits)
  | .uniform T val maxval bitmax => ValidUniform T val maxval bitmax
  | .uniShift T x bits => ValidUniShift T x bits

def Symbol.Recovered : Symbol → Nat → Prop
  | .freq cumFreq length _, count => cumFreq ≤ count ∧ count < cumFreq + length
  | .shift cumFreq length _, count => cumFreq ≤ count ∧ count < cumFreq + length
  | .uniform _ val _ _, count => count = val
  | .uniShift _ x _, count => count = x

variable {e e' : Encoder}

theorem encodeSymbol_codes (s : Symbol) (valid : s.Valid) (ready : Ready e)
    (run : encodeSymbol e s = .ok e') :
    Codes e e' (fun d d' => ∃ count, decodeSymbol d s = .ok (count, d') ∧ s.Recovered count) := by
  cases s with
  | freq cumFreq freq total =>
    refine (encode_codes ready valid run).mono ?_
    rintro d d' ⟨count, mid, countEq, lower, upper, decodeEq⟩
    refine ⟨count, ?_, lower, upper⟩
    simp only [decodeSymbol, countEq, bind, Except.bind, decodeEq]
  | shift cumFreq freq shift =>
    rw [encodeSymbol, encodeShift_eq] at run
    refine (encode_codes ready valid run).mono ?_
    rintro d d' ⟨count, mid, countEq, lower, upper, decodeEq⟩
    refine ⟨count, ?_, lower, upper⟩
    simp only [decodeSymbol, getCountShift_eq, decodeShift_eq, countEq, bind, Except.bind, decodeEq]
  | uniform T val maxval bitmax =>
    exact (encodeUniform_codes valid ready run).mono fun d d' reads => ⟨val, reads, rfl⟩
  | uniShift T x shift =>
    exact (encodeUniShift_codes shift x e e' valid ready run).mono
      fun d d' reads => ⟨x, reads, rfl⟩

theorem encodeSymbol_fits (s : Symbol) (valid : s.Valid) (ready : Ready e) (room : 20 ≤ e.room) :
    ∃ e', encodeSymbol e s = .ok e' ∧ e.room ≤ e'.room + 20 := by
  cases s with
  | freq cumFreq freq total =>
    obtain ⟨e', run, roomLe⟩ := encode_fits ready valid (by omega)
    exact ⟨e', run, by omega⟩
  | shift cumFreq freq shift =>
    obtain ⟨e', run, roomLe⟩ := encode_fits ready valid (by omega)
    exact ⟨e', by rw [encodeSymbol, encodeShift_eq, run], by omega⟩
  | uniform T val maxval bitmax => exact encodeUniform_fits valid ready room
  | uniShift T x shift =>
    have shiftLe : shift ≤ (3 + 1) * uniNbit := by
      have := ValidUniShift.shift_le valid
      have := T.bits_le
      simp only [uniNbit] at *
      omega
    exact encodeUniShift_fits 3 x shift e valid ready shiftLe room

theorem endCompress_out (run : endCompress e = .ok e') : e'.out = e.out ++ flushBytes e.low := by
  obtain ⟨low, range, out, room⟩ := e
  match room with
  | 0 | 1 | 2 | 3 => simp [endCompress, flush] at run
  | room + 4 =>
    simp only [endCompress, flush, Except.ok.injEq] at run
    subst run
    simp only [append_assoc, cons_append, nil_append, flushBytes,
      u32_shiftLeft_eight, append_cancel_left_eq,
      cons.injEq, Fin.ext_iff, Fin.val_ofNat, and_true]
    refine ⟨?_, ?_, ?_⟩ <;> omega

theorem endCompress_fits (room : 4 ≤ e.room) : ∃ e', endCompress e = .ok e' := by
  obtain ⟨low, range, out, total⟩ := e
  obtain ⟨left, rfl⟩ : ∃ left, total = left + 4 := ⟨total - 4, by simp only at room; omega⟩
  exact ⟨_, rfl⟩

theorem encodeSymbols_codes (symbols : List Symbol) : ∀ (e e' : Encoder),
    (∀ s ∈ symbols, s.Valid) → Ready e → encodeSymbols symbols e = .ok e' →
    ∃ emitted, e'.out = e.out ++ emitted ∧ 4 ≤ emitted.length ∧
      Inside e.low e.range (window emitted) ∧
      ∀ tail held, NonZero held → ∃ counts d,
        decodeSymbols symbols (level e emitted tail held) = .ok (counts, d) ∧
          Forall₂ Symbol.Recovered symbols counts ∧ NonZero d.held ∧ d.input = tail := by
  induction symbols with
  | nil =>
    intro e e' valid ready run
    have windowEq := window_flushBytes ready.live.low_lt
    have rangePos := ready.live.range_pos
    refine ⟨flushBytes e.low, endCompress_out run, le_refl 4, ?_, ?_⟩
    · rw [windowEq]
      exact ⟨le_refl _, by omega⟩
    · intro tail held nonZero
      exact ⟨[], _, rfl, Forall₂.nil, nonZero, rfl⟩
  | cons s rest ih =>
    intro e e' valid ready run
    obtain ⟨mid, first, runRest⟩ := bind_eq_ok.mp run
    obtain ⟨readyMid, emitted, outEq, back⟩ :=
      encodeSymbol_codes s (valid s mem_cons_self) ready first
    obtain ⟨emittedRest, outRest, long, inside, readRest⟩ :=
      ih mid e' (fun t mem => valid t (mem_cons_of_mem s mem)) readyMid runRest
    obtain ⟨insideBefore, read⟩ := back emittedRest long inside
    refine ⟨emitted ++ emittedRest, by rw [outRest, outEq, append_assoc],
      by rw [length_append]; omega, insideBefore, ?_⟩
    intro tail held nonZero
    obtain ⟨heldMid, nonZeroMid, count, countEq, recovered⟩ := read tail held nonZero
    obtain ⟨counts, d, countsEq, recoveredRest, nonZeroRest, inputEq⟩ :=
      readRest tail heldMid nonZeroMid
    refine ⟨count :: counts, d, ?_, Forall₂.cons recovered recoveredRest, nonZeroRest, inputEq⟩
    simp only [decodeSymbols, countEq, bind, Except.bind, countsEq]

theorem encodeSymbols_fits (symbols : List Symbol) : ∀ (e : Encoder),
    (∀ s ∈ symbols, s.Valid) → Ready e → 20 * symbols.length + 4 ≤ e.room →
    ∃ e', encodeSymbols symbols e = .ok e' := by
  induction symbols with
  | nil =>
    intro e valid ready room
    exact endCompress_fits (by simpa using room)
  | cons s rest ih =>
    intro e valid ready room
    rw [length_cons] at room
    have validHead := valid s mem_cons_self
    obtain ⟨mid, first, roomMid⟩ := encodeSymbol_fits s validHead ready (by omega)
    have readyMid := (encodeSymbol_codes s validHead ready first).1
    obtain ⟨e', runRest⟩ :=
      ih mid (fun t mem => valid t (mem_cons_of_mem s mem)) readyMid (by omega)
    exact ⟨e', bind_eq_ok.mpr ⟨mid, first, runRest⟩⟩

theorem ready_initCompress (len : Nat) : Ready (initCompress len) := by
  refine ⟨⟨?_, ?_, ?_, ?_⟩, ?_⟩ <;> simp [initCompress, bot]

theorem fetch_window (long : 4 ≤ bytes.length) (tail : List Byte) :
    fetch 4 0 (bytes ++ tail) = .ok (window bytes, bytes.drop 4 ++ tail) := by
  obtain ⟨b0, b1, b2, b3, rest, rfl⟩ := exists_four long
  simp only [cons_append, fetch, shift_in_byte, window, drop_succ_cons, drop_zero,
    Except.ok.injEq, Prod.mk.injEq, and_true]
  omega

/-- Every sequence of valid symbols fits a buffer of twenty bytes for each symbol
and four for the end marker.  Whatever buffer it was written to and whatever
follows it there, the decoder making the matching calls recovers every symbol,
never holds a zero range and stops right behind the bytes written. -/
theorem decompress_compress (symbols : List Symbol) (valid : ∀ s ∈ symbols, s.Valid) (len : Nat) :
    (20 * symbols.length + 4 ≤ len → ∃ bytes, compress len symbols = .ok bytes) ∧
      ∀ bytes, compress len symbols = .ok bytes → ∀ tail, ∃ counts d,
        decompress (bytes ++ tail) symbols = .ok (counts, d) ∧
          List.Forall₂ Symbol.Recovered symbols counts ∧ (∀ r ∈ d.held, r ≠ 0) ∧
          d.input = tail := by
  constructor
  · intro room
    obtain ⟨e', run⟩ := encodeSymbols_fits symbols _ valid (ready_initCompress len) room
    exact ⟨e'.out, bind_eq_ok.mpr ⟨e', run, rfl⟩⟩
  · intro bytes written tail
    obtain ⟨e', run, outEq⟩ := bind_eq_ok.mp written
    cases outEq
    obtain ⟨emitted, outEq, long, inside, read⟩ :=
      encodeSymbols_codes symbols _ e' valid (ready_initCompress len) run
    have allOut : e'.out = emitted := by simpa [initCompress] using outEq
    obtain ⟨counts, d, countsEq, facts⟩ := read tail [2 ^ 32 - 1] (by simp [NonZero])
    refine ⟨counts, d, ?_, facts⟩
    rw [allOut, ← countsEq]
    simp only [decompress, initDecompress, fetch_window long]
    rfl

theorem decompress_compress_mixed :
    ∃ bytes, compress 64 [.freq 3 2 10, .uniform .uint 70000 100000 17, .uniShift .ushort 5 3] =
        .ok bytes ∧
      ∃ count d, decompress bytes
          [.freq 3 2 10, .uniform .uint 70000 100000 17, .uniShift .ushort 5 3] =
            .ok ([count, 70000, 5], d) ∧ 3 ≤ count ∧ count < 5 ∧ d.input = [] := by
  have valid : ∀ s ∈ [Symbol.freq 3 2 10, .uniform .uint 70000 100000 17, .uniShift .ushort 5 3],
      s.Valid := by
    simp only [mem_cons, not_mem_nil, or_false, forall_eq_or_imp, forall_eq]
    exact ⟨by constructor <;> decide, by constructor <;> decide, by constructor <;> decide⟩
  obtain ⟨fits, roundTrip⟩ := decompress_compress _ valid 64
  obtain ⟨bytes, written⟩ := fits (by decide)
  refine ⟨bytes, written, ?_⟩
  obtain ⟨counts, d, countsEq, recovered, _, inputEq⟩ := roundTrip bytes written []
  rw [append_nil] at countsEq
  cases recovered with
  | cons first rest =>
    cases rest with
    | cons second rest =>
      cases rest with
      | cons third rest =>
        cases rest
        cases second
        cases third
        exact ⟨_, d, countsEq, first.1, first.2, inputEq⟩

end Brighthouse.Compress.RangeCoder
