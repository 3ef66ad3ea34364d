import Brighthouse.Library.SortKey

/-!
# Sort keys of strings

`EncoderText` of `core/ColumnBinEncoder.cpp`.  A key is the string filled up with zeros
and followed by two bytes with its length plus one; the field of a null is zero.  A key
for a descending column has all its bytes negated, and `GetValueT` negates them back in
the caller's buffer.
-/

set_option autoImplicit false

namespace Brighthouse.Core

open Library Library.SortKey List Option Nat

structure EncoderText where
  descending : Bool
  nullStatus : Nat
  size : Nat

namespace EncoderText

def new (maxStringSize : Nat) (nullsPossible descending : Bool) : EncoderText where
  descending := descending
  nullStatus := if nullsPossible then 1 else 0
  size := maxStringSize + 2

variable (e : EncoderText)

def secondColumn (maxStringSize : Nat) : EncoderText :=
  { e with size := max e.size (maxStringSize + 2) }

def negate (buf : Bytes) : Bytes := complement buf

def setNull : Bytes := List.replicate e.size (if e.descending then 255 else 0)

/-- `none` is the null string, whose length is zero.  The result is missing when the
assertion on the size of the buffer fails. -/
def encode (value : Option Bytes) : Option Bytes :=
  if 0 < e.nullStatus ∧ value = none then some e.setNull
  else
    let s := value.getD []
    if e.size < s.length then none
    else
      let buf := s ++ List.replicate (e.size - s.length) 0
      let buf := buf.set (e.size - 2) (Fin.ofNat 256 ((s.length + 1) / 256))
      let buf := buf.set (e.size - 1) (Fin.ofNat 256 ((s.length + 1) % 256))
      some (if e.descending then negate buf else buf)

def isNull (buf : Bytes) : Bool :=
  if e.descending then buf.getD (e.size - 2) 0 == 255 && buf.getD (e.size - 1) 0 == 255
  else buf.getD (e.size - 2) 0 == 0 && buf.getD (e.size - 1) 0 == 0

/-- The string and the buffer as the call leaves it.  A length that goes past the end of
the buffer makes the string go on with the memory `beyond`. -/
def getValueT (beyond buf : Bytes) : Option Bytes × Bytes :=
  if e.isNull buf then (none, buf)
  else
    let buf := if e.descending then negate buf else buf
    let len := (buf.getD (e.size - 2) 0).val * 256 + (buf.getD (e.size - 1) 0).val - 1
    (some ((buf ++ beyond).take len), buf)

def getValues (e : EncoderText) (beyond : Bytes) : Nat → Bytes → List (Option Bytes)
  | 0, _ => []
  | calls + 1, buf =>
    let (value, buf) := e.getValueT beyond buf
    value :: getValues e beyond calls buf

/-! ## Codes -/

def key (maxLen : Nat) (s : Bytes) : Bytes := pad maxLen s ++ bigEndian 2 (s.length + 1)

theorem length_key {maxLen : Nat} {s : Bytes} (fits : s.length ≤ maxLen) :
    (key maxLen s).length = maxLen + 2 := by
  simp [key, length_pad fits]

theorem set_last_two (front : Bytes) (a b c d : Byte) :
    ((front ++ [a, b]).set front.length c).set (front.length + 1) d = front ++ [c, d] := by
  simp

theorem encode_eq {maxLen : Nat} (nulls desc : Bool) {s : Bytes} (fits : s.length ≤ maxLen) :
    (new maxLen nulls desc).encode (some s) =
      some (if desc then negate (key maxLen s) else key maxLen s) := by
  have zeros : s ++ replicate (maxLen + 2 - s.length) 0 = pad maxLen s ++ [0, 0] := by
    rw [show maxLen + 2 - s.length = maxLen - s.length + 2 by omega, replicate_add, pad,
      append_assoc]
    rfl
  have field : bigEndian 2 (s.length + 1) = [Fin.ofNat 256 ((s.length + 1) / 256),
      Fin.ofNat 256 ((s.length + 1) % 256)] := by
    simp [bigEndian, Fin.ofNat]
  have buffer := set_last_two (pad maxLen s) 0 0 (Fin.ofNat 256 ((s.length + 1) / 256))
    (Fin.ofNat 256 ((s.length + 1) % 256))
  rw [length_pad fits, ← zeros, ← field] at buffer
  have fitsBuffer : ¬(new maxLen nulls desc).size < s.length :=
    not_lt.mpr (fits.trans (le_add_right maxLen 2))
  rw [encode, if_neg (by simp)]
  dsimp only [getD_some]
  rw [if_neg fitsBuffer]
  dsimp only [new]
  rw [Nat.add_sub_cancel, show maxLen + 2 - 1 = maxLen + 1 by omega, buffer]
  rfl

/-! ## Order -/

def code (maxLen : Nat) (desc : Bool) (s : Bytes) : Bytes :=
  if desc then negate (key maxLen s) else key maxLen s

section
variable {maxLen : Nat} {s t : Bytes} (fits : s.length ≤ maxLen) (fits' : t.length ≤ maxLen)
  (short : s.length < 65535) (short' : t.length < 65535)
include fits fits' short short'

theorem key_lt_key (less : s < t) : key maxLen s < key maxLen t :=
  pad_append_lt fits fits' less fun shorter =>
    (bigEndian_lt_iff (by omega) (by omega)).mpr (by omega)

theorem key_order :
    (key maxLen s < key maxLen t ↔ s < t) ∧ (key maxLen s = key maxLen t ↔ s = t) := by
  rcases lt_trichotomy s t with less | rfl | greater
  · have keys := key_lt_key fits fits' short short' less
    exact ⟨iff_of_true keys less, iff_of_false keys.ne less.ne⟩
  · exact ⟨iff_of_false (lt_irrefl _) (lt_irrefl _), iff_of_true rfl rfl⟩
  · have keys := key_lt_key fits' fits short' short greater
    exact ⟨iff_of_false keys.not_gt greater.not_gt, iff_of_false keys.ne' greater.ne'⟩

/-- In both directions codes are in the order of the strings, but for the strings whose
length plus one does not fit the field. -/
theorem code_order (desc : Bool) :
    (code maxLen desc s < code maxLen desc t ↔ if desc then t < s else s < t) ∧
      (code maxLen desc s = code maxLen desc t ↔ s = t) := by
  have order := key_order fits fits' short short'
  have reverse := key_order fits' fits short' short
  have lengths : (key maxLen s).length = (key maxLen t).length := by
    rw [length_key fits, length_key fits']
  cases desc with
  | false => exact order
  | true =>
    exact ⟨(complement_lt_iff lengths).trans reverse.1, complement_inj.trans order.2⟩

end

/-! ## Null and decoding -/

def fieldOf (size : Nat) (buf : Bytes) : Nat :=
  (buf.getD (size - 2) 0).val * 256 + (buf.getD (size - 1) 0).val

theorem isNull_iff (e : EncoderText) (buf : Bytes) :
    e.isNull buf = true ↔ fieldOf e.size buf = if e.descending then 65535 else 0 := by
  unfold isNull fieldOf
  split
  · rw [Bool.and_eq_true, beq_iff_eq, beq_iff_eq, Fin.ext_iff, Fin.ext_iff]
    omega
  · rw [Bool.and_eq_true, beq_iff_eq, beq_iff_eq, Fin.ext_iff, Fin.ext_iff]
    omega

theorem getValueT_eq (e : EncoderText) (beyond buf : Bytes) :
    e.getValueT beyond buf =
      if fieldOf e.size buf = if e.descending then 65535 else 0 then (none, buf)
      else
        let buf := if e.descending then negate buf else buf
        (some ((buf ++ beyond).take (fieldOf e.size buf - 1)), buf) := by
  rw [getValueT]
  by_cases null : e.isNull buf = true
  · rw [if_pos null, if_pos ((isNull_iff e buf).mp null)]
  · rw [if_neg null, if_neg (mt (isNull_iff e buf).mpr null)]
    rfl

section
variable {maxLen : Nat} {s : Bytes}

theorem fieldOf_key (fits : s.length ≤ maxLen) :
    fieldOf (maxLen + 2) (key maxLen s) = (s.length + 1) % 65536 := by
  have length := length_pad fits
  have high : (key maxLen s).getD maxLen 0 = Fin.ofNat 256 ((s.length + 1) / 256) := by
    simp [key, length, bigEndian]
  have low : (key maxLen s).getD (maxLen + 1) 0 = Fin.ofNat 256 (s.length + 1) := by
    simp [key, length, bigEndian]
  rw [fieldOf, Nat.add_sub_cancel, show maxLen + 2 - 1 = maxLen + 1 by omega, high, low]
  simp only [Fin.ofNat]
  omega

theorem fieldOf_negate {size : Nat} {buf : Bytes} (length : buf.length = size) (room : 2 ≤ size) :
    fieldOf size (negate buf) = 65535 - fieldOf size buf := by
  have flip : ∀ i < buf.length, ((negate buf).getD i 0).val = 255 - (buf.getD i 0).val := by
    intro i inside
    simp [negate, complement, inside]
  rw [fieldOf, fieldOf, flip _ (by omega), flip _ (by omega)]
  omega

theorem take_key (maxLen : Nat) (s beyond : Bytes) :
    (key maxLen s ++ beyond).take s.length = s := by
  rw [key, pad, append_assoc, append_assoc, take_left]

theorem getValueT_code (nulls desc : Bool) (fits : s.length ≤ maxLen) (short : s.length < 65535)
    (beyond : Bytes) :
    (new maxLen nulls desc).getValueT beyond (code maxLen desc s) =
      (some s, key maxLen s) := by
  have field := fieldOf_key fits
  have flipped := fieldOf_negate (length_key fits) (le_add_left 2 maxLen)
  rw [mod_eq_of_lt (by omega)] at field
  rw [getValueT_eq, if_neg]
  · cases desc with
    | false =>
      change (some ((key maxLen s ++ beyond).take (fieldOf (maxLen + 2) (key maxLen s) - 1)),
        key maxLen s) = _
      rw [field, Nat.add_sub_cancel, take_key]
    | true =>
      change (some ((negate (negate (key maxLen s)) ++ beyond).take
        (fieldOf (maxLen + 2) (negate (negate (key maxLen s))) - 1)),
        negate (negate (key maxLen s))) = _
      rw [negate, negate, complement_complement, field, Nat.add_sub_cancel, take_key]
  · cases desc with
    | false =>
      change ¬fieldOf (maxLen + 2) (key maxLen s) = 0
      omega
    | true =>
      change ¬fieldOf (maxLen + 2) (negate (key maxLen s)) = 65535
      omega

theorem getValueT_longest (nulls desc : Bool) (fits : s.length ≤ maxLen)
    (long : s.length = 65535) (beyond : Bytes) :
    ((new maxLen nulls desc).getValueT beyond (code maxLen desc s)).1 = none := by
  have field := fieldOf_key fits
  have flipped := fieldOf_negate (length_key fits) (le_add_left 2 maxLen)
  rw [long] at field
  rw [getValueT_eq, if_pos]
  cases desc with
  | false => exact field
  | true =>
    change fieldOf (maxLen + 2) (negate (key maxLen s)) = 65535
    rw [flipped, field]

section
variable (nulls : Bool) (fits : s.length ≤ maxLen) (short : s.length < 65535) (beyond : Bytes)
include nulls fits short beyond

/-- The second call on the buffer of a descending column returns something else: the
lengths of the two results have an odd sum. -/
theorem getValueT_key_descending :
    ((new maxLen nulls true).getValueT beyond (key maxLen s)).1 ≠ some s := by
  have field := fieldOf_key fits
  have length := length_key fits
  have flipped := fieldOf_negate length (le_add_left 2 maxLen)
  rw [getValueT_eq]
  by_cases null : fieldOf (new maxLen nulls true).size (key maxLen s) =
      if (new maxLen nulls true).descending then 65535 else 0
  · rw [if_pos null]
    simp
  · rw [if_neg null]
    intro same
    have lengths := congrArg List.length (some.inj same)
    change ((negate (key maxLen s) ++ beyond).take
      (fieldOf (maxLen + 2) (negate (key maxLen s)) - 1)).length = s.length at lengths
    rw [flipped, length_take, length_append, negate, length_complement] at lengths
    omega

theorem getValues_ascending (calls : Nat) :
    (new maxLen nulls false).getValues beyond calls (key maxLen s) =
      replicate calls (some s) := by
  have one := getValueT_code nulls false fits short beyond
  rw [code, if_neg Bool.false_ne_true] at one
  induction calls with
  | zero => rfl
  | succ calls ih =>
    rw [getValues, one]
    dsimp only
    rw [ih, replicate_succ]

end

theorem setNull_eq (nulls desc : Bool) :
    (new maxLen nulls desc).setNull =
      if desc then negate (replicate (maxLen + 2) 0) else replicate (maxLen + 2) 0 := by
  cases desc with
  | false => rfl
  | true =>
    simp only [negate, complement, map_replicate]
    rfl

theorem setNull_ne_code (nulls desc : Bool) (fits : s.length ≤ maxLen) (short : s.length < 65535) :
    (new maxLen nulls desc).setNull ≠ code maxLen desc s := by
  have differ : replicate (maxLen + 2) 0 ≠ key maxLen s := by
    intro same
    have field := fieldOf_key fits
    rw [← same] at field
    have zero : fieldOf (maxLen + 2) (replicate (maxLen + 2) 0) = 0 := by
      simp [fieldOf]
    omega
  rw [setNull_eq]
  cases desc with
  | false => exact differ
  | true => exact fun same => differ (complement_inj.mp same)

end

/-! ## The contract -/

structure Faithful (e : EncoderText) (beyond u v : Bytes) (codeU codeV : Bytes) : Prop where
  encodeU : e.encode (some u) = some codeU
  encodeV : e.encode (some v) = some codeV
  order : codeU < codeV ↔ if e.descending then v < u else u < v
  equal : codeU = codeV ↔ u = v
  notNull : e.setNull ≠ codeU ∧ e.setNull ≠ codeV
  decodes : ∀ calls, e.getValues beyond calls codeU = List.replicate calls (some u) ∧
    e.getValues beyond calls codeV = List.replicate calls (some v)

theorem not_replicate {maxLen : Nat} (nulls : Bool) {desc : Bool} {s : Bytes}
    (fits : s.length ≤ maxLen) (limit : maxLen ≤ 65535) (beyond : Bytes)
    (bad : desc = true ∨ s.length = 65535) :
    (new maxLen nulls desc).getValues beyond 2 (code maxLen desc s) ≠
      replicate 2 (some s) := by
  intro all
  simp only [getValues] at all
  by_cases long : s.length = 65535
  · have first := getValueT_longest nulls desc fits long beyond
    simp [first] at all
  · have descends := bad.resolve_right long
    subst descends
    have first := getValueT_code nulls true fits (by omega) beyond
    have second := getValueT_key_descending nulls fits (by omega) beyond
    simp [first, second] at all

/-- The contract holds exactly for ascending columns and strings whose length plus one
fits the field. -/
theorem faithful_iff {maxLen : Nat} (limit : maxLen ≤ 65535) (nulls desc : Bool)
    (beyond : Bytes) {u v : Bytes} (fitsU : u.length ≤ maxLen) (fitsV : v.length ≤ maxLen) :
    (∃ codeU codeV, Faithful (new maxLen nulls desc) beyond u v codeU codeV) ↔
      desc = false ∧ u.length ≤ 65534 ∧ v.length ≤ 65534 := by
  have codeU : (new maxLen nulls desc).encode (some u) = some (code maxLen desc u) :=
    encode_eq nulls desc fitsU
  have codeV : (new maxLen nulls desc).encode (some v) = some (code maxLen desc v) :=
    encode_eq nulls desc fitsV
  constructor
  · rintro ⟨cu, cv, faithful⟩
    have isU := some.inj (faithful.encodeU.symm.trans codeU)
    have isV := some.inj (faithful.encodeV.symm.trans codeV)
    obtain ⟨twiceU, twiceV⟩ := faithful.decodes 2
    rw [isU] at twiceU
    rw [isV] at twiceV
    have goodU := mt (not_replicate nulls fitsU limit beyond) (not_not.mpr twiceU)
    have goodV := mt (not_replicate nulls fitsV limit beyond) (not_not.mpr twiceV)
    rw [not_or] at goodU goodV
    exact ⟨Bool.eq_false_iff.mpr goodU.1, by omega, by omega⟩
  · rintro ⟨rfl, shortU, shortV⟩
    have order := code_order fitsU fitsV (by omega) (by omega) false
    exact ⟨_, _, {
      encodeU := codeU
      encodeV := codeV
      order := order.1
      equal := order.2
      notNull := ⟨setNull_ne_code nulls false fitsU (by omega),
        setNull_ne_code nulls false fitsV (by omega)⟩
      decodes := fun calls => ⟨getValues_ascending nulls fitsU (by omega) beyond calls,
        getValues_ascending nulls fitsV (by omega) beyond calls⟩ }⟩

/-- Two short strings in an ascending column. -/
theorem faithful_short : ∃ codeU codeV, Faithful (new 3 true false) [] [97] [97, 0] codeU codeV :=
  (faithful_iff (by decide) true false [] (by decide) (by decide)).mpr (by decide)

/-- In a descending column the second call takes the complement of the length for the length
and reads 65529 bytes beyond the buffer. -/
theorem descending_second_call :
    (new 1 true true).encode (some [97]) = some [158, 255, 253] ∧
      ∀ beyond, (new 1 true true).getValues beyond 2 [158, 255, 253] =
        [some [97], some (([158, 255, 253] ++ beyond).take 65532)] := by
  refine ⟨by decide +kernel, fun beyond => ?_⟩
  have first : (new 1 true true).getValueT beyond [158, 255, 253] = (some [97], [97, 0, 2]) := rfl
  have second : (new 1 true true).getValueT beyond [97, 0, 2] =
      (some (([158, 255, 253] ++ beyond).take 65532), [158, 255, 253]) := by
    have isNull : (new 1 true true).isNull [97, 0, 2] = false := by decide
    have negated : negate [97, 0, 2] = [158, 255, 253] := by decide
    rw [getValueT, isNull]
    simp only [new, negated]
    rfl
  simp only [getValues, first, second]

end EncoderText

end Brighthouse.Core
