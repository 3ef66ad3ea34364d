import Brighthouse.Types.TextStatSpec

/-!
# Codes of strings

`Encode` packs the codes of the characters of a string.  On the strings the encoding
was made for this is strictly monotone, and `Decode` inverts it.
-/

set_option autoImplicit false

namespace Brighthouse.Types.TextStat

open Library Library.BitFields List

/-! ## Any string -/

/-- What a string puts into the field of position `i`. -/
def digit (t : TextStat) (v : Bytes) (i : Nat) : Nat :=
  match v[i]? with
  | some c => (charCode t i c).getD 0
  | none => 0

structure Legal (t : TextStat) (v : Bytes) : Prop where
  short : v.length ≤ maxPositions
  chars : ∀ i c, v[i]? = some c → (charCode t i c).isSome
  ending : v.length < t.maxStringSize → t.encodeTable v.length 0 ≠ illegal

theorem encodeChars_eq (t : TextStat) (value : Nat → Nat) (s : Bytes) :
    ∀ i, (∀ j c, s[j]? = some c → charCode t (i + j) c = some (value (i + j))) →
      encodeChars t i s (pack t.lenTable value i) =
        some (pack t.lenTable value (i + s.length)) := by
  induction s with
  | nil => intro i _; rfl
  | cons b rest ih =>
    intro i codes
    have first : charCode t i b = some (value i) := codes 0 b rfl
    have restCodes := ih (i + 1) fun j c here => by
      have code := codes (j + 1) c here
      rwa [add_comm j, ← add_assoc] at code
    rw [encodeChars, first, length_cons, add_comm rest.length, ← add_assoc]
    exact restCodes

theorem encodeChars_none (t : TextStat) (s : Bytes) :
    ∀ i res, (∃ j c, s[j]? = some c ∧ charCode t (i + j) c = none) →
      encodeChars t i s res = none := by
  induction s with
  | nil =>
    rintro i res ⟨j, c, here, _⟩
    simp at here
  | cons b rest ih =>
    rintro i res ⟨j, c, here, fails⟩
    rw [encodeChars]
    cases code : charCode t i b with
    | none => rfl
    | some first =>
      refine ih (i + 1) _ ?_
      cases j with
      | zero =>
        rw [getElem?_cons_zero, Option.some.injEq] at here
        rw [← here, add_zero, code] at fails
        cases fails
      | succ j => exact ⟨j, c, here, by rwa [add_assoc, add_comm 1]⟩

variable {value : Nat → Nat}

theorem fill_zero (t : TextStat) (left : Nat) :
    ∀ i, (∀ j, i ≤ j → value j = 0) →
      fill t (fun _ => 0) left i (pack t.lenTable value i) = pack t.lenTable value (i + left) := by
  induction left with
  | zero => intro i _; rfl
  | succ left ih =>
    intro i zeros
    have next : (if 0 < t.lenTable i then pack t.lenTable value i <<< t.lenTable i + 0
        else pack t.lenTable value i) = pack t.lenTable value (i + 1) := by
      rw [pack, zeros i (le_refl i)]
      split
      · rfl
      · next none => simp [Nat.eq_zero_of_not_pos none]
    rw [fill, next, ih (i + 1) fun j later => zeros j (by omega)]
    congr 1
    omega

section
variable {strings : List Bytes} {t : TextStat}

section
variable (encoding : EncodingOf strings t)
include encoding

variable {i : Nat}

theorem EncodingOf.lenTable_past (past : t.maxStringSize ≤ i) : t.lenTable i = 0 := by
  rw [encoding.encoded.widths, if_neg (by omega)]

theorem EncodingOf.encodeTable_past (c : Nat) (past : t.maxStringSize ≤ i) :
    t.encodeTable i c = illegal := by
  rw [encoding.encoded.codes, if_neg (by omega)]

theorem EncodingOf.digit_past (v : Bytes) (past : t.maxStringSize ≤ i) : digit t v i = 0 := by
  unfold digit charCode
  simp only [encoding.encodeTable_past _ past, encoding.lenTable_past past]
  split
  · split
    · rfl
    · simp
      split <;> rfl
  · rfl

theorem EncodingOf.encodeTable_end (ending : t.encodeTable i 0 ≠ illegal) :
    t.encodeTable i 0 = 0 := by
  rw [encoding.encoded.codes] at ending ⊢
  split at ending
  · next here => rw [if_pos here, rank_zero]
  · exact absurd rfl ending

end

variable {v : Bytes} {i : Nat}

theorem digit_past_end (t : TextStat) (past : v.length ≤ i) : digit t v i = 0 := by
  rw [digit, getElem?_eq_none_iff.mpr past]

theorem Legal.charCode_eq (legal : Legal t v) {c : Byte} (here : v[i]? = some c) :
    charCode t i c = some (digit t v i) := by
  have accepted := legal.chars i c here
  rw [digit, here]
  cases code : charCode t i c with
  | none => simp [code] at accepted
  | some n => simp [code]

theorem EncodingOf.encode_legal (encoding : EncodingOf strings t) (legal : Legal t v) :
    t.encode v false = some (pack t.lenTable (digit t v) t.maxStringSize) := by
  have chars := encodeChars_eq t (digit t v) v 0 fun j c here => by
    rw [zero_add]
    exact legal.charCode_eq here
  rw [zero_add] at chars
  have start : pack t.lenTable (digit t v) 0 = 0 := rfl
  rw [start] at chars
  have zeros : ∀ j, v.length ≤ j → digit t v j = 0 := fun j past => digit_past_end t past
  rw [encode, if_neg (not_lt.mpr legal.short), chars]
  simp only [Option.bind_eq_bind, Option.bind_some, if_neg Bool.false_ne_true]
  unfold encodeEnd
  by_cases ends : v.length < t.maxStringSize
  · have code := encoding.encodeTable_end (legal.ending ends)
    have next : (if 0 < t.lenTable v.length then
        some (pack t.lenTable (digit t v) v.length <<< t.lenTable v.length + 0)
        else some (pack t.lenTable (digit t v) v.length)) =
          some (pack t.lenTable (digit t v) (v.length + 1)) := by
      rw [pack, zeros _ (le_refl _)]
      split
      · rfl
      · next none => simp [Nat.eq_zero_of_not_pos none]
    rw [if_pos ends, if_neg (legal.ending ends), code, next, Option.bind_some,
      fill_zero t _ _ fun j later => zeros j (by omega)]
    congr 2
    omega
  · have left : t.maxStringSize - (v.length + 1) = 0 := by omega
    rw [if_neg ends, Option.bind_some, left]
    exact congrArg some (pack_of_zero (not_lt.mp ends) fun i low _ =>
      ⟨encoding.lenTable_past low, encoding.digit_past v low⟩)

theorem encode_illegal (unfit : ¬Legal t v) : t.encode v false = none := by
  unfold encode
  split
  · rfl
  · next short =>
      by_cases chars : ∀ i c, v[i]? = some c → (charCode t i c).isSome
      · cases run : encodeChars t 0 v 0 with
        | none => rfl
        | some res =>
          have ends : v.length < t.maxStringSize ∧ t.encodeTable v.length 0 = illegal := by
            by_contra open'
            exact unfit ⟨not_lt.mp short, chars, fun less same => open' ⟨less, same⟩⟩
          simp [encodeEnd, ends.1, ends.2]
      · push Not at chars
        obtain ⟨i, c, here, fails⟩ := chars
        rw [encodeChars_none t v 0 0 ⟨i, c, here, by simpa using fails⟩]
        rfl

section
variable (encoding : EncodingOf strings t)
include encoding

theorem EncodingOf.charCode_lt {i n : Nat} {c : Byte} (code : charCode t i c = some n) :
    n < 2 ^ t.lenTable i := by
  unfold charCode at code
  split at code
  · cases code
    exact Nat.two_pow_pos _
  · split at code
    · cases code
      rw [Nat.one_shiftLeft]
      exact Nat.sub_one_lt (Nat.two_pow_pos _).ne'
    · split at code
      · cases code
      · next known =>
          cases code
          rw [encoding.encoded.codes] at known ⊢
          split at known
          · next here =>
              rw [if_pos here, encoding.encoded.widths, if_pos here.1]
              exact lt_two_pow_fieldWidth (symbolCount_pos here.2.1 here.2.2)
          · exact absurd rfl known

theorem EncodingOf.fit (v : Bytes) (n : Nat) : Fit t.lenTable (digit t v) n := by
  intro i _
  unfold digit
  split
  · next c _ =>
      cases code : charCode t i c with
      | none => exact Nat.two_pow_pos _
      | some n => exact encoding.charCode_lt code
  · exact Nat.two_pow_pos _

/-! ## The strings of the encoding -/

theorem EncodingOf.size_le : t.maxStringSize ≤ maxPositions := by
  by_cases empty : t.maxStringSize = 0
  · rw [empty]
    exact Nat.zero_le _
  · obtain ⟨s, mem, length⟩ := encoding.reached empty
    exact length.symm.le.trans (encoding.short s mem)

theorem EncodingOf.found_of_symbol {s : Bytes} (mem : s ∈ strings) {i c : Nat}
    (here : symbolAt s i = some c) : t.charsFound i c = 1 := by
  rw [encoding.found, if_pos ⟨s, mem, here⟩]

theorem EncodingOf.encodeTable_found {i c : Nat} (inside : i < t.maxStringSize) (small : c < 256)
    (here : t.charsFound i c = 1) :
    t.encodeTable i c = rank t.charsFound i c ∧ t.encodeTable i c ≠ illegal := by
  have code : t.encodeTable i c = rank t.charsFound i c := by
    rw [encoding.encoded.codes, if_pos ⟨inside, small, here⟩]
  have few := encoding.encoded.few i inside
  have below := symbolCount_pos small here
  exact ⟨code, by rw [code]; omega⟩

section
variable {s : Bytes} (mem : s ∈ strings)
include mem

theorem EncodingOf.charCode_member {i : Nat} {c : Byte} (here : s[i]? = some c) :
    charCode t i c = some (rank t.charsFound i c.val) := by
  have inside : i < t.maxStringSize :=
    (List.getElem?_eq_some_iff.mp here).1.trans_le (encoding.size s mem)
  have nonZero : c ≠ 0 := by
    rintro rfl
    exact encoding.clean s mem (mem_of_getElem? here)
  obtain ⟨code, known⟩ := encoding.encodeTable_found inside c.isLt
    (encoding.found_of_symbol mem (symbolAt_byte here))
  have notSpecial : ¬(c = 255 ∧ t.encodeTable i 255 = illegal) := by
    rintro ⟨rfl, unknown⟩
    exact known unknown
  rw [charCode, if_neg nonZero, if_neg notSpecial, if_neg known, code]

theorem EncodingOf.digit_member {i : Nat} {c : Byte} (here : s[i]? = some c) :
    digit t s i = rank t.charsFound i c.val := by
  rw [digit, here]
  simp [encoding.charCode_member mem here]

theorem EncodingOf.found_end (inside : s.length < t.maxStringSize) : t.charsFound s.length 0 = 1 :=
  encoding.found_of_symbol mem (symbolAt_end (inside.trans_le encoding.size_le))

theorem EncodingOf.legal_member : Legal t s where
  short := encoding.short s mem
  chars := fun i c here => by rw [encoding.charCode_member mem here]; rfl
  ending := fun inside =>
    (encoding.encodeTable_found inside (by decide) (encoding.found_end mem inside)).2

/-- The codes of the strings are in the range of `MaxCode`. -/
theorem EncodingOf.digit_le (i : Nat) : digit t s i ≤ symbolCount t.charsFound i - 1 := by
  cases here : s[i]? with
  | none =>
    rw [digit, here]
    exact Nat.zero_le _
  | some c =>
    have found := encoding.found_of_symbol mem (symbolAt_byte here)
    have below := symbolCount_pos c.isLt found
    rw [encoding.digit_member mem here]
    omega

end

theorem EncodingOf.digits_lt {s u : Bytes} (mem : s ∈ strings) (mem' : u ∈ strings) (lt : s < u) :
    ∃ k < t.maxStringSize, (∀ i < k, digit t s i = digit t u i) ∧ digit t s k < digit t u k := by
  rcases List.lt_iff_exists.mp lt with ⟨initial, shorter⟩ | ⟨k, inS, inU, same, less⟩
  · have inside := shorter.trans_le (encoding.size u mem')
    refine ⟨s.length, inside, fun i small => ?_, ?_⟩
    · have equal : s[i]? = u[i]? := by
        rw [initial, getElem?_take_of_lt small]
      rw [digit, digit, equal]
    · have here : u[s.length]? = some u[s.length] := getElem?_eq_getElem shorter
      have nonZero : 0 < u[s.length].val := by
        apply pos_of_ne_zero
        intro zero
        exact encoding.clean u mem' ((Fin.ext zero : u[s.length] = 0) ▸ getElem_mem shorter)
      rw [digit_past_end t (le_refl _), encoding.digit_member mem' here]
      exact rank_lt_rank (encoding.found_end mem inside) nonZero
  · refine ⟨k, inS.trans_le (encoding.size s mem), fun i small => ?_, ?_⟩
    · have equal : s[i]? = u[i]? := by
        rw [getElem?_eq_getElem (small.trans inS), getElem?_eq_getElem (small.trans inU),
          same i small]
      rw [digit, digit, equal]
    · have here : s[k]? = some s[k] := getElem?_eq_getElem inS
      have there : u[k]? = some u[k] := getElem?_eq_getElem inU
      rw [encoding.digit_member mem here, encoding.digit_member mem' there]
      exact rank_lt_rank (encoding.found_of_symbol mem (symbolAt_byte here)) less

end

end

/-! ## Decoding -/

theorem decodingRow_code {codes row : Nat → Nat}
    (inj : ∀ j k, codes j ≠ illegal → codes j = codes k → j = k) {c : Nat} (small : c < 256)
    (known : codes c ≠ illegal) : decodingRow codes row (codes c) = c := by
  have prefixes : ∀ n start, c < n →
      (range n).foldl (fun row j => if codes j = illegal then row
        else fun i => if i = codes j then j else row i) start (codes c) = c := by
    intro n start
    induction n with
    | zero => intro below; exact absurd below (Nat.not_lt_zero c)
    | succ n ih =>
      intro below
      rw [range_succ, foldl_append, foldl_cons, foldl_nil]
      rcases Nat.lt_succ_iff_lt_or_eq.mp below with less | rfl
      · split
        · exact ih less
        · have other : codes c ≠ codes n := fun same => less.ne (inj c n known same)
          simp only [other]
          exact ih less
      · rw [if_neg known]
        exact if_pos rfl
  exact prefixes 256 _ small

/-- The character that `Decode` reads for the field value `value i`. -/
def decodedChar (t : TextStat) (value : Nat → Nat) (i : Nat) : Byte :=
  Fin.ofNat 256 (t.charsFound i (value i))

theorem decodeLoop_eq (t : TextStat) (n : Nat) :
    ∀ (len : Nat) (buf : Bytes), Fit t.lenTable value n →
      decodeLoop t n (pack t.lenTable value n) len buf =
        (((range n).find? fun i => decodedChar t value i == 0).getD len,
          (range n).map (decodedChar t value) ++ buf) := by
  induction n with
  | zero => intro len buf _; rfl
  | succ n ih =>
    intro len buf fit
    have small := fit n (Nat.lt_succ_self n)
    have charcode : (if 0 < t.lenTable n then
        pack t.lenTable value (n + 1) &&& (1 <<< t.lenTable n - 1) else 0) = value n := by
      split
      · rw [Nat.one_shiftLeft, Nat.and_two_pow_sub_one_eq_mod, pack_succ_mod small]
      · next none =>
          rw [Nat.eq_zero_of_not_pos none] at small
          omega
    have rest : (if 0 < t.lenTable n then pack t.lenTable value (n + 1) >>> t.lenTable n
        else pack t.lenTable value (n + 1)) = pack t.lenTable value n := by
      have shifted := pack_succ_shiftRight small
      split
      · exact shifted
      · next none => rwa [Nat.eq_zero_of_not_pos none] at shifted
    have found : (range (n + 1)).find? (fun i => decodedChar t value i == 0) =
        ((range n).find? fun i => decodedChar t value i == 0).or
          (if decodedChar t value n = 0 then some n else none) := by
      rw [range_succ, find?_append]
      simp
    rw [decodeLoop]
    simp only [charcode, rest]
    rw [ih _ _ fit.pred, found, range_succ, map_append, append_assoc]
    congr 1
    cases (range n).find? fun i => decodedChar t value i == 0 with
    | some i => rfl
    | none =>
      change (if decodedChar t value n = 0 then n else len) = _
      split <;> rfl

theorem EncodingOf.encodeTable_inj {strings : List Bytes} {t : TextStat}
    (encoding : EncodingOf strings t) {i j k : Nat} (known : t.encodeTable i j ≠ illegal)
    (same : t.encodeTable i j = t.encodeTable i k) : j = k := by
  have known' := known
  rw [same] at known'
  rw [encoding.encoded.codes] at known known' same
  rw [encoding.encoded.codes i k] at same
  split at known
  · next here =>
      split at known'
      · next there =>
          rw [if_pos here, if_pos there] at same
          exact Nat.count_injective here.2.2 there.2.2 same
      · exact absurd rfl known'
  · exact absurd rfl known

section
variable {strings : List Bytes} {t : TextStat}

section
variable (encoding : EncodingOf strings t)
include encoding

theorem EncodingOf.prepareDecoding_eq :
    prepareDecoding t = { t with
      charsFoundForDecoding := true
      charsFound := fun p i =>
        if p < t.maxStringSize then decodingRow (t.encodeTable p) (t.charsFound p) i
        else t.charsFound p i } := by
  rw [prepareDecoding, if_neg (by simp [encoding.fresh])]

theorem EncodingOf.decodedChar_rank {i c : Nat} {value : Nat → Nat} (inside : i < t.maxStringSize)
    (small : c < 256) (here : t.charsFound i c = 1) (isRank : value i = rank t.charsFound i c) :
    decodedChar (prepareDecoding t) value i = Fin.ofNat 256 c := by
  obtain ⟨code, known⟩ := encoding.encodeTable_found inside small here
  rw [decodedChar, encoding.prepareDecoding_eq]
  dsimp only
  rw [if_pos inside, isRank, ← code,
    decodingRow_code (fun j k => encoding.encodeTable_inj) small known]

section
variable {s : Bytes} (mem : s ∈ strings)
include mem

theorem EncodingOf.decodedChar_member {i : Nat} (small : i < s.length) :
    decodedChar (prepareDecoding t) (digit t s) i = s[i] := by
  have here : s[i]? = some s[i] := getElem?_eq_getElem small
  rw [encoding.decodedChar_rank (small.trans_le (encoding.size s mem)) s[i].isLt
    (encoding.found_of_symbol mem (symbolAt_byte here)) (encoding.digit_member mem here)]
  exact Fin.ofNat_val_eq_self s[i]

theorem EncodingOf.decodedChar_end (inside : s.length < t.maxStringSize) :
    decodedChar (prepareDecoding t) (digit t s) s.length = 0 := by
  refine encoding.decodedChar_rank inside (by decide) (encoding.found_end mem inside) ?_
  rw [digit_past_end t (le_refl _), rank_zero]

theorem EncodingOf.find_end :
    ((range t.maxStringSize).find?
      fun i => decodedChar (prepareDecoding t) (digit t s) i == 0).getD t.maxStringSize =
        s.length := by
  have before : ∀ i < s.length, decodedChar (prepareDecoding t) (digit t s) i ≠ 0 := by
    intro i small zero
    rw [encoding.decodedChar_member mem small] at zero
    exact encoding.clean s mem (zero ▸ getElem_mem small)
  rcases (encoding.size s mem).lt_or_eq with inside | full
  · have first : (range t.maxStringSize).find?
        (fun i => decodedChar (prepareDecoding t) (digit t s) i == 0) = some s.length := by
      rw [find?_range_eq_some]
      exact ⟨by simpa using encoding.decodedChar_end mem inside, mem_range.mpr inside,
        fun i small => by simpa using before i small⟩
    rw [first]
    rfl
  · have none : (range t.maxStringSize).find?
        (fun i => decodedChar (prepareDecoding t) (digit t s) i == 0) = none := by
      rw [find?_range_eq_none]
      intro i small
      simpa using before i (full ▸ small)
    rw [none, full]
    rfl

theorem EncodingOf.take_decoded :
    ((range t.maxStringSize).map (decodedChar (prepareDecoding t) (digit t s)) ++ [0]).take
      s.length = s := by
  have long := encoding.size s mem
  rw [take_append_of_le_length (by simpa using long)]
  apply ext_getElem
  · simpa using long
  · intro i inTake inS
    rw [getElem_take, getElem_map, getElem_range]
    exact encoding.decodedChar_member mem inS

theorem EncodingOf.decode_member :
    (decode t (pack t.lenTable (digit t s) t.maxStringSize)).1 = s := by
  have tables : (prepareDecoding t).lenTable = t.lenTable ∧
      (prepareDecoding t).maxStringSize = t.maxStringSize := by
    rw [encoding.prepareDecoding_eq]
    exact ⟨rfl, rfl⟩
  have loop := decodeLoop_eq (prepareDecoding t) t.maxStringSize t.maxStringSize [0]
    (tables.1.symm ▸ encoding.fit s t.maxStringSize)
  rw [tables.1, encoding.find_end mem] at loop
  have whole := encoding.take_decoded mem
  rw [decode]
  simp only [tables.2, loop]
  unfold materialize
  split
  · next empty =>
      -- the constructor runs to the first zero of the buffer, which stands at its start
      have nil : s = [] := length_eq_zero_iff.mp empty
      have zero : 0 < t.maxStringSize → decodedChar (prepareDecoding t) (digit t s) 0 = 0 := by
        intro inside
        have ends := encoding.decodedChar_end mem (empty.symm ▸ inside)
        rwa [empty] at ends
      rw [nil] at zero ⊢
      cases size : t.maxStringSize with
      | zero => rfl
      | succ n => simp [zero (by omega)]
  · exact whole

end

end

theorem decode_prepared (t : TextStat) (code : Nat) :
    decode (prepareDecoding t) code = decode t code := by
  have again : prepareDecoding (prepareDecoding t) = prepareDecoding t := by
    conv_lhs => rw [prepareDecoding]
    rw [if_pos]
    unfold prepareDecoding
    split
    · assumption
    · rfl
  rw [decode, decode, again]

theorem decode_state (t : TextStat) (code : Nat) : (decode t code).2 = prepareDecoding t := rfl

section
variable (encoding : EncodingOf strings t)
include encoding

theorem EncodingOf.decodeAll_members (members : List Bytes) (inside : ∀ s ∈ members, s ∈ strings) :
    decodeAll t (members.map fun s => pack t.lenTable (digit t s) t.maxStringSize) = members := by
  have prepared : ∀ rest : List Nat, decodeAll (prepareDecoding t) rest = decodeAll t rest := by
    intro rest
    cases rest with
    | nil => rfl
    | cons code rest =>
      simp only [decodeAll]
      rw [decode_prepared]
  induction members with
  | nil => rfl
  | cons s members ih =>
    obtain ⟨mem, rest⟩ := forall_mem_cons.mp inside
    simp only [map_cons, decodeAll]
    rw [encoding.decode_member mem, decode_state, prepared, ih rest]

theorem EncodingOf.maxCode_lt : t.maxCode < 2 ^ 63 := by
  have fit : Fit (width t.charsFound) (fun p => symbolCount t.charsFound p - 1)
      t.maxStringSize := by
    intro p _
    change symbolCount t.charsFound p - 1 < 2 ^ fieldWidth (symbolCount t.charsFound p)
    rcases eq_zero_or_pos (symbolCount t.charsFound p) with none | some
    · rw [none]
      exact Nat.two_pow_pos _
    · exact lt_two_pow_fieldWidth (by omega)
  rw [encoding.encoded.maxCode]
  exact (pack_lt fit).trans_le (Nat.pow_le_pow_right (by decide) encoding.encoded.total)

variable {s u : Bytes}

theorem EncodingOf.code_le_maxCode (mem : s ∈ strings) :
    pack t.lenTable (digit t s) t.maxStringSize ≤ t.maxCode := by
  have widths : ∀ p < t.maxStringSize, t.lenTable p = width t.charsFound p := by
    intro p inside
    rw [encoding.encoded.widths, if_pos inside]
  rw [encoding.encoded.maxCode, pack_congr_width widths]
  exact pack_mono fun p _ => encoding.digit_le mem p

theorem EncodingOf.code_lt_code (mem : s ∈ strings) (mem' : u ∈ strings) (lt : s < u) :
    pack t.lenTable (digit t s) t.maxStringSize < pack t.lenTable (digit t u) t.maxStringSize := by
  obtain ⟨k, inside, same, less⟩ := encoding.digits_lt mem mem' lt
  exact pack_lt_pack inside (encoding.fit s _) same less

theorem EncodingOf.encode_member (mem : s ∈ strings) :
    t.encode s false = some (pack t.lenTable (digit t s) t.maxStringSize) :=
  encoding.encode_legal (encoding.legal_member mem)

theorem EncodingOf.encode_lt_iff {m n : Nat} (mem : s ∈ strings) (mem' : u ∈ strings)
    (code : t.encode s false = some m) (code' : t.encode u false = some n) :
    (m < n ↔ s < u) ∧ (m = n ↔ s = u) := by
  rw [encoding.encode_member mem] at code
  rw [encoding.encode_member mem'] at code'
  cases code
  cases code'
  rcases lt_trichotomy s u with less | equal | greater
  · have codes := encoding.code_lt_code mem mem' less
    exact ⟨iff_of_true codes less, iff_of_false codes.ne less.ne⟩
  · subst equal
    exact ⟨iff_of_false (lt_irrefl _) (lt_irrefl _), iff_of_true rfl rfl⟩
  · have codes := encoding.code_lt_code mem' mem greater
    exact ⟨iff_of_false codes.not_gt greater.not_gt, iff_of_false codes.ne' greater.ne'⟩

theorem EncodingOf.decodeAll_codes {members : List Bytes} {codes : List Nat}
    (inside : ∀ s ∈ members, s ∈ strings)
    (coded : members.map (t.encode · false) = codes.map some) :
    decodeAll t codes = members := by
  have explicit : members.map (t.encode · false) =
      (members.map fun s => pack t.lenTable (digit t s) t.maxStringSize).map some := by
    rw [map_map]
    exact map_congr_left fun s mem => encoding.encode_member (inside s mem)
  have same := map_injective_iff.mpr (Option.some_injective Nat) (coded.symm.trans explicit)
  rw [same]
  exact encoding.decodeAll_members members inside

end

end

/-- `TextStat` codes the strings it was made for by an order-preserving bijection into
the range of `MaxCode`, and decodes any sequence of their codes. -/
theorem encoding_bijective {strings : List Bytes} {t : TextStat}
    (prepared : (new.addStrings strings).bind createEncoding = some t) :
    t.maxCode < 2 ^ 63 ∧
      (∀ s ∈ strings, ∃ code ≤ t.maxCode, t.encode s false = some code) ∧
      (∀ s ∈ strings, ∀ u ∈ strings, ∀ m n, t.encode s false = some m →
        t.encode u false = some n → (m < n ↔ s < u) ∧ (m = n ↔ s = u)) ∧
      ∀ members codes, (∀ s ∈ members, s ∈ strings) →
        members.map (t.encode · false) = codes.map some → decodeAll t codes = members := by
  obtain ⟨collected, added, created⟩ := Option.bind_eq_some_iff.mp prepared
  have encoding := encodingOf_create added created
  refine ⟨encoding.maxCode_lt, ?_, ?_, ?_⟩
  · intro s member
    exact ⟨_, encoding.code_le_maxCode member, encoding.encode_member member⟩
  · intro s member u member' m n code code'
    exact encoding.encode_lt_iff member member' code code'
  · intro members codes inside coded
    exact encoding.decodeAll_codes inside coded

/-- Two strings of different lengths. -/
theorem encoding_bijective_pair :
    ∃ t, (new.addStrings [[98], [97, 99]]).bind createEncoding = some t ∧
      [[98], [97, 99], [98]].map (t.encode · false) = [2, 1, 2].map some ∧
      decodeAll t [2, 1, 2] = [[98], [97, 99], [98]] := by
  have codes : (((new.addStrings [[98], [97, 99]]).bind createEncoding).map fun t =>
      [[98], [97, 99], [98]].map (t.encode · false)) = some ([2, 1, 2].map some) := by
    decide +kernel
  obtain ⟨t, prepared, coded⟩ := Option.map_eq_some_iff.mp codes
  obtain ⟨-, -, -, decoding⟩ := encoding_bijective prepared
  exact ⟨t, prepared, coded, decoding _ _ (by decide) coded⟩

end Brighthouse.Types.TextStat
