import Brighthouse.Types.TextStatCoding

/-!
# What can be encoded, and how other strings are read

Which lists of strings `TextStat` accepts, and what `Encode` makes of a string that is
not in the list, both in terms of the list alone.
-/

set_option autoImplicit false

namespace Brighthouse.Types.TextStat

open Library Library.BitFields List Nat

variable {s v : Bytes} {c : Nat}

def occurrences (strings : List Bytes) : CharTable :=
  fun i c => if Occurs strings i c then 1 else 0

def longest (strings : List Bytes) : Nat := (strings.map List.length).foldr max 0

/-- The lists of strings that get an encoding. -/
structure HasEncoding (strings : List Bytes) : Prop where
  short : ∀ s ∈ strings, s.length ≤ maxPositions
  clean : ∀ s ∈ strings, 0 ∉ s
  few : ∀ p < longest strings, symbolCount (occurrences strings) p ≤ illegal
  total : totalWidth (width (occurrences strings)) (longest strings) ≤ 63

/-! ## Success of the preparation -/

theorem addChars_isSome (clean : 0 ∉ s) (found : CharTable) (i : Nat) :
    ∃ found', addChars found i s = some found' := by
  induction s generalizing found i with
  | nil => exact ⟨found, rfl⟩
  | cons c rest ih =>
    rw [mem_cons, not_or] at clean
    rw [addChars, if_neg (Ne.symm clean.1)]
    exact ih clean.2 _ _

theorem addStrings_isSome {strings : List Bytes} (short : ∀ s ∈ strings, s.length ≤ maxPositions)
    (clean : ∀ s ∈ strings, 0 ∉ s) (t : TextStat) : ∃ t', t.addStrings strings = some t' := by
  induction strings generalizing t with
  | nil => exact ⟨t, rfl⟩
  | cons s strings ih =>
    rw [forall_mem_cons] at short clean
    obtain ⟨found, chars⟩ := addChars_isSome clean.1 t.charsFound 0
    rw [addStrings, addString, if_neg (not_lt.mpr short.1), chars]
    exact ih short.2 clean.2 _

theorem assignCodes_isSome (found : Nat → Nat) (m : Nat) :
    ∀ k codes, count (fun x => found x = 1) (k + m) ≤ illegal →
      ∃ result, assignCodes found (range' k m) codes
        (count (fun x => found x = 1) k) = some result := by
  induction m with
  | zero => exact fun k codes _ => ⟨_, rfl⟩
  | succ m ih =>
    intro k codes few
    have next := count_succ (fun x => found x = 1) k
    have mono : count (fun x => found x = 1) (k + 1) ≤
        count (fun x => found x = 1) (k + (m + 1)) := count_monotone _ (by omega)
    rw [assignCodes_succ, if_neg]
    · exact ih (k + 1) _ (by rwa [add_right_comm])
    · rintro ⟨here, full⟩
      rw [if_pos here] at next
      omega

variable {found : CharTable} {n : Nat}

theorem Encoded.step_isSome {t : TextStat} (encoded : Encoded found n t)
    (few : symbolCount found n ≤ illegal) (total : totalWidth (width found) (n + 1) ≤ 63) :
    ∃ result, t.encodePosition n (totalWidth (width found) n) = some result := by
  obtain ⟨⟨codes, count⟩, assigned⟩ := assignCodes_isSome (found n) 256 0
    (t.encodeTable n) (by rw [zero_add]; exact few)
  have isCount := (assignCodes_spec 256 0 _ assigned (zero_le _)).1
  have fits : ¬63 < totalWidth (width found) n + fieldWidth count := by
    rw [isCount]
    exact not_lt.mpr total
  rw [encodePosition, encoded.table, range_eq_range']
  have start : Nat.count (fun x => found n x = 1) 0 = 0 := Nat.count_zero _
  rw [start] at assigned
  rw [assigned]
  exact ⟨_, if_neg fits⟩

theorem Encoded.run_isSome (left : Nat) :
    ∀ {n : Nat} {t : TextStat}, Encoded found n t →
      (∀ p < n + left, symbolCount found p ≤ illegal) →
      totalWidth (width found) (n + left) ≤ 63 →
      ∃ t', encodePositions left n (totalWidth (width found) n) t = some t' := by
  induction left with
  | zero => exact fun {n t} _ _ _ => ⟨t, rfl⟩
  | succ left ih =>
    intro n t encoded few total
    have shift : n + (left + 1) = n + 1 + left := by omega
    rw [shift] at few total
    obtain ⟨⟨next, used⟩, step⟩ := encoded.step_isSome (few n (by omega))
      ((totalWidth_mono (by omega)).trans total)
    obtain ⟨encodedNext, rfl, -⟩ := encoded.step step
    rw [encodePositions, step]
    exact ih encodedNext few total

section
variable {strings : List Bytes}

theorem le_longest (mem : s ∈ strings) : s.length ≤ longest strings := by
  induction strings with
  | nil => cases mem
  | cons u strings ih =>
    rcases mem_cons.mp mem with rfl | later
    · exact le_max_left _ _
    · exact (ih later).trans (le_max_right _ _)

theorem longest_le (bound : ∀ s ∈ strings, s.length ≤ n) : longest strings ≤ n := by
  induction strings with
  | nil => exact zero_le n
  | cons u strings ih =>
    rw [forall_mem_cons] at bound
    exact max_le bound.1 (ih bound.2)

theorem size_eq_longest (bound : ∀ s ∈ strings, s.length ≤ n)
    (reached : n ≠ 0 → ∃ s ∈ strings, s.length = n) : n = longest strings := by
  refine le_antisymm ?_ (longest_le bound)
  by_cases empty : n = 0
  · rw [empty]
    exact zero_le _
  · obtain ⟨s, mem, length⟩ := reached empty
    exact length ▸ le_longest mem

theorem EncodingOf.table_eq {t : TextStat}
    (encoding : EncodingOf strings t) : t.charsFound = occurrences strings :=
  funext fun i => funext fun c => encoding.found i c

theorem EncodingOf.size_eq {t : TextStat}
    (encoding : EncodingOf strings t) : t.maxStringSize = longest strings :=
  size_eq_longest encoding.size encoding.reached

end

theorem exists_encoding_iff (strings : List Bytes) :
    (∃ t, (new.addStrings strings).bind createEncoding = some t) ↔ HasEncoding strings := by
  constructor
  · rintro ⟨t, prepared⟩
    obtain ⟨collected, added, created⟩ := Option.bind_eq_some_iff.mp prepared
    have encoding := encodingOf_create added created
    have few := encoding.encoded.few
    have total := encoding.encoded.total
    rw [encoding.table_eq, encoding.size_eq] at few total
    exact ⟨encoding.short, encoding.clean, few, total⟩
  · intro encodable
    obtain ⟨t, added⟩ := addStrings_isSome encodable.short encodable.clean new
    have collected := collected_new.addStrings strings added
    have size := size_eq_longest collected.size collected.reached
    have table : t.charsFound = occurrences strings :=
      funext fun i => funext fun c => collected.found i c
    obtain ⟨t', created⟩ := (encoded_start collected).run_isSome t.maxStringSize
      (by rw [zero_add, size, table]; exact encodable.few)
      (by rw [zero_add, size, table]; exact encodable.total)
    refine ⟨t', ?_⟩
    rw [added, Option.bind_some, createEncoding, if_neg (by simp [collected.fresh])]
    exact created

/-! ## Reading any string -/

/-- The field that `Encode` fills for position `i`: the byte `0` counts as the end of the
string, and the byte `255` as the largest field where no string has it. -/
def readField (strings : List Bytes) (v : Bytes) (i : Nat) : Nat :=
  match v[i]? with
  | none => 0
  | some c =>
    if c = 0 then 0
    else if Occurs strings i c.val then rank (occurrences strings) i c.val
    else 2 ^ width (occurrences strings) i - 1

structure Readable (strings : List Bytes) (v : Bytes) : Prop where
  short : v.length ≤ maxPositions
  chars : ∀ i c, v[i]? = some c → c = 0 ∨ c = 255 ∨ Occurs strings i c.val
  ending : v.length < longest strings → Occurs strings v.length 0

section
variable {strings : List Bytes} {t : TextStat}

theorem lt_longest_of_occurs {i : Nat} (nonZero : c ≠ 0) (occurs : Occurs strings i c) :
    i < longest strings := by
  obtain ⟨s, mem, here⟩ := occurs
  by_contra past
  have outside := (le_longest mem).trans (not_lt.mp past)
  exact nonZero (length_of_symbolAt here outside).2.2

section
variable (encoding : EncodingOf strings t)
include encoding

variable {i : Nat}

theorem EncodingOf.encodeTable_known_iff (small : c < 256) :
    t.encodeTable i c ≠ illegal ↔ i < longest strings ∧ Occurs strings i c := by
  have found : t.charsFound i c = 1 ↔ Occurs strings i c := by
    rw [encoding.found]
    split <;> simp [*]
  rw [← encoding.size_eq, ← found]
  constructor
  · intro known
    rw [encoding.encoded.codes] at known
    split at known
    · next here => exact ⟨here.1, here.2.2⟩
    · exact absurd rfl known
  · intro here
    exact (encoding.encodeTable_found here.1 small here.2).2

theorem EncodingOf.charCode_eq (c : Byte) (inside : i < longest strings) :
    charCode t i c =
      if c = 0 then some 0
      else if Occurs strings i c.val then some (rank (occurrences strings) i c.val)
      else if c = 255 then some (2 ^ width (occurrences strings) i - 1) else none := by
  have known := encoding.encodeTable_known_iff (i := i) c.isLt
  rw [charCode]
  by_cases isZero : c = 0
  · rw [if_pos isZero, if_pos isZero]
  · rw [if_neg isZero, if_neg isZero]
    by_cases occurs : Occurs strings i c.val
    · have code := known.mpr ⟨inside, occurs⟩
      have value : t.encodeTable i c.val = rank (occurrences strings) i c.val := by
        rw [← encoding.table_eq]
        refine (encoding.encodeTable_found (encoding.size_eq.symm ▸ inside) c.isLt ?_).1
        rw [encoding.found, if_pos occurs]
      rw [if_pos occurs, if_neg (by rintro ⟨rfl, unknown⟩; exact code unknown), if_neg code, value]
    · have unknown : t.encodeTable i c.val = illegal :=
        not_not.mp fun code => occurs (known.mp code).2
      rw [if_neg occurs]
      by_cases isTop : c = 255
      · subst isTop
        rw [if_pos ⟨rfl, unknown⟩, if_pos rfl, encoding.encoded.widths, encoding.size_eq,
          if_pos inside, encoding.table_eq, one_shiftLeft]
      · rw [if_neg (fun both => isTop both.1), if_neg isTop, if_pos unknown]

theorem EncodingOf.charCode_past (c : Byte) (past : longest strings ≤ i) :
    charCode t i c = if c = 0 ∨ c = 255 then some 0 else none := by
  rw [← encoding.size_eq] at past
  rw [charCode, encoding.lenTable_past past, encoding.encodeTable_past _ past,
    encoding.encodeTable_past _ past]
  by_cases isZero : c = 0
  · simp [isZero]
  · by_cases isTop : c = 255 <;> simp [isZero]

theorem EncodingOf.legal_iff_readable (v : Bytes) : Legal t v ↔ Readable strings v := by
  have chars : ∀ i (c : Byte), (charCode t i c).isSome ↔
      c = 0 ∨ c = 255 ∨ Occurs strings i c.val := by
    intro i c
    rcases lt_or_ge i (longest strings) with inside | past
    · rw [encoding.charCode_eq c inside]
      split
      · simp [*]
      · split
        · simp [*]
        · split <;> simp [*]
    · rw [encoding.charCode_past c past]
      have absent : c ≠ 0 → ¬Occurs strings i c.val := fun nonZero occurs =>
        (lt_longest_of_occurs (fun zero => nonZero (Fin.ext zero)) occurs).not_ge past
      split
      · next either => simp; tauto
      · next neither =>
          rw [not_or] at neither
          simp [neither, absent neither.1]
  have ending : (v.length < t.maxStringSize → t.encodeTable v.length 0 ≠ illegal) ↔
      (v.length < longest strings → Occurs strings v.length 0) := by
    rw [encoding.encodeTable_known_iff (by decide), encoding.size_eq]
    exact ⟨fun ends inside => (ends inside).2, fun ends inside => ⟨inside, ends inside⟩⟩
  constructor
  · intro legal
    exact ⟨legal.short, fun i c here => (chars i c).mp (legal.chars i c here),
      ending.mp legal.ending⟩
  · intro readable
    exact ⟨readable.short, fun i c here => (chars i c).mpr (readable.chars i c here),
      ending.mpr readable.ending⟩

theorem EncodingOf.digit_eq_readField (readable : Readable strings v)
    (inside : i < longest strings) : digit t v i = readField strings v i := by
  rw [digit, readField]
  cases here : v[i]? with
  | none => rfl
  | some c =>
    dsimp only
    rw [encoding.charCode_eq c inside]
    rcases readable.chars i c here with zero | top | occurs
    · simp [zero]
    · split
      · rfl
      · split
        · rfl
        · simp
    · split <;> rfl

theorem EncodingOf.encode_eq_iff (readable : Readable strings v) (readable' : Readable strings s) :
    t.encode v false = t.encode s false ↔
      ∀ i < longest strings, readField strings v i = readField strings s i := by
  rw [encoding.encode_legal ((encoding.legal_iff_readable v).mpr readable),
    encoding.encode_legal ((encoding.legal_iff_readable s).mpr readable'), Option.some_inj,
    pack_inj (encoding.fit v _) (encoding.fit s _), encoding.size_eq]
  refine forall_congr' fun i => forall_congr' fun inside => ?_
  rw [encoding.digit_eq_readField readable inside, encoding.digit_eq_readField readable' inside]

theorem EncodingOf.encode_lt {code : Nat} (coded : t.encode v false = some code) :
    code < 2 ^ 63 := by
  by_cases legal : Legal t v
  · rw [encoding.encode_legal legal] at coded
    cases coded
    have widths : ∀ p < t.maxStringSize, t.lenTable p = width t.charsFound p := by
      intro p inside
      rw [encoding.encoded.widths, if_pos inside]
    have fit : Fit (width t.charsFound) (digit t v) t.maxStringSize := fun p inside => by
      rw [← widths p inside]
      exact encoding.fit v _ p inside
    rw [pack_congr_width widths]
    exact (pack_lt fit).trans_le (Nat.pow_le_pow_right (by decide) encoding.encoded.total)
  · rw [encode_illegal legal] at coded
    cases coded

end

end

end Brighthouse.Types.TextStat
