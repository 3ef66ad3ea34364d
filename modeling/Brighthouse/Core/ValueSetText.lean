import Brighthouse.Core.CommonDefinitions
import Brighthouse.Core.Hash64
import Brighthouse.Types.TextStatDomain

/-!
# Sets of strings

`ValueSet` (`core/ValueSet.cpp`) for strings under a binary collation.  `Prepare` tries
to code the members by a `TextStat` and keeps the codes in a `Hash64`; where that is not
possible, `Contains` looks the string up in the hash set of the values.  That set compares
strings byte by byte and is modelled by the list of its members, in the order in which it
is walked through.
-/

set_option autoImplicit false

namespace Brighthouse.Core.TextSet

open Library Brighthouse.Types Brighthouse.Types.TextStat

structure ValueSet where
  values : List Bytes
  easyText : Option (TextStat × Hash64)

namespace ValueSet

def encodeValue (easyText : TextStat) (v : Bytes) : BitVec 64 :=
  match easyText.encode v false with
  | some code => BitVec.ofNat 64 code
  | none => BitVec.ofInt 64 nullValue64

def prepare (values : List Bytes) : Option ValueSet :=
  if values.length = 0 then some { values, easyText := none }
  else
    match (TextStat.new.addStrings values).bind createEncoding with
    | some easyText => do
        let easyHash ← Hash64.construct values.length
        let easyHash ← easyHash.insertAll (values.map (encodeValue easyText))
        some { values, easyText := some (easyText, easyHash) }
    | none => some { values, easyText := none }

def contains (set : ValueSet) : Option Bytes → Option Bool
  | none => some false
  | some v =>
    match set.easyText with
    | some (easyText, easyHash) =>
      let vcode := encodeValue easyText v
      if vcode = BitVec.ofInt 64 nullValue64 then some false else easyHash.find vcode
    | none => some (decide (v ∈ set.values))

/-! ## What `Contains` answers -/

section
variable {values : List Bytes} {t : TextStat}

variable (encoding : EncodingOf values t)
include encoding

theorem encodeValue_code {v : Bytes} {code : Nat} (coded : t.encode v false = some code) :
    encodeValue t v ≠ BitVec.ofInt 64 nullValue64 ∧ (encodeValue t v).toNat = code := by
  have small := encoding.encode_lt coded
  have word : (encodeValue t v).toNat = code := by
    rw [encodeValue, coded]
    exact Nat.mod_eq_of_lt (by omega)
  refine ⟨fun isNull => ?_, word⟩
  have null : (BitVec.ofInt 64 nullValue64).toNat = 2 ^ 63 + 1 := by decide
  rw [isNull] at word
  omega

theorem encodeValue_mem_iff {v : Bytes} (readable : Readable values v) :
    encodeValue t v ∈ values.map (encodeValue t) ↔
      ∃ s ∈ values, ∀ i < longest values, readField values v i = readField values s i := by
  have mem : ∀ s ∈ values, (encodeValue t s = encodeValue t v ↔
      ∀ i < longest values, readField values v i = readField values s i) := by
    intro s isMember
    have readable' := (encoding.legal_iff_readable s).mp (encoding.legal_member isMember)
    have coded := encoding.encode_legal ((encoding.legal_iff_readable v).mpr readable)
    have coded' := encoding.encode_legal ((encoding.legal_iff_readable s).mpr readable')
    rw [← encoding.encode_eq_iff readable readable', ← BitVec.toNat_inj,
      (encodeValue_code encoding coded).2, (encodeValue_code encoding coded').2, coded, coded',
      Option.some_inj, eq_comm]
  rw [List.mem_map]
  exact exists_congr fun s => and_congr_right fun isMember => mem s isMember

theorem contains_easyText {easyHash : Hash64}
    (finds : ∀ n, easyHash.find n = some (decide (n ∈ values.map (encodeValue t)))) (v : Bytes) :
    ∃ answer, ({ values, easyText := some (t, easyHash) } : ValueSet).contains (some v) =
      some answer ∧ (answer = true ↔ Readable values v ∧
        ∃ s ∈ values, ∀ i < longest values, readField values v i = readField values s i) := by
  by_cases readable : Readable values v
  · have coded := encoding.encode_legal ((encoding.legal_iff_readable v).mpr readable)
    refine ⟨decide (encodeValue t v ∈ values.map (encodeValue t)), ?_, ?_⟩
    · rw [contains]
      dsimp only
      rw [if_neg (encodeValue_code encoding coded).1, finds]
    · rw [decide_eq_true_iff, encodeValue_mem_iff encoding readable]
      exact (and_iff_right readable).symm
  · have refused := encode_illegal (mt (encoding.legal_iff_readable v).mp readable)
    refine ⟨false, ?_, ?_⟩
    · rw [contains]
      dsimp only
      rw [if_pos (by rw [encodeValue, refused])]
    · simp [readable]

end

/-- A string that is not a member but has the same code as a member. -/
structure Confused (values : List Bytes) (v : Bytes) : Prop where
  encodable : HasEncoding values
  readable : Readable values v
  absent : v ∉ values
  twin : ∃ s ∈ values, ∀ i < longest values, readField values v i = readField values s i

/-- `Prepare` makes a table for more values than it can be made for. -/
def TooLarge (values : List Bytes) : Prop := HasEncoding values ∧ 536870910 < values.length

/-- Membership is exact but for strings that are confused with a member. -/
theorem contains_exact_iff (values : List Bytes) (v : Bytes) :
    ((prepare values).bind (·.contains (some v)) = some (decide (v ∈ values))) ↔
      ¬Confused values v ∧ ¬TooLarge values := by
  unfold prepare
  split
  · next empty =>
      have nil := List.length_eq_zero_iff.mp empty
      refine iff_of_true rfl ⟨fun confused => ?_, fun large => ?_⟩
      · obtain ⟨s, member, -⟩ := confused.twin
        rw [nil] at member
        cases member
      · exact absurd (empty ▸ large.2) (by decide)
  · split
    · next t prepared =>
        obtain ⟨collected, added, created⟩ := Option.bind_eq_some_iff.mp prepared
        have encoding := encodingOf_create added created
        have encodable := (exists_encoding_iff values).mp ⟨t, prepared⟩
        rw [Hash64.construct_eq]
        by_cases small : values.length ≤ 536870910
        · have table := Hash64.find_insertAll (le_refl (values.map (encodeValue t)).length)
          rw [List.length_map] at table
          obtain ⟨easyHash, inserted, finds⟩ := table
          obtain ⟨answer, contained, isAnswer⟩ := contains_easyText encoding finds v
          rw [if_pos small]
          change (do
            let easyHash ← (Hash64.new values.length).insertAll (values.map (encodeValue t))
            some ({ values, easyText := some (t, easyHash) } : ValueSet)).bind _ = _ ↔ _
          rw [inserted, and_iff_left fun large => absurd large.2 (not_lt.mpr small)]
          change contains { values, easyText := some (t, easyHash) } (some v) = _ ↔ _
          rw [contained, Option.some_inj, Bool.eq_iff_iff, decide_eq_true_iff, isAnswer]
          constructor
          · intro exact confused
            exact confused.absent (exact.mp ⟨confused.readable, confused.twin⟩)
          · intro clear
            constructor
            · rintro ⟨readable, twin⟩
              by_contra absent
              exact clear ⟨encodable, readable, absent, twin⟩
            · intro member
              exact ⟨(encoding.legal_iff_readable v).mp (encoding.legal_member member), v, member,
                fun _ _ => rfl⟩
        · rw [if_neg small]
          exact iff_of_false nofun fun clear => clear.2 ⟨encodable, not_le.mp small⟩
    · next failed =>
        have unencodable : ¬HasEncoding values := by
          intro encodable
          obtain ⟨t, prepared⟩ := (exists_encoding_iff values).mpr encodable
          rw [prepared] at failed
          cases failed
        exact iff_of_true rfl ⟨fun confused => unencodable confused.encodable,
          fun large => unencodable large.1⟩

/-- The set of `"a"` contains `"a"` followed by a zero byte. -/
theorem contains_trailing_zero :
    (prepare [[97]]).bind (·.contains (some [97, 0])) = some true ∧ [97, 0] ∉ [([97] : Bytes)] := by
  decide +kernel

end ValueSet

end Brighthouse.Core.TextSet
