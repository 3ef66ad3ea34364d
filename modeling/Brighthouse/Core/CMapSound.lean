import Brighthouse.Core.CMap

/-!
# What a character map tells

After `fill` the bit of a character at a position is set exactly if a string of
the pack has the character there.  A string without characters leaves no trace,
and this is the only way for a query to be answered wrongly.
-/

set_option autoImplicit false

namespace Brighthouse.Core

open Library Library.WordTable Types.BString List Option

namespace CMap

/-! ## Which bits are set -/

theorem wordIndex (c : Byte) (pos : Nat) :
    (pos * 256 + c.val) / 32 = pos * 32 / 4 + c.val / 32 ∧
      (pos * 256 + c.val) % 32 = c.val % 32 := by
  constructor <;> omega

section
variable (m : CMap) (pack : Int)

theorem isSet_eq (c : Byte) (pos : Nat) :
    m.isSet pack c pos = testBit (m.packBuf pack) (pos * 256 + c.val) := by
  obtain ⟨word, bit⟩ := wordIndex c pos
  rw [isSet, testBit_eq, word, bit, mod_two_eq_one, BitVec.getLsbD_ushiftRight, add_zero]

theorem set_eq (c : Byte) (pos : Nat) :
    (m.set pack c pos).packBuf =
      Function.update m.packBuf pack (setBit (m.packBuf pack) (pos * 256 + c.val)) := by
  obtain ⟨word, bit⟩ := wordIndex c pos
  simp only [set, setBit, word, bit]

theorem isSet_set (c d : Byte) (pos at' : Nat) :
    (m.set pack c pos).isSet pack d at' = (decide (d = c ∧ at' = pos) || m.isSet pack d at') := by
  rw [isSet_eq, isSet_eq, set_eq, Function.update_self, testBit_setBit]
  congr 1
  rw [decide_eq_decide]
  constructor
  · intro same
    exact ⟨Fin.ext (by omega), by omega⟩
  · rintro ⟨rfl, rfl⟩
    rfl

variable (v : Bytes)

@[simp]
theorem setChars_noPositions (start : Nat) :
    (m.setChars pack v start).noPositions = m.noPositions := by
  induction v generalizing m start with
  | nil => rfl
  | cons c rest ih => exact ih (m.set pack c start) (start + 1)

theorem isSet_setChars (start : Nat) (d : Byte) (pos : Nat) :
    (m.setChars pack v start).isSet pack d pos = true ↔
      m.isSet pack d pos = true ∨ start ≤ pos ∧ v[pos - start]? = some d := by
  induction v generalizing m start with
  | nil => simp [setChars]
  | cons c rest ih =>
    rw [setChars, ih (m.set pack c start) (start + 1), isSet_set, Bool.or_eq_true,
      decide_eq_true_eq]
    rcases lt_trichotomy pos start with lt | rfl | gt
    · simp only [not_le.mpr lt, not_le.mpr (by omega : pos < start + 1), lt.ne, false_and,
        and_false, false_or]
    · simp only [le_refl, true_and, Nat.sub_self, getElem?_cons_zero, some.injEq,
        and_true, not_le.mpr (Nat.lt_succ_self pos), false_and, or_false]
      rw [or_comm, eq_comm (a := d)]
    · have index : pos - start = pos - (start + 1) + 1 := by omega
      simp only [gt.le, gt.ne', and_false, false_or, index, getElem?_cons_succ,
        (by omega : start + 1 ≤ pos)]

@[simp]
theorem putValue_noPositions :
    (m.putValue v pack).noPositions = m.noPositions := setChars_noPositions ..

theorem isSet_putValue (d : Byte) (pos : Nat) :
    (m.putValue v pack).isSet pack d pos = true ↔
      m.isSet pack d pos = true ∨ pos < m.noPositions ∧ v[pos]? = some d := by
  rw [putValue, isSet_setChars]
  by_cases inMap : pos < m.noPositions
  · simp [inMap]
  · simp [inMap]

theorem isSet_fill (strings : List Bytes) (d : Byte) (pos : Nat) :
    (m.fill pack strings).isSet pack d pos = true ↔
      pos < m.noPositions ∧ ∃ s ∈ strings, s[pos]? = some d := by
  have run : ∀ (rest : List Bytes) (current : CMap), current.noPositions = m.noPositions →
      ((rest.foldl (fun m v => m.putValue v pack) current).isSet pack d pos = true ↔
        current.isSet pack d pos = true ∨
          pos < m.noPositions ∧ ∃ s ∈ rest, s[pos]? = some d) := by
    intro rest
    induction rest with
    | nil =>
      intro current _
      simp
    | cons v rest ih =>
      intro current size
      rw [foldl_cons, ih _ ((putValue_noPositions current pack v).trans size), isSet_putValue, size]
      simp only [mem_cons, exists_eq_or_imp]
      tauto
  have empty : (m.clearPack pack).isSet pack d pos = false := by
    rw [isSet_eq, clearPack]
    simp
  rw [fill, run strings (m.clearPack pack) rfl, empty]
  simp

@[simp]
theorem fill_noPositions (strings : List Bytes) :
    (m.fill pack strings).noPositions = m.noPositions := by
  have run : ∀ (rest : List Bytes) (current : CMap),
      (rest.foldl (fun m v => m.putValue v pack) current).noPositions = current.noPositions := by
    intro rest
    induction rest with
    | nil =>
      intro current
      rfl
    | cons v rest ih =>
      intro current
      rw [foldl_cons, ih, putValue_noPositions]
  exact run strings (m.clearPack pack)

/-! ## Range queries -/

theorem allSet_iff (start : Nat) :
    m.allSet pack v start = true ↔
      ∀ i c, v[i]? = some c → m.isSet pack c (start + i) = true := by
  induction v generalizing start with
  | nil => simp [allSet]
  | cons c rest ih =>
    rw [allSet, Bool.and_eq_true, ih (start + 1)]
    constructor
    · rintro ⟨first, others⟩ i d at'
      cases i with
      | zero =>
        rw [getElem?_cons_zero, some.injEq] at at'
        rw [← at']
        exact first
      | succ i =>
        have := others i d at'
        rwa [add_right_comm] at this
    · intro all
      refine ⟨all 0 c rfl, ?_⟩
      intro i d at'
      have := all (i + 1) d (by rw [getElem?_cons_succ]; exact at')
      rwa [← add_assoc, add_right_comm] at this

theorem isAnySet_iff (first last : Byte) (pos : Nat) :
    m.isAnySet pack first last pos = true ↔
      ∃ c, first ≤ c ∧ c ≤ last ∧ m.isSet pack c pos = true := by
  rw [isAnySet, anyBetween_iff]
  constructor
  · rintro ⟨k, lower, upper, isSet⟩
    have small : k.toNat % 256 = k.toNat := Nat.mod_eq_of_lt (by omega)
    refine ⟨Fin.ofNat 256 k.toNat, ?_, ?_, isSet⟩
    · rw [Fin.le_def, Fin.val_ofNat]
      omega
    · rw [Fin.le_def, Fin.val_ofNat]
      omega
  · rintro ⟨c, lower, upper, isSet⟩
    refine ⟨c.val, by exact_mod_cast lower, by exact_mod_cast upper, ?_⟩
    simpa using isSet

end

/-- `s` lies between the bounds; an absent bound does not restrict. -/
def Between (minV maxV : Option Bytes) (s : Bytes) : Prop :=
  (∀ lo ∈ minV, lo ≤ s) ∧ ∀ hi ∈ maxV, s ≤ hi

variable {c : Byte} {rest : Bytes}

theorem first_le {minV : Option Bytes} (lower : ∀ lo ∈ minV, lo ≤ c :: rest) :
    (minV.getD []).head?.getD 0 ≤ c := by
  cases minV with
  | none => exact Fin.zero_le c
  | some lo =>
    cases lo with
    | nil => exact Fin.zero_le c
    | cons a lo => exact Bytes.head_le (lower _ rfl)

theorem le_last {maxV : Option Bytes} (upper : ∀ hi ∈ maxV, c :: rest ≤ hi) :
    c ≤ (maxV.getD []).head?.getD 255 := by
  cases maxV with
  | none => exact Fin.le_last c
  | some hi =>
    cases hi with
    | nil => exact Fin.le_last c
    | cons a hi => exact Bytes.head_le (upper _ rfl)

/-- The empty string is in the pack and in the range, the range is not a single string,
and no other string of the pack starts in the scanned range of characters. -/
def EmptyMissed (strings : List Bytes) (minV maxV : Option Bytes) : Prop :=
  [] ∈ strings ∧ minV.getD [] = [] ∧ ¬(minV.isSome ∧ minV = maxV) ∧
    ∀ c rest, c :: rest ∈ strings → (maxV.getD []).head?.getD 255 < c

def PointSeen (noPositions : Nat) (strings : List Bytes) (v : Bytes) : Prop :=
  ∀ i c, i < noPositions → v[i]? = some c → ∃ s ∈ strings, s[i]? = some c

theorem isValue_point (m : CMap) (pack : Int) (strings : List Bytes) (v : Bytes) :
    (m.fill pack strings).isValue (some v) (some v) pack = .some ∧
        PointSeen m.noPositions strings v ∨
      (m.fill pack strings).isValue (some v) (some v) pack = .none ∧
        ¬PointSeen m.noPositions strings v := by
  have seen : (m.fill pack strings).allSet pack (v.take m.noPositions) 0 = true ↔
      PointSeen m.noPositions strings v := by
    rw [allSet_iff]
    constructor
    · intro all i c inMap at'
      have isSet := all i c (by rw [getElem?_take_of_lt inMap]; exact at')
      rw [isSet_fill, zero_add] at isSet
      exact isSet.2
    · intro point i c at'
      have inMap : i < m.noPositions := by
        by_contra beyond
        rw [getElem?_take_eq_none (not_lt.mp beyond)] at at'
        cases at'
      rw [getElem?_take_of_lt inMap] at at'
      rw [isSet_fill, zero_add]
      exact ⟨inMap, point i c inMap at'⟩
  rw [isValue, if_pos (by simp), fill_noPositions]
  by_cases point : PointSeen m.noPositions strings v
  · exact .inl ⟨if_pos (seen.mpr point), point⟩
  · exact .inr ⟨if_neg (mt seen.mp point), point⟩

theorem isValue_point_sound (m : CMap) (pack : Int) (strings : List Bytes) (v : Bytes) :
    ((m.fill pack strings).isValue (some v) (some v) pack).Sound {s | s ∈ strings}
      (Between (some v) (some v)) := by
  rcases isValue_point m pack strings v with ⟨isSome, _⟩ | ⟨isNone, notSeen⟩
  · rw [isSome]
    exact RoughAnswer.sound_some
  · rw [isNone, RoughAnswer.sound_none_iff]
    rintro s mem ⟨lower, upper⟩
    have same : s = v := le_antisymm (upper v rfl) (lower v rfl)
    exact notSeen fun i c _ at' => ⟨s, mem, by rw [same]; exact at'⟩

def FirstSeen (strings : List Bytes) (minV maxV : Option Bytes) : Prop :=
  ∃ c rest, c :: rest ∈ strings ∧ (minV.getD []).head?.getD 0 ≤ c ∧
    c ≤ (maxV.getD []).head?.getD 255

theorem isValue_range (m : CMap) (pack : Int) (strings : List Bytes) (minV maxV : Option Bytes)
    (range : ¬(minV.isSome ∧ minV = maxV)) :
    (m.fill pack strings).isValue minV maxV pack = .some ∧ FirstSeen strings minV maxV ∨
      (m.fill pack strings).isValue minV maxV pack = .none ∧ ¬FirstSeen strings minV maxV := by
  have seen : (m.fill pack strings).isAnySet pack ((minV.getD []).head?.getD 0)
      ((maxV.getD []).head?.getD 255) 0 = true ↔ FirstSeen strings minV maxV := by
    rw [isAnySet_iff]
    constructor
    · rintro ⟨c, lower, upper, isSet⟩
      obtain ⟨_, s, mem, first⟩ := (isSet_fill _ _ _ _ _).mp isSet
      cases s with
      | nil => cases first
      | cons d rest =>
        rw [getElem?_cons_zero, some.injEq] at first
        exact ⟨d, rest, mem, first ▸ lower, first ▸ upper⟩
    · rintro ⟨c, rest, mem, lower, upper⟩
      exact ⟨c, lower, upper, (isSet_fill _ _ _ _ _).mpr ⟨m.positions_pos, _, mem, rfl⟩⟩
  rw [isValue, if_neg (by simpa using range)]
  by_cases first : FirstSeen strings minV maxV
  · have inOrder : ¬(minV.getD []).head?.getD 0 > (maxV.getD []).head?.getD 255 := by
      obtain ⟨c, _, _, lower, upper⟩ := first
      exact not_lt.mpr (le_trans lower upper)
    left
    simp [seen.mpr first, inOrder, first]
  · right
    have notSet := mt seen.mp first
    simp [notSet, first]

/-- The strings of the pack have the characters that a query looks for. -/
def Marked (noPositions : Nat) (strings : List Bytes) (minV maxV : Option Bytes) : Prop :=
  (∃ v, minV = some v ∧ maxV = some v ∧ PointSeen noPositions strings v) ∨
    ¬(minV.isSome ∧ minV = maxV) ∧ FirstSeen strings minV maxV

section
variable (m : CMap) (pack : Int)
include m pack

variable (strings : List Bytes)

theorem isValue_fill (minV maxV : Option Bytes) :
    (m.fill pack strings).isValue minV maxV pack = .some ∧
        Marked m.noPositions strings minV maxV ∨
      (m.fill pack strings).isValue minV maxV pack = .none ∧
        ¬Marked m.noPositions strings minV maxV := by
  by_cases point : minV.isSome ∧ minV = maxV
  · obtain ⟨isSome, rfl⟩ := point
    obtain ⟨v, rfl⟩ := isSome_iff_exists.mp isSome
    have marked : Marked m.noPositions strings (some v) (some v) ↔
        PointSeen m.noPositions strings v := by
      simp [Marked]
    rw [marked]
    exact isValue_point m pack strings v
  · have marked : Marked m.noPositions strings minV maxV ↔ FirstSeen strings minV maxV := by
      constructor
      · rintro (⟨v, rfl, rfl, _⟩ | ⟨_, seen⟩)
        · exact absurd ⟨rfl, rfl⟩ point
        · exact seen
      · intro seen
        exact .inr ⟨point, seen⟩
    rw [marked]
    exact isValue_range m pack strings minV maxV point

/-- A query for a range of strings is answered soundly unless it misses the empty string. -/
theorem isValue_range_sound_iff (minV maxV : Option Bytes) (range : ¬(minV.isSome ∧ minV = maxV)) :
    ((m.fill pack strings).isValue minV maxV pack).Sound {s | s ∈ strings} (Between minV maxV) ↔
      ¬EmptyMissed strings minV maxV := by
  rcases isValue_range m pack strings minV maxV range with ⟨isSome, first⟩ | ⟨isNone, notFirst⟩
  · rw [isSome]
    refine iff_of_true RoughAnswer.sound_some ?_
    rintro ⟨_, _, _, above⟩
    obtain ⟨c, rest, mem, _, upper⟩ := first
    exact absurd upper (not_le.mpr (above c rest mem))
  · rw [isNone, RoughAnswer.sound_none_iff]
    constructor
    · rintro noString ⟨mem, lowEmpty, _, _⟩
      refine noString [] mem ⟨?_, fun hi _ => Bytes.nil_le hi⟩
      rintro lo rfl
      exact le_of_eq lowEmpty
    · intro notMissed s mem between
      cases s with
      | nil =>
        have lowEmpty : minV.getD [] = [] := by
          cases minV with
          | none => rfl
          | some lo => exact Bytes.eq_nil_of_le_nil (between.1 lo rfl)
        refine notMissed ⟨mem, lowEmpty, range, ?_⟩
        intro c rest inPack
        refine not_le.mp fun upper => notFirst ⟨c, rest, inPack, ?_, upper⟩
        rw [lowEmpty]
        exact Fin.zero_le c
      | cons c rest =>
        exact notFirst ⟨c, rest, mem, first_le between.1, le_last between.2⟩

/-! ## Patterns -/

theorem isLikeFrom_ne_all (esc : Byte) (pattern : Bytes) (pos : Nat) :
    m.isLikeFrom pack esc pattern pos ≠ .all := by
  induction pattern generalizing pos with
  | nil => simp [isLikeFrom]
  | cons c rest ih =>
    rw [isLikeFrom]
    split
    · simp
    · split
      · simp
      · split
        · simp
        · exact ih (pos + 1)

theorem isLikeFrom_sound (esc : Byte) (strings : List Bytes) {whole : Bytes}
    (mem : whole ∈ strings) (pattern : Bytes) : ∀ (s : Bytes) (pos : Nat),
    whole.drop pos = s → Like pattern esc s →
    (m.fill pack strings).isLikeFrom pack esc pattern pos ≠ .none := by
  induction pattern with
  | nil =>
    intro s pos _ _
    simp [isLikeFrom]
  | cons c rest ih =>
    intro s pos dropEq like
    rw [isLikeFrom, fill_noPositions]
    split
    · simp
    · rename_i inMap
      split
      · simp
      · rename_i plain
        rw [not_or] at plain
        rw [Like, tokens_cons plain.2, plainToken, if_neg plain.1] at like
        by_cases wild : c = underscore
        · rw [if_neg (by simp [wild])]
          rw [if_pos wild] at like
          cases like with
          | one matched =>
            refine ih _ (pos + 1) ?_ matched
            rw [← tail_drop, dropEq, tail_cons]
        · rw [if_neg wild] at like
          cases like with
          | lit matched =>
            have at' : whole[pos]? = some c := by
              rw [← head?_drop, dropEq, head?_cons]
            have isSet := (isSet_fill m pack strings c pos).mpr
              ⟨not_le.mp inMap, whole, mem, at'⟩
            rw [if_neg (by simp [isSet])]
            refine ih _ (pos + 1) ?_ matched
            rw [← tail_drop, dropEq, tail_cons]

theorem isLike_sound (pattern : Bytes) (esc : Byte)
    (isNone : (m.fill pack strings).isLike pattern pack esc = .none) :
    ∀ s ∈ strings, ¬Like pattern esc s := by
  intro s mem like
  exact isLikeFrom_sound m pack esc strings mem pattern s 0 (drop_zero) like isNone

end

end CMap

/-- A filled pack answers every pattern query soundly, and it answers a range query
soundly exactly if the query does not miss the empty string. -/
theorem cmap_sound_iff (m : CMap) (pack : Int) (strings : List Bytes) (minV maxV : Option Bytes)
    (pattern : Bytes) (esc : Byte) :
    (((m.fill pack strings).isValue minV maxV pack).Sound {s | s ∈ strings}
        (CMap.Between minV maxV) ∧
      ((m.fill pack strings).isLike pattern pack esc = .none →
        ∀ s ∈ strings, ¬Like pattern esc s)) ↔
      ¬CMap.EmptyMissed strings minV maxV := by
  rw [and_iff_left (CMap.isLike_sound m pack strings pattern esc)]
  by_cases point : minV.isSome ∧ minV = maxV
  · obtain ⟨isSome, rfl⟩ := point
    obtain ⟨v, rfl⟩ := isSome_iff_exists.mp isSome
    refine iff_of_true (CMap.isValue_point_sound m pack strings v) ?_
    rintro ⟨_, _, range, _⟩
    exact range ⟨rfl, rfl⟩
  · exact CMap.isValue_range_sound_iff m pack strings minV maxV point

/-- A pack that only holds the empty string denies having a string up to `"a"`. -/
theorem isValue_denies_empty :
    ((⟨64, by decide, fun _ => cleared⟩ : CMap).fill 0 [[]]).isValue none (some [97]) 0 = .none ∧
      CMap.Between none (some [97]) [] := by
  constructor
  · decide
  · exact ⟨fun _ absent => (not_mem_none _ absent).elim, fun hi _ => Bytes.nil_le hi⟩

end Brighthouse.Core
