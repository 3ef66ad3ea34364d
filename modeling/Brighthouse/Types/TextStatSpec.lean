import Brighthouse.Library.BitFields
import Brighthouse.Types.TextStat

/-!
# What the text statistics hold

A string puts one symbol on each of its positions and the symbol zero on its end.  The
code of a symbol is its rank among the symbols of the position, and a string is encoded
as the sequence of its ranks.
-/

set_option autoImplicit false

namespace Brighthouse.Types.TextStat

open Library Library.BitFields Compress List Option Nat

/-! ## Symbols -/

def symbolAt (s : Bytes) (i : Nat) : Option Nat :=
  match s[i]? with
  | some c => some c.val
  | none => if i = s.length ∧ i < maxPositions then some 0 else none

def Occurs (strings : List Bytes) (i c : Nat) : Prop := ∃ s ∈ strings, symbolAt s i = some c

instance (strings : List Bytes) (i c : Nat) : Decidable (Occurs strings i c) :=
  inferInstanceAs (Decidable (∃ s ∈ strings, _))

variable {s : Bytes} {i c p d n count : Nat} {found' : CharTable} {t t' : TextStat}

theorem symbolAt_byte {c : Byte} (here : s[i]? = some c) : symbolAt s i = some c.val := by
  rw [symbolAt, here]

theorem symbolAt_end (room : s.length < maxPositions) : symbolAt s s.length = some 0 := by
  rw [symbolAt, getElem?_eq_none_iff.mpr (le_refl _)]
  exact if_pos ⟨rfl, room⟩

/-! ## Collected strings -/

theorem CharTable.set_apply (table : CharTable) (pos i value p j : Nat) :
    table.set pos i value p j = if p = pos ∧ j = i then value else table p j := rfl

theorem addChars_spec {found : CharTable} (run : addChars found i s = some found') :
    0 ∉ s ∧ ∀ p c, found' p c =
      if i ≤ p ∧ (s[p - i]?).map Fin.val = some c then 1 else found p c := by
  induction s generalizing found i with
  | nil =>
    cases run
    simp
  | cons b rest ih =>
    rw [addChars] at run
    split at run
    · cases run
    · next nonZero =>
        obtain ⟨clean, holds⟩ := ih run
        refine ⟨by simp [Ne.symm nonZero, clean], fun p c => ?_⟩
        rw [holds, CharTable.set_apply]
        rcases lt_trichotomy p i with less | rfl | more
        · rw [if_neg (by omega), if_neg (by omega), if_neg (by omega)]
        · simp [eq_comm]
        · obtain ⟨k, rfl⟩ := Nat.exists_eq_add_of_lt more
          have shifted : i + k + 1 - i = k + 1 := by omega
          have tail : i + k + 1 - (i + 1) = k := by omega
          rw [shifted, tail, getElem?_cons_succ]
          simp only [show i + 1 ≤ i + k + 1 by omega, show i ≤ i + k + 1 by omega]
          rw [if_neg (show ¬(i + k + 1 = i ∧ c = b.val) by omega)]

/-- What is known about the statistics after the strings were added. -/
structure Collected (strings : List Bytes) (t : TextStat) : Prop where
  found : ∀ i c, t.charsFound i c = if Occurs strings i c then 1 else 0
  clean : ∀ s ∈ strings, 0 ∉ s
  short : ∀ s ∈ strings, s.length ≤ maxPositions
  size : ∀ s ∈ strings, s.length ≤ t.maxStringSize
  reached : t.maxStringSize ≠ 0 → ∃ s ∈ strings, s.length = t.maxStringSize
  codes : t.encodeTable = fun _ _ => illegal
  widths : t.lenTable = fun _ => 0
  fresh : t.charsFoundForDecoding = false

theorem collected_new : Collected [] new where
  found := fun i c => by simp [new, Occurs]
  clean := by simp
  short := by simp
  size := by simp
  reached := fun nonzero => absurd rfl nonzero
  codes := rfl
  widths := rfl
  fresh := rfl

theorem map_val_eq_some_iff :
    (s[i]?).map Fin.val = some c ↔ i < s.length ∧ symbolAt s i = some c := by
  unfold symbolAt
  cases here : s[i]? with
  | none => simp [getElem?_eq_none_iff.mp here]
  | some b => simp [(List.getElem?_eq_some_iff.mp here).1]

theorem length_of_symbolAt (here : symbolAt s i = some c) (past : s.length ≤ i) :
    i = s.length ∧ i < maxPositions ∧ c = 0 := by
  rw [symbolAt, getElem?_eq_none_iff.mpr past] at here
  dsimp only at here
  split at here
  · next atEnd =>
      cases here
      exact ⟨atEnd.1, atEnd.2, rfl⟩
  · cases here

theorem addString_found {found : CharTable} (run : addChars found 0 s = some found') (i c : Nat) :
    (if s.length < maxPositions then found'.set s.length 0 1 else found') i c =
      if symbolAt s i = some c then 1 else found i c := by
  have holds := (addChars_spec run).2 i c
  simp only [zero_le, Nat.sub_zero, true_and, map_val_eq_some_iff] at holds
  split
  · next room =>
      rw [CharTable.set_apply, holds]
      by_cases inside : i < s.length
      · rw [if_neg (by omega)]
        simp [inside]
      · simp only [inside, false_and, if_false]
        by_cases atEnd : i = s.length ∧ c = 0
        · rw [if_pos atEnd, atEnd.1, atEnd.2, symbolAt_end room, if_pos rfl]
        · rw [if_neg atEnd, if_neg]
          intro here
          obtain ⟨atLength, _, isZero⟩ := length_of_symbolAt here (not_lt.mp inside)
          exact atEnd ⟨atLength, isZero⟩
  · next full =>
      rw [holds]
      by_cases inside : i < s.length
      · simp [inside]
      · simp only [inside, false_and, if_false]
        rw [if_neg]
        intro here
        obtain ⟨atLength, room, _⟩ := length_of_symbolAt here (not_lt.mp inside)
        omega

variable {strings : List Bytes}

theorem occurs_append_singleton :
    Occurs (strings ++ [s]) i c ↔ Occurs strings i c ∨ symbolAt s i = some c := by
  simp [Occurs]

theorem Collected.addString (collected : Collected strings t)
    (run : t.addString s = some t') : Collected (strings ++ [s]) t' := by
  rw [TextStat.addString] at run
  split at run
  · cases run
  · next short =>
      obtain ⟨found, chars, result⟩ := bind_eq_some_iff.mp run
      cases result
      have forAll {P : Bytes → Prop} (old : ∀ u ∈ strings, P u) (added : P s) :
          ∀ u ∈ strings ++ [s], P u := by
        intro u mem
        rcases mem_append.mp mem with inside | last
        · exact old u inside
        · rwa [mem_singleton.mp last]
      exact {
        found := fun i c => by
          dsimp only
          rw [addString_found chars, collected.found]
          simp only [occurs_append_singleton]
          by_cases here : symbolAt s i = some c <;> simp [here]
        clean := forAll collected.clean (addChars_spec chars).1
        short := forAll collected.short (not_lt.mp short)
        size := forAll (fun u mem => (collected.size u mem).trans (le_max_left _ _))
          (le_max_right _ _)
        reached := fun nonzero => by
          rcases le_total t.maxStringSize s.length with longer | shorter
          · exact ⟨s, by simp, (max_eq_right longer).symm⟩
          · rw [max_eq_left shorter] at nonzero ⊢
            obtain ⟨u, mem, length⟩ := collected.reached nonzero
            exact ⟨u, mem_append_left _ mem, length⟩
        codes := collected.codes
        widths := collected.widths
        fresh := collected.fresh }

theorem Collected.addStrings {done : List Bytes} (strings : List Bytes)
    (collected : Collected done t) (run : t.addStrings strings = some t') :
    Collected (done ++ strings) t' := by
  induction strings generalizing done t with
  | nil =>
    cases run
    rwa [append_nil]
  | cons s strings ih =>
    obtain ⟨next, added, rest⟩ := bind_eq_some_iff.mp run
    have whole := ih (collected.addString added) rest
    rwa [append_assoc] at whole

/-! ## Ranks -/

section
variable (found : CharTable)

def rank (p c : Nat) : Nat := Nat.count (fun x => found p x = 1) c

def symbolCount (p : Nat) : Nat := rank found p 256

def width (p : Nat) : Nat := fieldWidth (symbolCount found p)

end

theorem rank_zero (found : CharTable) (p : Nat) : rank found p 0 = 0 := count_zero _

variable {found : CharTable}

theorem rank_lt_rank (here : found p c = 1) (lt : c < d) :
    rank found p c < rank found p d := count_strict_mono here lt

theorem lt_two_pow_fieldWidth (small : n < count) : n < 2 ^ fieldWidth count := by
  unfold fieldWidth
  split
  · exact (le_sub_one_of_lt small).trans_lt (lt_two_pow_getBitLen _)
  · omega

/-! ## The tables -/

theorem assignCodes_succ (found codes : Nat → Nat) (k m : Nat) :
    assignCodes found (range' k (m + 1)) codes (Nat.count (fun x => found x = 1) k) =
      if found k = 1 ∧ Nat.count (fun x => found x = 1) k = illegal then none
      else assignCodes found (range' (k + 1) m)
        (fun c => if c = k ∧ found k = 1 then Nat.count (fun x => found x = 1) k else codes c)
        (Nat.count (fun x => found x = 1) (k + 1)) := by
  rw [range'_succ, assignCodes, count_succ]
  by_cases here : found k = 1 <;> simp [here]

theorem assignCodes_spec {found codes' : Nat → Nat} :
    ∀ m k codes,
      assignCodes found (range' k m) codes (Nat.count (fun x => found x = 1) k) =
        some (codes', count) →
      Nat.count (fun x => found x = 1) k ≤ illegal →
      count = Nat.count (fun x => found x = 1) (k + m) ∧ count ≤ illegal ∧
        ∀ c, codes' c = if k ≤ c ∧ c < k + m ∧ found c = 1 then
          Nat.count (fun x => found x = 1) c else codes c := by
  intro m
  induction m with
  | zero =>
    intro k codes run few
    cases run
    exact ⟨rfl, few, fun c => (if_neg (by omega)).symm⟩
  | succ m ih =>
    intro k codes run few
    rw [assignCodes_succ] at run
    split at run
    · cases run
    · have next := count_succ (fun x => found x = 1) k
      obtain ⟨total, few', assigned⟩ := ih (k + 1) _ run (by split at next <;> omega)
      refine ⟨by rw [total]; congr 1; omega, few', fun c => ?_⟩
      rw [assigned]
      by_cases here : c = k ∧ found k = 1
      · obtain ⟨rfl, isFound⟩ := here
        rw [if_neg (by omega), if_pos ⟨rfl, isFound⟩, if_pos ⟨le_refl _, by omega, isFound⟩]
      · have past : k ≤ c → found c = 1 → k < c := fun low isFound =>
          lt_of_le_of_ne low fun same => here ⟨same.symm, same ▸ isFound⟩
        rw [if_neg here]
        exact if_congr (by omega) rfl rfl

def SameInput (t t' : TextStat) : Prop :=
  t'.maxStringSize = t.maxStringSize ∧ t'.charsFoundForDecoding = t.charsFoundForDecoding

/-- The tables after the first `n` positions were given their codes. -/
structure Encoded (found : CharTable) (n : Nat) (t : TextStat) : Prop where
  table : t.charsFound = found
  codes : ∀ p c, t.encodeTable p c =
    if p < n ∧ c < 256 ∧ found p c = 1 then rank found p c else illegal
  widths : ∀ p, t.lenTable p = if p < n then width found p else 0
  few : ∀ p < n, symbolCount found p ≤ illegal
  total : totalWidth (width found) n ≤ 63
  maxCode : t.maxCode = pack (width found) (fun p => symbolCount found p - 1) n

theorem encoded_start (collected : Collected strings t) :
    Encoded t.charsFound 0 { t with maxCode := 0 } where
  table := rfl
  codes := fun p c => by simp [collected.codes]
  widths := fun p => by simp [collected.widths]
  few := fun p small => absurd small (not_lt_zero p)
  total := zero_le _
  maxCode := rfl

theorem symbolCount_pos (small : c < 256) (here : found p c = 1) :
    rank found p c < symbolCount found p := rank_lt_rank here small

theorem Encoded.step {total : Nat} (encoded : Encoded found n t)
    (run : t.encodePosition n (totalWidth (width found) n) = some (t', total)) :
    Encoded found (n + 1) t' ∧ total = totalWidth (width found) (n + 1) ∧ SameInput t t' := by
  obtain ⟨⟨codes, count⟩, assigned, result⟩ := bind_eq_some_iff.mp run
  rw [range_eq_range', encoded.table] at assigned
  obtain ⟨isCount, few, isCode⟩ := assignCodes_spec 256 0 _ assigned (Nat.zero_le _)
  have counted : count = symbolCount found n := by rw [isCount]; rfl
  dsimp only at result
  subst counted
  split at result
  · cases result
  · next fits =>
      cases result
      refine ⟨?_, rfl, rfl, rfl⟩
      exact {
        table := encoded.table
        codes := fun p c => by
          dsimp only
          by_cases here : p = n
          · subst here
            rw [if_pos rfl, isCode, encoded.codes, if_neg (by omega : ¬(p < p ∧ _))]
            exact if_congr (by omega) rfl rfl
          · rw [if_neg here, encoded.codes]
            exact if_congr (by omega) rfl rfl
        widths := fun p => by
          dsimp only
          by_cases here : p = n
          · rw [if_pos here, here, if_pos (lt_succ_self n)]
            rfl
          · rw [if_neg here, encoded.widths]
            exact if_congr (by omega) rfl rfl
        few := fun p small => by
          rcases Nat.lt_succ_iff_lt_or_eq.mp small with lt | rfl
          · exact encoded.few p lt
          · exact few
        total := not_lt.mp fits
        maxCode := by
          rw [pack, ← encoded.maxCode]
          by_cases many : 1 < symbolCount found n
          · rw [if_pos many]
            rfl
          · have none : symbolCount found n - 1 = 0 := by omega
            rw [none, width, fieldWidth, if_neg many]
            simp }

theorem Encoded.run (left : Nat) :
    ∀ {n : Nat} {t : TextStat}, Encoded found n t →
      encodePositions left n (totalWidth (width found) n) t = some t' →
      Encoded found (n + left) t' ∧ SameInput t t' := by
  induction left with
  | zero =>
    intro n t encoded run
    cases run
    exact ⟨encoded, rfl, rfl⟩
  | succ left ih =>
    intro n t encoded run
    obtain ⟨⟨next, total⟩, step, rest⟩ := bind_eq_some_iff.mp run
    obtain ⟨encodedNext, rfl, size, fresh⟩ := encoded.step step
    obtain ⟨encodedLast, sameSize, sameFresh⟩ := ih encodedNext rest
    rw [add_assoc, add_comm 1] at encodedLast
    exact ⟨encodedLast, sameSize.trans size, sameFresh.trans fresh⟩

/-- An encoding made for a list of strings. -/
structure EncodingOf (strings : List Bytes) (t : TextStat) : Prop where
  encoded : Encoded t.charsFound t.maxStringSize t
  found : ∀ i c, t.charsFound i c = if Occurs strings i c then 1 else 0
  clean : ∀ s ∈ strings, 0 ∉ s
  short : ∀ s ∈ strings, s.length ≤ maxPositions
  size : ∀ s ∈ strings, s.length ≤ t.maxStringSize
  reached : t.maxStringSize ≠ 0 → ∃ s ∈ strings, s.length = t.maxStringSize
  fresh : t.charsFoundForDecoding = false

theorem encodingOf_create (added : new.addStrings strings = some t)
    (created : t.createEncoding = some t') : EncodingOf strings t' := by
  have collected := collected_new.addStrings strings added
  rw [createEncoding, if_neg (by simp [collected.fresh])] at created
  obtain ⟨encoded, size, fresh⟩ := (encoded_start collected).run _ created
  rw [zero_add] at encoded
  have table := encoded.table
  exact {
    encoded := by rwa [table, size]
    found := by rw [table]; exact collected.found
    clean := collected.clean
    short := collected.short
    size := by rw [size]; exact collected.size
    reached := by rw [size]; exact collected.reached
    fresh := fresh.trans collected.fresh }

end Brighthouse.Types.TextStat
