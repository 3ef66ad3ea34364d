import Brighthouse.DomainInject.ConcatenatorSound
import Brighthouse.DomainInject.IPv4Decomposer

/-!
# When the decomposition of addresses is lossless

The zeros in front of a number are counted in a `uchar`, so an address is printed as it was if
it has no run of 256 zeros.  Where there are no outliers, its length is a `uchar` too.
-/

set_option autoImplicit false

namespace Brighthouse.DomainInject.IPv4Decomposer

open Library List Decimal
open Concatenator (Composition Stored stored_store Leads)

/-! ## Runs of zeros -/

def LongRun (s : Bytes) : Prop := List.replicate 256 zero <:+: s

variable {n row : Nat} {rest : Bytes} {rows : List Bytes} {blocks : List DataBlock}

theorem replicate_infix_append_cons {α : Type} {a c : α} (other : c ≠ a) {first second : List α}
    (inside : replicate n a <:+: first ++ c :: second) :
    replicate n a <:+: first ∨ replicate n a <:+: second := by
  have notRun : c ∉ replicate n a := fun mem => other (eq_of_mem_replicate mem)
  have start : ∀ run, run <+: c :: second → c ∉ run → run = [] := by
    intro run initial absent
    rcases prefix_cons_iff.mp initial with empty | ⟨run', rfl, _⟩
    · exact empty
    · exact absurd mem_cons_self absent
  rcases infix_append_iff.mp inside with inFirst | inRest | ⟨ending, initial, same, atEnd, atStart⟩
  · exact .inl inFirst
  · rcases infix_cons_iff.mp inRest with atStart | inSecond
    · exact .inl (start _ atStart notRun ▸ nil_infix)
    · exact .inr inSecond
  · rw [same] at notRun ⊢
    rw [start initial atStart fun mem => notRun (mem_append_right _ mem), append_nil]
    exact .inl atEnd.isInfix

variable {c : Byte}

theorem longRun_append_cons (other : c ≠ zero) {first second : Bytes} :
    LongRun (first ++ c :: second) ↔ LongRun first ∨ LongRun second := by
  constructor
  · exact replicate_infix_append_cons other
  · rintro (inFirst | inSecond)
    · exact inFirst.trans (prefix_append _ _).isInfix
    · exact inSecond.trans ((suffix_cons c second).trans (suffix_append _ _)).isInfix

theorem LongRun.length {s : Bytes} (run : LongRun s) : 256 ≤ s.length := by
  have length := run.length_le
  rwa [length_replicate] at length

theorem longRun_zeros : LongRun (replicate n zero) ↔ 256 ≤ n := by
  constructor
  · intro run
    simpa using run.length
  · intro long
    refine ⟨[], replicate (n - 256) zero, ?_⟩
    rw [nil_append, replicate_append_replicate, Nat.add_sub_cancel' long]

/-! ## Numbers -/

theorem ofNat_val (c : Byte) (same : n = c.val) : Fin.ofNat 256 n = c := by
  rw [same, Fin.ofNat_val_eq_self]

theorem numberText_of_le_nine (small : n ≤ 9) : numberText n = [digitChar (n % 10)] := by
  have digs : noDigits n = 1 := by
    rw [noDigits, if_neg (by omega), if_neg (by omega)]
  rw [numberText, digs]
  rfl

theorem numberText_of_le_ninetyNine (large : 9 < n) (small : n ≤ 99) :
    numberText n = [digitChar (n % 100 / 10), digitChar (n % 10)] := by
  have digs : noDigits n = 2 := by
    rw [noDigits, if_neg (by omega), if_pos large]
  rw [numberText, digs]
  rfl

theorem numberText_of_gt (large : 99 < n) :
    numberText n = [digitChar (n / 100), digitChar (n % 100 / 10), digitChar (n % 10)] := by
  have digs : noDigits n = 3 := if_pos large
  rw [numberText, digs]
  rfl

theorem numberText_value (digits : ∀ d ∈ c :: rest, IsDigit d) (first : c ≠ zero)
    (short : (c :: rest).length ≤ 3) : numberText (value (c :: rest)) = c :: rest := by
  have isDigit := digits c mem_cons_self
  have positive : 48 < c.val := by
    rcases lt_or_eq_of_le isDigit.1 with lt | eq
    · exact lt
    · exact absurd (Fin.ext eq.symm) first
  unfold IsDigit at digits isDigit
  match rest, short with
  | [], _ =>
    simp only [value, foldl_cons, foldl_nil, digit]
    rw [numberText_of_le_nine (by omega), digitChar, ofNat_val c (by omega)]
  | [d], _ =>
    have second := digits d (by simp)
    simp only [value, foldl_cons, foldl_nil, digit]
    rw [numberText_of_le_ninetyNine (by omega) (by omega), digitChar, digitChar,
      ofNat_val c (by omega), ofNat_val d (by omega)]
  | [d, e], _ =>
    have second := digits d (by simp)
    have third := digits e (by simp)
    simp only [value, foldl_cons, foldl_nil, digit]
    rw [numberText_of_gt (by omega), digitChar, digitChar, digitChar, ofNat_val c (by omega),
      ofNat_val d (by omega), ofNat_val e (by omega)]

/-! ## Parsing -/

inductive Parses : Part → Bytes → Prop
  | zeros (n : Nat) (counted : uchar n ≠ 0) :
      Parses ⟨0, uchar n - 1⟩ (List.replicate n zero)
  | number (n : Nat) (c : Byte) (rest : Bytes) (first : c ≠ zero)
      (digits : ∀ d ∈ c :: rest, IsDigit d) (short : (c :: rest).length ≤ 3) :
      Parses ⟨value (c :: rest), uchar n⟩ (List.replicate n zero ++ c :: rest)

theorem uchar_lt (n : Nat) : uchar n < 256 := Nat.mod_lt n (by decide)

theorem zeros_text (pos : n ≠ 0) : Part.text ⟨0, n - 1⟩ = replicate n zero := by
  obtain ⟨k, rfl⟩ := Nat.exists_eq_succ_of_ne_zero pos
  exact (replicate_succ' ..).symm

theorem number_text (first : c ≠ zero)
    (digits : ∀ d ∈ c :: rest, IsDigit d) (short : (c :: rest).length ≤ 3) :
    Part.text ⟨value (c :: rest), n⟩ =
      replicate n zero ++ c :: rest := by
  rw [Part.text, numberText_value digits first short]

section
variable {part : Part} {text : Bytes} (parses : Parses part text)
include parses

theorem Parses.text_eq (noRun : ¬LongRun text) : part.text = text := by
  cases parses with
  | zeros n counted =>
    rw [longRun_zeros, not_le] at noRun
    have same : uchar n = n := Nat.mod_eq_of_lt noRun
    rw [same] at counted ⊢
    exact zeros_text counted
  | number n c rest first digits short =>
    rw [longRun_append_cons first, longRun_zeros, not_or, not_le] at noRun
    have same : uchar n = n := Nat.mod_eq_of_lt noRun.1
    rw [same, number_text first digits short]

theorem Parses.no_run : ¬LongRun part.text := by
  cases parses with
  | zeros n counted =>
    rw [zeros_text counted, longRun_zeros, not_le]
    exact uchar_lt n
  | number n c rest first digits short =>
    rw [number_text first digits short, longRun_append_cons first, longRun_zeros]
    have small := uchar_lt n
    rintro (long | long)
    · omega
    · have length := long.length
      rw [length_cons] at short
      omega

theorem Parses.length_le : part.text.length ≤ 258 := by
  cases parses with
  | zeros n counted =>
    have small := uchar_lt n
    rw [zeros_text counted, length_replicate]
    omega
  | number n c rest first digits short =>
    have small := uchar_lt n
    rw [number_text first digits short, length_append, length_replicate]
    omega

end

theorem dropWhile_append_takeWhile_replicate (src : Bytes) :
    replicate (src.takeWhile (· == zero)).length zero ++
      src.dropWhile (· == zero) = src := by
  have zeros : src.takeWhile (· == zero) =
      replicate (src.takeWhile (· == zero)).length zero := by
    refine eq_replicate_iff.mpr ⟨rfl, fun c mem => ?_⟩
    simpa using mem_takeWhile_imp mem
  rw [← zeros]
  exact takeWhile_append_dropWhile

/-- The characters that are left of the string after one part. -/
def behindPart (last : Bool) (rest : Bytes) : Bytes := if last then [] else dot :: rest

theorem parsePart_parses {last : Bool} {src : Bytes} {part : Part}
    (parsed : parsePart last src = some (part, rest)) :
    ∃ text, src = text ++ behindPart last rest ∧ Parses part text := by
  unfold parsePart at parsed
  dsimp only at parsed
  generalize zerosEq : (src.takeWhile (· == zero)).length = zeros at parsed
  generalize afterEq : src.dropWhile (· == zero) = after at parsed
  generalize tmpEq : (after.takeWhile fun c => decide (IsDigit c)).take 3 = tmp at parsed
  have whole : src = replicate zeros zero ++ after := by
    rw [← zerosEq, ← afterEq, dropWhile_append_takeWhile_replicate]
  have tmpPrefix : tmp <+: after := by
    rw [← tmpEq]
    have taken := take_prefix 3 (after.takeWhile fun c => decide (IsDigit c))
    exact taken.trans <| takeWhile_prefix _
  have tmpShort : tmp.length ≤ 3 := by
    rw [← tmpEq]
    exact length_take_le 3 _
  have tmpDigits : ∀ d ∈ tmp, IsDigit d := by
    intro d mem
    rw [← tmpEq] at mem
    simpa using mem_takeWhile_imp (mem_of_mem_take mem)
  obtain ⟨behind, afterSplit⟩ := tmpPrefix
  have dropped : after.drop tmp.length = behind := by
    rw [← afterSplit, drop_left]
  -- the number, whatever follows it
  have number : ∀ {p : Part}, (if tmp = [] then if uchar zeros = 0 then none
        else some ⟨0, uchar zeros - 1⟩
      else if value tmp = 0 ∨ 255 < value tmp then none
      else some ⟨value tmp, uchar zeros⟩) = some p →
      Parses p (replicate zeros zero ++ tmp) := by
    intro p found
    cases tmp with
    | nil =>
      rw [if_pos rfl] at found
      split at found
      · cases found
      · rename_i counted
        cases found
        rw [append_nil]
        exact .zeros zeros counted
    | cons c more =>
      rw [if_neg (cons_ne_nil c more)] at found
      split at found
      · cases found
      · cases found
        refine .number zeros c more ?_ tmpDigits tmpShort
        rintro rfl
        rw [← afterSplit] at afterEq
        have notZero := head?_dropWhile_not (· == zero) src
        rw [afterEq] at notZero
        simp at notZero
  have textEq : replicate zeros zero ++ tmp ++ behind = src := by
    rw [append_assoc, afterSplit, whole]
  rw [dropped] at parsed
  cases last with
  | true =>
    cases behind with
    | nil =>
      obtain ⟨p, found, same⟩ := Option.map_eq_some_iff.mp parsed
      cases same
      exact ⟨_, textEq.symm, number found⟩
    | cons c more => cases parsed
  | false =>
    cases behind with
    | nil => cases parsed
    | cons c more =>
      by_cases isDot : c = dot
      · subst isDot
        obtain ⟨p, found, same⟩ := Option.map_eq_some_iff.mp parsed
        cases same
        exact ⟨_, textEq.symm, number found⟩
      · simp only [if_neg isDot] at parsed
        cases parsed

def addressText (parts : Fin 4 → Part) : Bytes :=
  (parts 0).text ++ dot :: ((parts 1).text ++ dot :: ((parts 2).text ++ dot :: (parts 3).text))

theorem parseIp_parses {s : Bytes} {parts : Fin 4 → Part} (parsed : parseIp s = some parts) :
    ∃ texts : Fin 4 → Bytes, (∀ i, Parses (parts i) (texts i)) ∧
      s = texts 0 ++ dot :: (texts 1 ++ dot :: (texts 2 ++ dot :: texts 3)) := by
  unfold parseIp at parsed
  simp only [Option.bind_eq_bind, Option.bind_eq_some_iff, Prod.exists, Option.some.injEq] at parsed
  obtain ⟨p₀, r₀, first, p₁, r₁, second, p₂, r₂, third, p₃, r₃, fourth, rfl⟩ := parsed
  obtain ⟨t₀, split₀, parses₀⟩ := parsePart_parses first
  obtain ⟨t₁, split₁, parses₁⟩ := parsePart_parses second
  obtain ⟨t₂, split₂, parses₂⟩ := parsePart_parses third
  obtain ⟨t₃, split₃, parses₃⟩ := parsePart_parses fourth
  refine ⟨![t₀, t₁, t₂, t₃], ?_, ?_⟩
  · intro i
    match i with
    | 0 => exact parses₀
    | 1 => exact parses₁
    | 2 => exact parses₂
    | 3 => exact parses₃
  · have last : behindPart true r₃ = [] := rfl
    rw [last, append_nil] at split₃
    subst split₃ split₂ split₁ split₀
    rfl

theorem dot_ne_zero : dot ≠ zero := by decide

section
variable {s : Bytes} {parts : Fin 4 → Part} (parsed : parseIp s = some parts)
include parsed

theorem addressText_eq (noRun : ¬LongRun s) : addressText parts = s := by
  obtain ⟨texts, parses, rfl⟩ := parseIp_parses parsed
  simp only [longRun_append_cons dot_ne_zero, not_or] at noRun
  rw [addressText, (parses 0).text_eq noRun.1, (parses 1).text_eq noRun.2.1,
    (parses 2).text_eq noRun.2.2.1, (parses 3).text_eq noRun.2.2.2]

theorem addressText_no_run : ¬LongRun (addressText parts) := by
  obtain ⟨texts, parses, _⟩ := parseIp_parses parsed
  simp only [addressText, longRun_append_cons dot_ne_zero, not_or]
  exact ⟨(parses 0).no_run, (parses 1).no_run, (parses 2).no_run, (parses 3).no_run⟩

theorem length_addressText : (addressText parts).length < 2 ^ 16 := by
  obtain ⟨texts, parses, _⟩ := parseIp_parses parsed
  have first := (parses 0).length_le
  have second := (parses 1).length_le
  have third := (parses 2).length_le
  have fourth := (parses 3).length_le
  simp only [addressText, length_append, length_cons]
  omega

end

/-- What is left of a string after `Decompose` and `Compose`. -/
def restored (s : Bytes) : Bytes := (parseIp s).elim s addressText

theorem restored_eq_iff (s : Bytes) : restored s = s ↔ ((parseIp s).isSome → ¬LongRun s) := by
  unfold restored
  cases parsed : parseIp s with
  | none => simp
  | some parts =>
    simp only [Option.isSome_some, forall_const]
    constructor
    · intro same
      rw [← same]
      exact addressText_no_run parsed
    · exact addressText_eq parsed

/-! ## The blocks -/

def isOutlier (s : Bytes) : Bool := (parseIp s).isNone

def outlierFlag (s : Bytes) : Nat := if isOutlier s then 1 else 0

def addressBlocks (parsed : List (Fin 4 → Part)) : List DataBlock :=
  (List.finRange 4).flatMap fun i =>
    [.uchar (parsed.map fun parts => (parts i).licz),
      .uchar (parsed.map fun parts => (parts i).lzer)]

structure Collected (d d' : Decomposition) (rows : List Bytes) : Prop where
  h : ∀ i, d'.h i = d.h i ++ (rows.filterMap parseIp).map fun parts => (parts i).licz
  hLzer : ∀ i, d'.hLzer i = d.hLzer i ++ (rows.filterMap parseIp).map fun parts => (parts i).lzer
  outliers : d'.outliers = d.outliers ++ rows.filter isOutlier
  outlMask : d'.outlMask = d.outlMask ++ rows.map outlierFlag
  outlCnt : d'.outlCnt = d.outlCnt + rows.countP isOutlier

theorem decomposeRows_collected (rows : List Bytes) :
    ∀ o d, Collected d (decomposeRows o rows d) rows := by
  induction rows with
  | nil =>
    intro o d
    refine ⟨fun i => ?_, fun i => ?_, ?_, ?_, ?_⟩ <;> simp [decomposeRows]
  | cons s rows ih =>
    intro o d
    have rest := ih (o + 1) (decomposeRow o s d)
    cases parsed : parseIp s with
    | none =>
      have outlier : isOutlier s = true := by rw [isOutlier, parsed]; rfl
      rw [decomposeRow, parsed] at rest
      refine ⟨fun i => ?_, fun i => ?_, ?_, ?_, ?_⟩ <;> rw [decomposeRows, decomposeRow, parsed]
      · rw [rest.h, filterMap_cons_none parsed]
      · rw [rest.hLzer, filterMap_cons_none parsed]
      · rw [rest.outliers, filter_cons_of_pos outlier, append_assoc]
        rfl
      · rw [rest.outlMask, map_cons, outlierFlag, if_pos outlier, append_assoc]
        rfl
      · rw [rest.outlCnt, countP_cons_of_pos outlier]
        exact add_right_comm _ _ _
    | some parts =>
      have plain : isOutlier s = false := by rw [isOutlier, parsed]; rfl
      rw [decomposeRow, parsed] at rest
      refine ⟨fun i => ?_, fun i => ?_, ?_, ?_, ?_⟩ <;> rw [decomposeRows, decomposeRow, parsed]
      · rw [rest.h, filterMap_cons_some parsed, append_assoc]
        rfl
      · rw [rest.hLzer, filterMap_cons_some parsed, append_assoc]
        rfl
      · rw [rest.outliers, filter_cons_of_neg (by rw [plain]; exact Bool.false_ne_true)]
      · rw [rest.outlMask, map_cons, outlierFlag, plain, append_assoc]
        rfl
      · rw [rest.outlCnt, countP_cons_of_neg (by rw [plain]; exact Bool.false_ne_true)]

theorem decompose_eq (input : StringDataBlock) (stats : CompressionStatistics) :
    (decompose input stats).1 =
      (if 0 < input.rows.countP isOutlier then
        [.uchar (input.rows.map outlierFlag), .string (input.rows.filter isOutlier)] else []) ++
      addressBlocks (input.rows.filterMap parseIp) := by
  obtain ⟨h, hLzer, outliers, outlMask, outlCnt⟩ :=
    decomposeRows_collected input.rows 0 ⟨fun _ => [], fun _ => [], [], [], 0, stats⟩
  simp only [decompose, h, hLzer, outliers, outlMask, outlCnt, zero_add]
  rfl

theorem readPart_addressBlocks {parsed : List (Fin 4 → Part)} {parts : Fin 4 → Part}
    (atRow : parsed[row]? = some parts) (i : Fin 4) :
    readPart (addressBlocks parsed) i row = some (parts i) := by
  have read : ∀ i : Fin 4, readPart (addressBlocks parsed) i row =
      ((parsed.map fun parts => (parts i).licz)[row]?).bind fun licz =>
        ((parsed.map fun parts => (parts i).lzer)[row]?).bind fun lzer => some ⟨licz, lzer⟩ := by
    intro i
    match i with
    | 0 | 1 | 2 | 3 => rfl
  rw [read, getElem?_map, getElem?_map, atRow]
  rfl

/-! ## Printing -/

theorem putText_append (modulus shift : Nat) (s t : Bytes) (state : Memory × Nat) :
    putText modulus shift (s ++ t) state =
      putText modulus shift t (putText modulus shift s state) := foldl_append

variable {modulus : Nat}

theorem putText_stored (shift : Nat) (s : Bytes) :
    ∀ (data : Memory) (len : Nat), len + s.length < modulus →
      ∃ data', putText modulus shift s (data, len) = (data', len + s.length) ∧
        Stored data data' (shift + len) s := by
  induction s with
  | nil =>
    intro data len _
    exact ⟨data, rfl, Stored.nil data _⟩
  | cons c s ih =>
    intro data len small
    rw [length_cons] at small
    obtain ⟨data', written, stored⟩ := ih (data.store (shift + len) [c]) (len + 1) (by omega)
    refine ⟨data', ?_, (stored_store data (shift + len) [c]).append stored⟩
    have step : putText modulus shift (c :: s) (data, len) =
        putText modulus shift s (data.store (shift + len) [c], (len + 1) % modulus) := rfl
    rw [step, Nat.mod_eq_of_lt (by omega), written, length_cons]
    congr 1
    omega

theorem putText_len_lt (pos : 0 < modulus) (shift : Nat) (s : Bytes) :
    ∀ state : Memory × Nat, state.2 < modulus → (putText modulus shift s state).2 < modulus := by
  induction s with
  | nil =>
    intro state small
    exact small
  | cons c s ih =>
    intro state _
    exact ih _ (Nat.mod_lt _ pos)

theorem composeRow_eq {parsed : List (Fin 4 → Part)} {parts : Fin 4 → Part}
    (atRow : parsed[row]? = some parts) (modulus shift : Nat) (state : Memory × Nat) :
    composeRow modulus (addressBlocks parsed) row shift (range 4) state =
      some (putText modulus shift (addressText parts) state) := by
  have part₀ := readPart_addressBlocks atRow 0
  have part₁ := readPart_addressBlocks atRow 1
  have part₂ := readPart_addressBlocks atRow 2
  have part₃ := readPart_addressBlocks atRow 3
  have range : range 4 = [0, 1, 2, 3] := rfl
  simp only [Fin.coe_ofNat_eq_mod] at part₀ part₁ part₂ part₃
  simp only [range, composeRow, part₀, part₁, part₂, part₃, ← putText_append, addressText]
  simp

/-! ## The loop over the strings -/

section
variable {p : Composition} {done : List Bytes} (holds : p.Holds done)
include holds

theorem addString_holds {data : Memory} {s : Bytes} (stored : Stored p.data data p.shift s)
    (small : p.shift + s.length < 2 ^ 32) : (addString p data s.length).Holds (done ++ [s]) := by
  have pushed := holds.push stored
  unfold addString
  rw [Nat.mod_eq_of_lt small]
  exact pushed

theorem composeOutlier_eq {outliers : List Bytes} {s : Bytes}
    (found : outliers[p.outlCnt]? = some s) (small : p.shift + s.length < 2 ^ 32) :
    Leads (composeOutlier outliers p) (done ++ [s]) (p.outlCnt + 1) p.parsedCnt := by
  have after := addString_holds holds (stored_store p.data p.shift s) small
  refine ⟨{ addString p (p.data.store p.shift s) s.length with outlCnt := p.outlCnt + 1 }, ?_,
    ⟨after.strings, after.inside, after.shift⟩, rfl, rfl⟩
  rw [composeOutlier, found]
  rfl

theorem putAddress_eq {text : Bytes} (fits : text.length < modulus)
    (small : p.shift + text.length < 2 ^ 32) :
    Leads (some { addString p (putText modulus p.shift text (p.data, 0)).1
      (putText modulus p.shift text (p.data, 0)).2 with parsedCnt := p.parsedCnt + 1 })
      (done ++ [text]) p.outlCnt (p.parsedCnt + 1) := by
  obtain ⟨data, written, stored⟩ :=
    putText_stored p.shift text p.data 0 (by omega : 0 + _ < modulus)
  rw [zero_add] at written
  have after := addString_holds holds stored small
  rw [written]
  exact ⟨_, rfl, ⟨after.strings, after.inside, after.shift⟩, rfl, rfl⟩

end

theorem sum_lengths_le (short : ∀ s ∈ rows, s.length < 2 ^ 16) :
    (rows.map length).sum ≤ rows.length * (2 ^ 16 - 1) := by
  have bound := sum_le_card_nsmul (rows.map length) (2 ^ 16 - 1) (by
    intro n mem
    obtain ⟨s, inside, rfl⟩ := mem_map.mp mem
    have := short s inside
    omega)
  simpa using bound

theorem room {all before : List Bytes} {s : Bytes} {p : Composition} (count : all.length ≤ 65536)
    {restored : Bytes → Bytes} (short : ∀ s ∈ all, (restored s).length < 2 ^ 16)
    (split : before ++ s :: rows = all) (holds : p.Holds (before.map restored)) :
    p.shift + (restored s).length < 2 ^ 32 := by
  have bound : ((before.map restored).map length).sum ≤
      (before.map restored).length * (2 ^ 16 - 1) := sum_lengths_le (by
    intro t inside
    obtain ⟨u, inBefore, rfl⟩ := mem_map.mp inside
    exact short u (split ▸ mem_append_left _ inBefore))
  have last := short s (split ▸ mem_append_right _ mem_cons_self)
  rw [← holds.shift, length_map] at bound
  rw [← split, length_append] at count
  omega

theorem composeRows_eq {all : List Bytes} (count : all.length ≤ 65536) (narrow : modulus ≤ 2 ^ 16)
    (fits : ∀ s ∈ all, (restored s).length < modulus) (data : Memory) :
    ∃ q, composeRows modulus (all.filter isOutlier) (addressBlocks (all.filterMap parseIp))
        (all.map outlierFlag) ⟨data, 0, [], 0, 0⟩ = some q ∧ q.Holds (all.map restored) := by
  have short : ∀ s ∈ all, (restored s).length < 2 ^ 16 := fun s mem =>
    (fits s mem).trans_le narrow
  have composed := @Concatenator.compose_loop _ parseIp restored all
    (composeRows modulus (all.filter isOutlier) (addressBlocks (all.filterMap parseIp)))
    (composeAddress modulus (addressBlocks (all.filterMap parseIp)))
    (composeOutlier (all.filter isOutlier)) (fun _ => rfl) (fun _ _ _ => rfl) ?_ ?_
    all [] ⟨data, 0, [], 0, 0⟩ rfl (Composition.holds_start data) rfl rfl
  · obtain ⟨q, done, holds, _⟩ := composed
    exact ⟨q, done, holds⟩
  · intro before s rows p split holds parsed atOutlier
    have small := room count short split holds
    have same : restored s = s := by rw [restored, parsed]; rfl
    rw [same] at small ⊢
    exact composeOutlier_eq holds atOutlier small
  · intro before s rows p parts split holds parsed atRow
    have small := room count short split holds
    have fitsRow := fits s (split ▸ mem_append_right _ mem_cons_self)
    have same : restored s = addressText parts := by rw [restored, parsed]; rfl
    rw [same] at small fitsRow ⊢
    rw [composeAddress, composeRow_eq atRow]
    exact putAddress_eq holds fitsRow small

theorem composeRows_short (pos : 0 < modulus) (n : Nat) :
    ∀ {p q : Composition}, (∀ place ∈ p.out, place.2 < modulus) →
      composeRows modulus [] blocks (replicate n 0) p = some q →
      ∀ place ∈ q.out, place.2 < modulus := by
  have row : ∀ (parts : List Nat) {row shift : Nat} {state after : Memory × Nat},
      state.2 < modulus → composeRow modulus blocks row shift parts state = some after →
      after.2 < modulus := by
    intro parts
    induction parts with
    | nil =>
      intro row shift state after small done
      cases done
      exact small
    | cons i parts ih =>
      intro row shift state after small done
      obtain ⟨part, _, rest⟩ := Option.bind_eq_some_iff.mp done
      exact ih (putText_len_lt pos shift _ state small) rest
  induction n with
  | zero =>
    intro p q short done
    cases done
    exact short
  | succ n ih =>
    intro p q short done
    obtain ⟨middle, turn, rest⟩ := Option.bind_eq_some_iff.mp done
    refine ih ?_ rest
    obtain ⟨state, written, same⟩ := Option.bind_eq_some_iff.mp turn
    cases same
    intro place mem
    rcases mem_append.mp mem with before | last
    · exact short place before
    · rw [mem_singleton.mp last]
      exact row _ pos written

/-! ## Both branches -/

section
variable {input : StringDataBlock} (stats : CompressionStatistics) (data : Memory) (outliers : Nat)

theorem length_addressBlocks (parsed : List (Fin 4 → Part)) :
    (addressBlocks parsed).length = 8 := rfl

theorem compose_ten (mask : List Nat) (rows : List Bytes) (eight : blocks.length = 8) :
    compose (.uchar mask :: .string rows :: blocks) data outliers =
      (composeRows (2 ^ 16) rows blocks mask ⟨data, 0, [], 0, 0⟩).map fun p =>
        (p.strings, p.outlCnt) := by
  have ten : (DataBlock.uchar mask :: .string rows :: blocks).length = 10 := by
    rw [length_cons, length_cons, eight]
  unfold compose
  rw [if_neg (by omega), if_neg (by omega), Option.map_eq_bind]
  rfl

theorem compose_with_outliers (count : input.rows.length ≤ 65536)
    (some : 0 < input.rows.countP isOutlier) :
    ∃ n, compose (decompose input stats).1 data outliers =
      .some (input.rows.map restored, n) := by
  have fits : ∀ s ∈ input.rows, (restored s).length < 2 ^ 16 := by
    intro s mem
    unfold restored
    cases parsed : parseIp s with
    | none => exact input.short s mem
    | some parts => exact length_addressText parsed
  obtain ⟨q, done, holds⟩ := composeRows_eq count (le_refl _) fits data
  refine ⟨q.outlCnt, ?_⟩
  rw [decompose_eq, if_pos some, cons_append, cons_append, nil_append,
    compose_ten data outliers _ _ (length_addressBlocks _), done, ← holds.strings]
  rfl

theorem compose_without_outliers (none : ¬0 < input.rows.countP isOutlier) :
    compose (decompose input stats).1 data outliers =
      (composeRows (2 ^ 8) [] (addressBlocks (input.rows.filterMap parseIp))
        (replicate (input.rows.filterMap parseIp).length 0) ⟨data, 0, [], 0, 0⟩).map
          fun p => (p.strings, 0) := by
  have first : (addressBlocks (input.rows.filterMap parseIp))[0]? =
      some (.uchar ((input.rows.filterMap parseIp).map fun parts => (parts 0).licz)) := rfl
  have eight := length_addressBlocks (input.rows.filterMap parseIp)
  rw [decompose_eq, if_neg none, nil_append]
  unfold compose
  rw [if_neg (by omega), if_pos eight, first, Option.map_eq_bind,
    ← length_map fun parts : Fin 4 → Part => (parts 0).licz]
  rfl

theorem compose_short (none : ¬0 < input.rows.countP isOutlier) {n : Nat}
    (composed : compose (decompose input stats).1 data outliers = some (rows, n)) :
    ∀ s ∈ rows, s.length < 256 := by
  rw [compose_without_outliers stats data outliers none] at composed
  obtain ⟨q, done, same⟩ := Option.map_eq_some_iff.mp composed
  cases same
  have short := composeRows_short (by decide) _ (by simp) done
  intro s mem
  obtain ⟨place, inside, rfl⟩ := mem_map.mp mem
  rw [Memory.length_load]
  exact short place inside

theorem compose_all_short (count : input.rows.length ≤ 65536)
    (none : ¬0 < input.rows.countP isOutlier) (short : ∀ s ∈ input.rows, s.length < 256) :
    compose (decompose input stats).1 data outliers = some (input.rows, 0) := by
  have same : ∀ s ∈ input.rows, restored s = s := fun s mem =>
    (restored_eq_iff s).mpr fun _ run => by
      have long := run.length
      have small := short s mem
      omega
  have zero : input.rows.countP isOutlier = 0 := Nat.eq_zero_of_not_pos none
  have empty : input.rows.filter isOutlier = [] := Concatenator.filter_of_no_outliers zero
  have flags : input.rows.map outlierFlag = replicate (input.rows.filterMap parseIp).length 0 := by
    have split : (input.rows.filterMap parseIp).length + input.rows.countP isOutlier =
      input.rows.length := Concatenator.length_filterMap_add_countP input.rows
    rw [zero, add_zero] at split
    rw [split]
    exact Concatenator.flags_of_no_outliers zero
  obtain ⟨q, done, holds⟩ := composeRows_eq count (by decide : 2 ^ 8 ≤ 2 ^ 16)
    (fun s mem => by rw [same s mem]; exact short s mem) data
  rw [compose_without_outliers stats data outliers none, ← flags]
  rw [empty] at done
  rw [done, Option.map_some, holds.strings, map_congr_left same, map_id']

end

/-- Composing what was decomposed gives the strings back if and only if no address has a run
of 256 zeros and, where every string is an address, none has more than 255 characters. -/
theorem compose_decompose_iff (input : StringDataBlock) (count : input.rows.length ≤ 65536)
    (stats : CompressionStatistics) (data : Memory) (outliers : Nat) :
    (∃ n, compose (decompose input stats).1 data outliers = some (input.rows, n)) ↔
      (∀ s ∈ input.rows, (parseIp s).isSome → ¬LongRun s) ∧
        ((∀ s ∈ input.rows, (parseIp s).isSome) → ∀ s ∈ input.rows, s.length < 256) := by
  have allAddresses : ¬0 < input.rows.countP isOutlier ↔
      ∀ s ∈ input.rows, (parseIp s).isSome := by
    simp [isOutlier, Option.isSome_iff_ne_none]
  by_cases mask : 0 < input.rows.countP isOutlier
  · obtain ⟨m, composed⟩ := compose_with_outliers stats data outliers count mask
    have lossless : (∃ n, compose (decompose input stats).1 data outliers =
        some (input.rows, n)) ↔ input.rows.map restored = input.rows := by
      rw [composed]
      simp
    have mixed : ¬∀ s ∈ input.rows, (parseIp s).isSome := fun all => allAddresses.mpr all mask
    rw [lossless, and_iff_left fun all => absurd all mixed]
    constructor
    · intro same s member
      exact (restored_eq_iff s).mp (map_inj_left.mp (same.trans (map_id' _).symm) s member)
    · intro noRun
      rw [map_congr_left fun s member => (restored_eq_iff s).mpr (noRun s member)]
      exact map_id' _
  · constructor
    · rintro ⟨n, composed⟩
      have short := compose_short stats data outliers mask composed
      refine ⟨fun s member _ run => ?_, fun _ => short⟩
      have long := run.length
      have small := short s member
      omega
    · rintro ⟨_, short⟩
      exact ⟨0, compose_all_short stats data outliers count mask
        (short (allAddresses.mp mask))⟩

def mixedBlock : StringDataBlock := ⟨[[49, 48, 46, 48, 46, 48, 46, 48, 49], [120]], by decide⟩

theorem compose_decompose_mixed :
    mixedBlock.rows.length ≤ 65536 ∧
      ∃ n, compose (decompose mixedBlock ⟨0, 0, 0⟩).1 (fun _ => 0) 0 =
        some (mixedBlock.rows, n) := by
  have short : ∀ s ∈ mixedBlock.rows, s.length < 256 := by decide
  refine ⟨by decide, (compose_decompose_iff mixedBlock (by decide) ⟨0, 0, 0⟩ _ 0).mpr ⟨?_, ?_⟩⟩
  · intro s member _ run
    have long := run.length
    have small := short s member
    omega
  · exact fun _ => short

def longAddress : Bytes := List.replicate 249 zero ++ [49, 46, 50, 46, 51, 46, 52]

theorem length_longAddress : longAddress.length = 256 := by
  rw [longAddress, length_append, length_replicate]
  rfl

def longAddressBlock : StringDataBlock :=
  ⟨[longAddress], fun s member => by
    rw [List.mem_singleton.mp member, length_longAddress]
    decide⟩

theorem compose_decompose_long_address :
    ¬∃ n, compose (decompose longAddressBlock ⟨0, 0, 0⟩).1 (fun _ => 0) 0 =
      some (longAddressBlock.rows, n) := by
  rintro ⟨n, composed⟩
  have noOutliers : ¬0 < longAddressBlock.rows.countP isOutlier := by decide +kernel
  have short := compose_short _ _ _ noOutliers composed longAddress mem_cons_self
  rw [length_longAddress] at short
  exact lt_irrefl 256 short

end Brighthouse.DomainInject.IPv4Decomposer
