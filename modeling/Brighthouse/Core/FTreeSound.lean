import Brighthouse.Core.FTreeAdd

/-!
# Dictionaries over whole runs

From a fresh dictionary on, the answers to any sequence of calls are those of a list of the
values in the order of their first appearance, whose indices are the codes; a dictionary that
is saved and read again goes on with the same answers.
-/

set_option autoImplicit false

namespace Brighthouse.Core.FTree

open Library List Option Nat

/-! ## Calls -/

inductive Call where
  | add (str : Bytes)
  | getEncodedValue (str : Bytes)
  | getRealValue (v : Int)

inductive Answer where
  | code (code : Int)
  | value (str : Option Bytes)
  deriving DecidableEq

def call (t : FTree) : Call → Option (FTree × Answer)
  | .add str => (t.add str).map fun (t, code) => (t, .code code)
  | .getEncodedValue str => (t.getEncodedValue str).map fun (t, code) => (t, .code code)
  | .getRealValue v => some (t, .value (t.getRealValue v))

def run (t : FTree) : List Call → Option (FTree × List Answer)
  | [] => some (t, [])
  | c :: rest => do
      let (t, answer) ← t.call c
      let (t, answers) ← t.run rest
      some (t, answer :: answers)

def added (values : List Bytes) : Call → List Bytes
  | .add str => if str ∈ values then values else values ++ [str]
  | _ => values

def valuesAfter (values : List Bytes) (calls : List Call) : List Bytes := calls.foldl added values

/-- The answer for the given values: codes are indices, and -1 stands for an unknown string. -/
def answer (values : List Bytes) : Call → Answer
  | .add str => .code ((added values (.add str)).idxOf str)
  | .getEncodedValue str => .code (if str ∈ values then values.idxOf str else -1)
  | .getRealValue v => .value (if 0 ≤ v then values[v.toNat]? else none)

def answers (values : List Bytes) : List Call → List Answer
  | [] => []
  | c :: rest => answer values c :: answers (added values c) rest

theorem added_append (values : List Bytes) (c : Call) :
    ∃ more, added values c = values ++ more := by
  cases c with
  | add str =>
    by_cases known : str ∈ values
    · exact ⟨[], by simp [added, known]⟩
    · exact ⟨[str], by simp [added, known]⟩
  | getEncodedValue str => exact ⟨[], (append_nil _).symm⟩
  | getRealValue v => exact ⟨[], (append_nil _).symm⟩

theorem valuesAfter_append (values : List Bytes) (calls : List Call) :
    ∃ more, valuesAfter values calls = values ++ more := by
  induction calls generalizing values with
  | nil => exact ⟨[], (append_nil _).symm⟩
  | cons c rest ih =>
    obtain ⟨first, isFirst⟩ := added_append values c
    obtain ⟨second, isSecond⟩ := ih (added values c)
    refine ⟨first ++ second, ?_⟩
    exact isSecond.trans (by rw [isFirst, append_assoc])

structure Within (width : Nat) (values : List Bytes) : Prop where
  short : ∀ v ∈ values, v.length ≤ width
  limited : Limited values

theorem Within.of_append {width : Nat} {values more : List Bytes}
    (within : Within width (values ++ more)) : Within width values :=
  ⟨fun v mem => within.short v (mem_append_left _ mem), within.limited.of_append⟩

section
variable {width : Nat} {t : FTree} {values : List Bytes}

section
variable (represents : Represents width t values)
include represents

theorem Represents.getRealValue (v : Int) :
    t.getRealValue v = if 0 ≤ v then values[v.toNat]? else none := by
  have dicSize := represents.stores.dicSize
  unfold FTree.getRealValue
  by_cases code : 0 ≤ v ∧ v < t.dicSize
  · have small : v.toNat < values.length := by omega
    have here := getElem?_eq_getElem small
    rw [if_pos code, if_pos code.1, represents.stores.len _ _ here, here]
    split
    · rename_i empty
      rw [length_eq_zero_iff.mp empty]
    · rw [represents.stores.bytesAt here]
  · rw [if_neg code]
    split
    · rw [getElem?_eq_none (by omega)]
    · rfl

theorem Represents.getEncodedValue (limited : Limited values) (str : Bytes) :
    ∃ next, t.getEncodedValue str =
        some (next, if str ∈ values then (values.idxOf str : Int) else -1) ∧
      Represents width next values := by
  have few : values.length ≤ maxValues := by
    have bound := limited.few
    unfold maxValues
    omega
  have spec := hashFind_spec represents.stores represents.nodup few represents.hashed str
  have allocated : ¬t.mem.isNone = true := by
    rw [← not_isSome, represents.stores.allocated]
    decide
  have noLast : ¬(t.lastCode > -1 ∧ str.length = t.len t.lastCode.toNat ∧
      t.bytesAt t.lastCode.toNat str.length = str) := fun all => by
    have last := represents.stores.lastCode
    omega
  rw [FTree.getEncodedValue, if_neg allocated, if_neg noLast]
  by_cases known : str ∈ values
  · obtain ⟨size, table, ready, found⟩ := spec.1 known (-1)
    exact ⟨_, by rw [found, if_pos known], represents.withHash ready⟩
  · obtain ⟨size, table, ready, found⟩ := spec.2.1 known
    exact ⟨_, by rw [found, if_neg known], represents.withHash ready⟩

theorem Represents.call (narrow : width < 2 ^ 16)
    (c : Call) (within : Within width (added values c)) :
    ∃ next, t.call c = some (next, answer values c) ∧ Represents width next (added values c) := by
  cases c with
  | add str =>
    by_cases known : str ∈ values
    · have same : added values (.add str) = values := if_pos known
      rw [same] at within
      obtain ⟨next, found, after⟩ := represents.add_known within.limited known
      refine ⟨next, ?_, by rw [same]; exact after⟩
      rw [FTree.call, found, answer, same]
      rfl
    · have longer : added values (.add str) = values ++ [str] := if_neg known
      rw [longer] at within
      have short := within.short str (mem_append_right _ mem_cons_self)
      obtain ⟨next, found, after⟩ := represents.add_new within.limited (by omega) known
      refine ⟨next, ?_, by rw [longer]; exact after⟩
      rw [FTree.call, found, answer, longer, idxOf_append_of_notMem known]
      simp
  | getEncodedValue str =>
    obtain ⟨next, found, after⟩ := represents.getEncodedValue within.limited str
    exact ⟨next, by rw [FTree.call, found]; rfl, after⟩
  | getRealValue v =>
    refine ⟨t, ?_, represents⟩
    rw [FTree.call, represents.getRealValue]
    rfl

end

theorem Represents.run (narrow : width < 2 ^ 16) (calls : List Call) :
    ∀ t values, Represents width t values →
      Within width (valuesAfter values calls) →
      ∃ next, t.run calls = some (next, answers values calls) ∧
        Represents width next (valuesAfter values calls) := by
  induction calls with
  | nil => exact fun t values represents _ => ⟨t, rfl, represents⟩
  | cons c rest ih =>
    intro t values represents within
    obtain ⟨more, isMore⟩ := valuesAfter_append (added values c) rest
    obtain ⟨next, called, after⟩ := represents.call narrow c (isMore ▸ within).of_append
    obtain ⟨last, ran, done⟩ := ih next (added values c) after within
    refine ⟨last, ?_, done⟩
    rw [FTree.run, called]
    simp only [bind_eq_bind, bind_some, ran]
    rfl

theorem represents_init (width : Nat) : Represents width (new.init width) [] where
  stores :=
    ⟨rfl, rfl, rfl, fun _ _ here => absurd here (by simp),
      fun i small => absurd small (not_lt_zero i), zero_le _, zero_le _, rfl⟩
  nodup := nodup_nil
  hashed := Or.inl rfl
  width := rfl
  sized := Or.inl rfl

/-! ## Saving -/

theorem Stores.map_len (stores : Stores t values) :
    (range t.dicSize).map t.len = values.map length := by
  refine ext_getElem (by simp [stores.dicSize]) fun i inside small => ?_
  rw [length_map] at small
  rw [getElem_map, getElem_map, getElem_range, stores.len i _ (getElem?_eq_getElem small)]

theorem Stores.lenSum (stores : Stores t values) : t.lenSum = values.flatten.length := by
  rw [FTree.lenSum, stores.map_len, length_flatten]

theorem Represents.byteSize (represents : Represents width t values) (limited : Limited values) :
    ∃ next, t.byteSize = some (next, savedSize values) ∧ Represents width next values ∧
      (next.compressedSize = 0 ∨ next.compressedSize = savedSize values) := by
  have dicSize := represents.stores.dicSize
  have small := limited.small
  have size : 12 + 2 * t.dicSize + t.lenSum = savedSize values := by
    rw [represents.stores.lenSum, dicSize, savedSize]
  have kept : ∀ (compMode : Int) (compressedSize : Nat),
      compressedSize = 0 ∨ t.changed = true ∧ values ≠ [] ∨ compressedSize = savedSize values →
      Represents width { t with compMode, compressedSize } values := fun _ _ sized =>
    ⟨⟨represents.stores.allocated, represents.stores.text, dicSize, represents.stores.len,
      represents.stores.offset, represents.stores.tables, represents.stores.buffer,
      represents.stores.lastCode⟩, represents.nodup, represents.hashed, represents.width, sized⟩
  rw [FTree.byteSize]
  by_cases unchanged : t.changed = false ∧ t.compressedSize > 0
  · have isSize : t.compressedSize = savedSize values := by
      rcases represents.sized with zero | ⟨changed, _⟩ | same
      · omega
      · rw [changed] at unchanged
        cases unchanged.1
      · exact same
    rw [if_pos unchanged, isSize]
    exact ⟨t, rfl, represents, .inr isSize⟩
  · rw [if_neg unchanged]
    by_cases none : t.dicSize = 0
    · have empty : values = [] := length_eq_zero_iff.mp (dicSize.symm.trans none)
      have header : 12 + 2 * t.dicSize = savedSize values := by
        rw [none, empty]
        rfl
      simp only [if_pos none, header]
      have sized : t.compressedSize = 0 ∨ t.compressedSize = savedSize values :=
        represents.sized.imp_right fun other => other.resolve_left fun both => both.2 empty
      exact ⟨_, rfl, kept (-1) t.compressedSize represents.sized, sized⟩
    · simp only [if_neg none, size]
      rw [if_pos (by omega)]
      exact ⟨_, rfl, kept (-1) (savedSize values) (.inr (.inr rfl)), .inr rfl⟩

def savedBytes (width compressedSize : Nat) (compMode : Int) (values : List Bytes) : Bytes :=
  littleEndian 1 0 ++ (littleEndian 4 values.length ++ (littleEndian 2 width ++
    (littleEndian 4 compressedSize ++ (littleEndian 1 (compMode % 256).toNat ++
      (values.flatMap (fun v => littleEndian 2 v.length) ++ values.flatten)))))

theorem length_savedBytes (width compressedSize : Nat) (compMode : Int) (values : List Bytes) :
    (savedBytes width compressedSize compMode values).length = savedSize values := by
  have lens : (values.flatMap fun v => littleEndian 2 v.length).length = 2 * values.length := by
    simp [mul_comm]
  rw [savedBytes]
  simp only [length_append, length_littleEndian, savedSize]
  omega

theorem Represents.saveData (represents : Represents width t values)
    (short : ∀ v ∈ values, v.length ≤ width) :
    t.saveData = some (savedBytes width t.compressedSize t.compMode values) := by
  have dicSize := represents.stores.dicSize
  rw [FTree.saveData, represents.width]
  by_cases none : t.dicSize = 0
  · have empty : values = [] := length_eq_zero_iff.mp (dicSize.symm.trans none)
    rw [empty, none]
    simp [savedBytes, littleEndian]
  · have fits : ¬((range t.dicSize).any fun i => decide (t.len i > width)) = true := by
      intro some
      obtain ⟨i, inside, long⟩ := any_eq_true.mp some
      rw [mem_range, dicSize] at inside
      have here := getElem?_eq_getElem inside
      rw [represents.stores.len i _ here, decide_eq_true_eq] at long
      have bound := short _ (getElem_mem inside)
      omega
    have offset := represents.stores.newValueOffset
    rw [if_neg none] at offset
    have lens : (range t.dicSize).flatMap (fun i => littleEndian 2 (t.len i)) =
        values.flatMap fun v => littleEndian 2 v.length := by
      have maps := congrArg (flatMap (littleEndian 2)) represents.stores.map_len
      rwa [flatMap_map, flatMap_map] at maps
    simp only [if_neg none]
    rw [if_neg fits, offset, Int.toNat_natCast, represents.stores.text, lens, dicSize, savedBytes]
    simp [littleEndian]

/-! ## Reading -/

theorem readNumber_littleEndian {size n : Nat} (small : n < 256 ^ size) (rest : Bytes) :
    readNumber size (littleEndian size n ++ rest) = some (n, rest) := by
  rw [readNumber, if_pos (by simp), take_left' (length_littleEndian _ _),
    drop_left' (length_littleEndian _ _),
    ofLittleEndian_littleEndian small]

theorem readLens_flatMap (values : List Bytes) (short : ∀ v ∈ values, v.length < 2 ^ 16)
    (rest : Bytes) :
    readLens values.length (values.flatMap (fun v => littleEndian 2 v.length) ++ rest) =
      some (values.map length, rest) := by
  induction values with
  | nil => rfl
  | cons v values ih =>
    have small : v.length < 256 ^ 2 := short v mem_cons_self
    rw [length_cons, readLens, flatMap_cons, append_assoc, readNumber_littleEndian small]
    simp only [bind_eq_bind, bind_some,
      ih fun w mem => short w (mem_cons_of_mem _ mem)]
    rfl

def loaded (width compressedSize : Nat) (compMode : Int) (values : List Bytes) : FTree :=
  { new with
    dicSize := values.length, totalDicSize := values.length, valueSize := width, compressedSize
    compMode := Int.bmod (compMode % 256).toNat 256
    len := fun i => (values.map List.length).getD i 0
    valueOffset := fun i => ((values.map List.length).take i).sum
    totalBufSize := if values.length < 3 then width * 10 + 10 else (values.map List.length).sum
    mem := some (Memory.store (fun _ => 0) 0 values.flatten), lastCode := -1, changed := false }

theorem stores_loaded (within : Within width values) (compressedSize : Nat) (compMode : Int) :
    Stores (loaded width compressedSize compMode values) values := by
  refine ⟨rfl, ?_, rfl, fun i v here => ?_, fun i _ => ?_, le_refl _, ?_, rfl⟩
  · exact Memory.load_store _ 0 values.flatten
  · change (values.map length).getD i 0 = v.length
    rw [getD_eq_getElem?_getD, getElem?_map, here]
    rfl
  · change ((((values.map length).take i).sum : Nat) : Int) = _
    rw [← map_take, length_flatten]
  · change values.flatten.length ≤
      if values.length < 3 then width * 10 + 10 else (values.map length).sum
    split
    · have bound : (values.map length).sum ≤ values.length * width := by
        have each := sum_le_card_nsmul (values.map length) width fun length mem => by
          obtain ⟨v, inside, rfl⟩ := mem_map.mp mem
          exact within.short v inside
        simpa using each
      rw [length_flatten]
      have twice : values.length * width ≤ 2 * width := mul_le_mul_right width (by omega)
      omega
    · rw [length_flatten]

variable {compressedSize : Nat}

theorem initFrom_savedBytes (narrow : width < 2 ^ 16) (within : Within width values)
    (sized : compressedSize = 0 ∨ compressedSize = savedSize values) (compMode : Int)
    (rest : Bytes) :
    new.initFrom (savedBytes width compressedSize compMode values ++ rest) =
      some (loaded width compressedSize compMode values, values.flatten ++ rest) := by
  have few := within.limited.few
  have small := within.limited.small
  have short : ∀ v ∈ values, v.length < 2 ^ 16 := fun v mem =>
    (within.short v mem).trans_lt narrow
  have size : compressedSize < 256 ^ 4 := by
    rcases sized with rfl | rfl
    · decide
    · omega
  have mode : (compMode % 256).toNat < 256 ^ 1 := by omega
  have sum : (values.map length).sum = values.flatten.length := length_flatten.symm
  rw [savedBytes, initFrom]
  simp only [append_assoc, readNumber_littleEndian (by decide : 0 < 256 ^ 1),
    readNumber_littleEndian (by omega : values.length < 256 ^ 4),
    readNumber_littleEndian (by omega : width < 256 ^ 2), readNumber_littleEndian size,
    readNumber_littleEndian mode, readLens_flatMap values short, bind_eq_bind,
    bind_some]
  rw [if_neg (by decide), if_pos (by rw [length_append]; omega)]
  have text : (values.flatten ++ rest).take (values.map length).sum = values.flatten := by
    rw [sum, take_left]
  rw [text, loaded]

theorem represents_loaded (within : Within width values) (nodup : values.Nodup)
    (sized : compressedSize = 0 ∨ compressedSize = savedSize values) (compMode : Int) :
    Represents width (loaded width compressedSize compMode values) values :=
  ⟨stores_loaded within compressedSize compMode, nodup, Or.inl rfl, rfl,
    sized.imp_right fun same => Or.inr same⟩

end

/-! ## The dictionary of a sequence of strings -/

def distinct (strings : List Bytes) : List Bytes :=
  strings.foldl (fun values str => if str ∈ values then values else values ++ [str]) []

/-- The answers of the dictionary, whatever is called, are those of the given values. -/
def AnswersAs (width : Nat) (t : FTree) (values : List Bytes) : Prop :=
  ∀ calls, Within width (valuesAfter values calls) →
    ∃ next, t.run calls = some (next, answers values calls)

theorem Represents.answersAs {width : Nat} {t : FTree} {values : List Bytes}
    (represents : Represents width t values) (narrow : width < 2 ^ 16) :
    AnswersAs width t values := fun calls within => by
  obtain ⟨next, ran, -⟩ := Represents.run narrow calls t values represents within
  exact ⟨next, ran⟩

theorem mem_added (values : List Bytes) (str : Bytes) : str ∈ added values (.add str) := by
  by_cases known : str ∈ values <;> simp [added, known]

theorem answers_add (strings values : List Bytes) :
    answers values (strings.map .add) = strings.map fun str =>
      .code ((valuesAfter values (strings.map .add)).idxOf str) := by
  induction strings generalizing values with
  | nil => rfl
  | cons str strings ih =>
    obtain ⟨more, isMore⟩ := valuesAfter_append (added values (.add str)) (strings.map .add)
    have split : valuesAfter values ((str :: strings).map .add) =
        valuesAfter (added values (.add str)) (strings.map .add) := rfl
    rw [map_cons, map_cons, answers, ih, ← map_cons (f := Call.add), split]
    congr 2
    rw [isMore, idxOf_append_of_mem (mem_added values str)]
    rfl

theorem mem_distinct (strings : List Bytes) :
    ∀ values, ∀ str ∈ valuesAfter values (strings.map .add), str ∈ values ∨ str ∈ strings := by
  induction strings with
  | nil => exact fun values str mem => .inl mem
  | cons first strings ih =>
    intro values str mem
    rcases ih (added values (.add first)) str mem with before | later
    · by_cases known : first ∈ values
      · rw [added, if_pos known] at before
        exact .inl before
      · rw [added, if_neg known] at before
        rcases mem_append.mp before with old | new
        · exact .inl old
        · exact .inr (mem_singleton.mp new ▸ mem_cons_self)
    · exact .inr (mem_cons_of_mem _ later)

/-- The strings added to a fresh dictionary get the codes 0, 1, 2, ... in the order of their
first appearance, and from then on all calls are answered by these codes. -/
def Encodes (width : Nat) (strings : List Bytes) (t : FTree) : Prop :=
  (new.init width).run (strings.map .add) =
      some (t, strings.map fun str => .code ((distinct strings).idxOf str)) ∧
    AnswersAs width t (distinct strings)

/-- What is saved of the dictionary has `ByteSize()` bytes, and reading it gives a dictionary with
the same answers and the buffer `left rest`, if the bytes `rest` follow. -/
def Reloads (width : Nat) (strings : List Bytes) (t : FTree) (left : Bytes → Bytes) : Prop :=
  ∃ saved bytes, t.byteSize = some (saved, bytes.length) ∧ saved.saveData = some bytes ∧
    ∀ rest, ∃ u, new.initFrom (bytes ++ rest) = some (u, left rest) ∧
      AnswersAs width u (distinct strings)

section
variable {width : Nat} {strings : List Bytes}

theorem exists_encodes (narrow : width < 2 ^ 16) (short : ∀ str ∈ strings, str.length ≤ width)
    (limited : Limited (distinct strings)) :
    ∃ t, Encodes width strings t ∧
      Reloads width strings t fun rest => (distinct strings).flatten ++ rest := by
  have values : valuesAfter [] (strings.map .add) = distinct strings := by
    rw [valuesAfter, foldl_map]
    rfl
  have within : Within width (distinct strings) := by
    refine ⟨fun str member => ?_, limited⟩
    rw [← values] at member
    exact short str ((mem_distinct strings [] str member).resolve_left not_mem_nil)
  obtain ⟨t, ran, represents⟩ := Represents.run narrow (strings.map .add) (new.init width) []
    (represents_init width) (by rw [values]; exact within)
  rw [answers_add, values] at ran
  rw [values] at represents
  obtain ⟨saved, size, after, sized⟩ := represents.byteSize limited
  refine ⟨t, ⟨ran, represents.answersAs narrow⟩, saved, _, ?_, after.saveData within.short, ?_⟩
  · rw [size, length_savedBytes]
  · intro rest
    exact ⟨_, initFrom_savedBytes narrow within sized saved.compMode rest,
      (represents_loaded within represents.nodup sized saved.compMode).answersAs narrow⟩

theorem Reloads.left_eq {t : FTree} {left left' : Bytes → Bytes}
    (reloads : Reloads width strings t left) (reloads' : Reloads width strings t left') :
    left [] = left' [] := by
  obtain ⟨saved, bytes, sized, isSaved, loads⟩ := reloads
  obtain ⟨saved', bytes', sized', isSaved', loads'⟩ := reloads'
  obtain ⟨rfl, -⟩ := Prod.mk.inj (some_inj.mp (sized.symm.trans sized'))
  obtain rfl := some_inj.mp (isSaved.symm.trans isSaved')
  obtain ⟨u, isLeft, -⟩ := loads []
  obtain ⟨u', isLeft', -⟩ := loads' []
  exact (Prod.mk.inj (some_inj.mp (isLeft.symm.trans isLeft'))).2

/-- The codes are right, and so is a dictionary that is saved and read again.  But the buffer is
left in front of the strings, so all that was saved is consumed only if they are empty. -/
theorem dictionary_consumes_iff (narrow : width < 2 ^ 16)
    (short : ∀ str ∈ strings, str.length ≤ width) (limited : Limited (distinct strings)) :
    ∃ t, Encodes width strings t ∧ (∃ left, Reloads width strings t left) ∧
      (Reloads width strings t id ↔ ∀ str ∈ distinct strings, str = []) := by
  obtain ⟨t, encodes, reloads⟩ := exists_encodes narrow short limited
  refine ⟨t, encodes, ⟨_, reloads⟩, ?_⟩
  rw [← flatten_eq_nil_iff]
  constructor
  · intro consumes
    simpa using reloads.left_eq consumes
  · intro empty
    rw [empty] at reloads
    exact reloads

end

theorem dictionary_consumes_abc :
    ∃ t, Encodes 3 [[97, 98, 99], [], [97, 98, 99], [7]] t ∧
      ∃ left, Reloads 3 [[97, 98, 99], [], [97, 98, 99], [7]] t left := by
  obtain ⟨t, encodes, reloads, -⟩ := @dictionary_consumes_iff 3
    [[97, 98, 99], [], [97, 98, 99], [7]] (by decide) (by decide) ⟨by decide, by decide⟩
  exact ⟨t, encodes, reloads⟩

/-- Of the dictionary of one string of one byte, that byte is not consumed. -/
theorem dictionary_byte_left :
    ∃ t, Encodes 1 [[97]] t ∧ Reloads 1 [[97]] t (fun rest => 97 :: rest) ∧
      ¬Reloads 1 [[97]] t id := by
  obtain ⟨t, encodes, reloads⟩ := @exists_encodes 1 [[97]] (by decide) (by decide)
    ⟨by decide, by decide⟩
  refine ⟨t, encodes, reloads, fun consumes => ?_⟩
  cases reloads.left_eq consumes

end Brighthouse.Core.FTree
