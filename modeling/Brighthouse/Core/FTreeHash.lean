import Brighthouse.Core.FTree
import Brighthouse.Library.Probing

/-!
# The hash table of a dictionary

The size of the table is not divisible by 2, 3, 5 or 7, so that the walks with the steps 3
to 10 pass all rows, and it stays larger than the number of values.  A search therefore
ends, and it finds the code of a value that is in the table.
-/

set_option autoImplicit false

namespace Brighthouse.Core.FTree

open Library Library.Binary64 Library.Probing List Function Option Int

variable {n k i depth : Nat} {factor : ℚ} {v : Bytes} {next : FTree}

/-! ## Sizes -/

def GoodSize (size : Nat) : Prop := size % 2 ≠ 0 ∧ size % 3 ≠ 0 ∧ size % 5 ≠ 0 ∧ size % 7 ≠ 0

instance (size : Nat) : Decidable (GoodSize size) := inferInstanceAs (Decidable (_ ∧ _))

theorem not_goodSize_iff (size : Nat) :
    ¬GoodSize size ↔ size % 2 = 0 ∨ size % 3 = 0 ∨ size % 5 = 0 ∨ size % 7 = 0 := by
  unfold GoodSize
  omega

theorem nextHashSize_spec (turns size : Nat) (ends : ∃ j < turns, GoodSize (size + j)) :
    GoodSize (nextHashSize turns size) ∧ size ≤ nextHashSize turns size ∧
      nextHashSize turns size ≤ size + turns := by
  induction turns generalizing size with
  | zero =>
    omega
  | succ turns ih =>
    rw [nextHashSize]
    split
    · rename_i divisible
      obtain ⟨j, small, good⟩ := ends
      have later : j ≠ 0 := by
        rintro rfl
        exact (not_goodSize_iff size).mpr divisible good
      have next := ih (size + 1) ⟨j - 1, by omega, by
        rwa [add_assoc, Nat.add_sub_cancel' (Nat.one_le_iff_ne_zero.mpr later)]⟩
      exact ⟨next.1, by omega, by omega⟩
    · rename_i coprime
      refine ⟨?_, le_refl _, Nat.le_add_right _ _⟩
      by_contra bad
      exact coprime ((not_goodSize_iff size).mp bad)

theorem goodSize_mod (size : Nat) : GoodSize (size % 210) ↔ GoodSize size := by
  unfold GoodSize
  omega

theorem exists_goodSize (size : Nat) : ∃ j < 10, GoodSize (size + j) := by
  have residues : ∀ r < 210, ∃ j < 10, GoodSize ((r + j) % 210) := by decide +kernel
  obtain ⟨j, small, good⟩ := residues (size % 210) (Nat.mod_lt _ (by decide))
  refine ⟨j, small, ?_⟩
  rw [← goodSize_mod]
  rwa [Nat.mod_add_mod] at good

theorem le_mulDouble (le : (k : ℚ) ≤ n * round53 factor)
    (small : k ≤ 2 ^ 53) : (k : ℚ) ≤ mulDouble n factor := by
  rw [← round53_natCast small]
  exact round53_mono le

def maxValues : Nat := 214748301

theorem hashSizeFor_spec {dicSize : Nat} (few : dicSize ≤ maxValues) :
    GoodSize (hashSizeFor dicSize) ∧ 80 ≤ hashSizeFor dicSize ∧ 2 * dicSize ≤ hashSizeFor dicSize ∧
      hashSizeFor dicSize ≤ 3 * dicSize + 200 := by
  unfold maxValues at few
  rw [hashSizeFor]
  have spec := nextHashSize_spec 10 (if dicSize < 30 then 97 else
    (truncate (mulDouble (dicSize + 10) (5 / 2))).toNat) (exists_goodSize _)
  split at spec
  · rw [if_pos (by assumption)]
    exact ⟨spec.1, by omega, by omega, by omega⟩
  · rename_i many
    rw [if_neg many]
    have factor : round53 (5 / 2) = 5 / 2 := by
      have exact := round53_dyadic (m := 5) 1 (by norm_num)
      exact exact
    have lower : ((2 * (dicSize + 10) : Nat) : ℚ) ≤ mulDouble (dicSize + 10) (5 / 2) := by
      refine le_mulDouble ?_ (by omega)
      rw [factor]
      push_cast
      linarith [(Nat.cast_nonneg dicSize : (0 : ℚ) ≤ dicSize)]
    have upper : mulDouble (dicSize + 10) (5 / 2) ≤ (3 * (dicSize + 10) : Nat) := by
      refine (round53_mono ?_).trans_eq (round53_natCast (by omega))
      rw [factor]
      push_cast
      linarith [(Nat.cast_nonneg dicSize : (0 : ℚ) ≤ dicSize)]
    have low := le_truncate (natCast_nonneg _) (by exact_mod_cast lower)
    have high : truncate (mulDouble (dicSize + 10) (5 / 2)) ≤ (3 * (dicSize + 10) : Nat) := by
      rw [truncate_of_nonneg (le_trans (Nat.cast_nonneg _) lower)]
      exact floor_le_iff.mpr (by push_cast at upper ⊢; linarith)
    exact ⟨spec.1, by omega, by omega, by omega⟩

theorem round53_nine_tenths : 7 / 8 ≤ round53 (9 / 10) ∧ round53 (9 / 10) ≤ 15 / 16 := by
  have low := round53_dyadic (m := 7) 3 (by norm_num)
  have high := round53_dyadic (m := 15) 4 (by norm_num)
  constructor
  · calc (7 / 8 : ℚ) = round53 (7 / 8) := low.symm
      _ ≤ round53 (9 / 10) := round53_mono (by norm_num)
  · calc round53 (9 / 10) ≤ round53 (15 / 16) := round53_mono (by norm_num)
      _ = 15 / 16 := high

theorem room_of_not_tooMany {t : FTree} (large : 80 ≤ t.hashSize) (small : t.hashSize ≤ 2 ^ 40)
    (enough : ¬t.tooManyValues) : t.dicSize + 1 < t.hashSize := by
  rw [tooManyValues, not_lt] at enough
  have product : t.hashSize * round53 (9 / 10) ≤ ((15 * t.hashSize : Nat) : ℚ) / 2 ^ 4 := by
    have bound := mul_le_mul_of_nonneg_left round53_nine_tenths.2
      (Nat.cast_nonneg t.hashSize : (0 : ℚ) ≤ t.hashSize)
    push_cast
    linarith
  have kept := round53_dyadic (m := 15 * t.hashSize) 4 (by omega)
  have values : (t.dicSize : ℚ) ≤ ((15 * t.hashSize : Nat) : ℚ) / 2 ^ 4 :=
    enough.trans ((round53_mono product).trans_eq kept)
  have scaled : 16 * t.dicSize ≤ 15 * t.hashSize := by
    rw [le_div_iff₀ (by norm_num)] at values
    have natural : t.dicSize * 2 ^ 4 ≤ 15 * t.hashSize := by exact_mod_cast values
    omega
  omega

theorem not_tooMany_of_le {t : FTree} (small : t.dicSize ≤ maxValues)
    (twice : 2 * t.dicSize ≤ t.hashSize) : ¬t.tooManyValues := by
  rw [tooManyValues, not_lt]
  refine le_mulDouble ?_ (by unfold maxValues at small; omega)
  have bound := mul_le_mul_of_nonneg_left round53_nine_tenths.1
    (Nat.cast_nonneg t.hashSize : (0 : ℚ) ≤ t.hashSize)
  have twiceCast : 2 * (t.dicSize : ℚ) ≤ t.hashSize := by exact_mod_cast twice
  linarith

/-! ## Walks -/

theorem GoodSize.coprime {size : Nat} (good : GoodSize size) : Nat.Coprime 210 size := by
  obtain ⟨two, three, five, seven⟩ := good
  have prime : ∀ {p : Nat}, p.Prime → size % p ≠ 0 → Nat.Coprime p size := fun isPrime nonzero =>
    (Nat.Prime.coprime_iff_not_dvd isPrime).mpr fun divides =>
      nonzero (Nat.mod_eq_zero_of_dvd divides)
  have product := ((prime Nat.prime_two two).mul_left (prime Nat.prime_three three)).mul_left
    ((prime Nat.prime_five five).mul_left (prime (by norm_num : Nat.Prime 7) seven))
  exact product

theorem hashStep_dvd (v : Bytes) : hashStep v ∣ 210 ^ 3 := by
  have residues : ∀ r < 8, 3 + r ∣ 210 ^ 3 := by decide
  exact residues (crcCode v % 8) (Nat.mod_lt _ (by decide))

theorem GoodSize.pos {size : Nat} (good : GoodSize size) : 0 < size := by
  rcases eq_zero_or_pos size with rfl | pos
  · exact absurd rfl good.1
  · exact pos

def layout (size : Nat) (good : GoodSize size) : Layout Bytes where
  size := size
  home := home size
  step := hashStep
  home_lt := fun _ => Nat.mod_lt _ good.pos
  coprime := fun v => (good.coprime.pow_left 3).coprime_dvd_left (hashStep_dvd v)

def nextRow (size : Nat) (v : Bytes) (row : Nat) : Nat := (row + hashStep v) % size

def view (table : Nat → Int) (keys : List Bytes) (row : Nat) : Option Bytes :=
  if table row = -1 then none else keys[(table row).toNat]?

structure Indexed (size : Nat) (table : Nat → Int) (keys : List Bytes) : Prop where
  good : GoodSize size
  entries : ∀ row, table row = -1 ∨ ∃ i < keys.length, table row = (i : Nat)
  holds : Holds (layout size good) (view table keys) keys

section
variable {size : Nat} {table : Nat → Int} {keys : List Bytes}

theorem indexed_empty (good : GoodSize size) : Indexed size (fun _ => -1) [] :=
  ⟨good, fun _ => Or.inl rfl, holds_nil _⟩

section
variable (indexed : Indexed size table keys)
include indexed

theorem Indexed.view_eq_none_iff (row : Nat) : view table keys row = none ↔ table row = -1 := by
  unfold view
  rcases indexed.entries row with empty | ⟨i, small, entry⟩
  · simp [empty]
  · simp [entry, small]

theorem Indexed.view_eq_some_iff (nodup : keys.Nodup) (row : Nat) (mem : v ∈ keys) :
    view table keys row = some v ↔ table row = (keys.idxOf v : Int) := by
  unfold view
  rcases indexed.entries row with empty | ⟨i, small, entry⟩
  · simp [empty]
  · have nonneg : (i : Int) ≠ -1 := by omega
    rw [entry, if_neg nonneg, toNat_natCast, getElem?_eq_getElem small, some.injEq,
      natCast_inj]
    constructor
    · rintro rfl
      exact (nodup.idxOf_getElem i small).symm
    · intro same
      have found := getElem_idxOf (idxOf_lt_length_iff.mpr mem)
      simp only [← same] at found
      exact found

theorem Indexed.insert (fresh : v ∉ keys)
    (before : ∀ i < n, Blocked (view table keys) v ((layout size indexed.good).row v i))
    (empty : table ((layout size indexed.good).row v n) = -1) :
    Indexed size (update table ((layout size indexed.good).row v n) keys.length)
      (keys ++ [v]) := by
  have isNone := (indexed.view_eq_none_iff _).mpr empty
  have views : view (update table ((layout size indexed.good).row v n) keys.length)
      (keys ++ [v]) = update (view table keys) ((layout size indexed.good).row v n)
        (some v) := by
    funext row
    by_cases here : row = (layout size indexed.good).row v n
    · rw [here, view, update_self]
      simp
    · rw [update_of_ne here, view, update_of_ne here, view]
      rcases indexed.entries row with free | ⟨i, small, entry⟩
      · rw [if_pos free, if_pos free]
      · rw [entry, toNat_natCast, getElem?_append_left small]
  refine ⟨indexed.good, fun row => ?_, ?_⟩
  · by_cases here : row = (layout size indexed.good).row v n
    · refine .inr ⟨keys.length, by simp, ?_⟩
      rw [here, update_self]
    · rw [update_of_ne here]
      rcases indexed.entries row with free | ⟨i, small, entry⟩
      · exact .inl free
      · exact .inr ⟨i, by rw [length_append]; omega, entry⟩
  · rw [views]
    refine (indexed.holds.insert before (by rw [isNone, if_neg fresh])).of_mem_iff fun k => ?_
    rw [mem_cons, mem_append, mem_singleton, or_comm]

end

end

/-! ## Values -/

/-- The strings stand one after the other in `mem`, and the tables give their places. -/
structure Stores (t : FTree) (values : List Bytes) : Prop where
  allocated : t.mem.isSome
  text : t.memory.load 0 values.flatten.length = values.flatten
  dicSize : t.dicSize = values.length
  len : ∀ i v, values[i]? = some v → t.len i = v.length
  offset : ∀ i, i < values.length → t.valueOffset i = (values.take i).flatten.length
  tables : values.length ≤ t.totalDicSize
  buffer : values.flatten.length ≤ t.totalBufSize
  lastCode : t.lastCode = -1

theorem flatten_split {values : List Bytes} (here : values[i]? = some v) :
    values.flatten = (values.take i).flatten ++ (v ++ (values.drop (i + 1)).flatten) := by
  obtain ⟨small, rfl⟩ := List.getElem?_eq_some_iff.mp here
  conv_lhs => rw [← take_append_drop i values, drop_eq_getElem_cons small]
  rw [flatten_append, flatten_cons]

def withHash (t : FTree) (size : Nat) (table : Nat → Int) : FTree :=
  { t with hashSize := size, hashTable := some table }

section
variable {t : FTree} {values : List Bytes} (stores : Stores t values)
include stores

theorem Stores.bytesAt (here : values[i]? = some v) : t.bytesAt i v.length = v := by
  have small := (List.getElem?_eq_some_iff.mp here).1
  have text := stores.text
  rw [flatten_split here, length_append, Memory.load_add, length_append,
    Memory.load_add] at text
  have middle := (append_inj' text (by simp)).2
  rw [FTree.bytesAt, stores.offset i small]
  rw [zero_add] at middle
  exact (append_inj middle (by simp)).1

theorem Stores.isValueAt_iff {w : Bytes} (here : values[i]? = some w) (v : Bytes) :
    t.isValueAt i v = true ↔ w = v := by
  rw [isValueAt, stores.len i w here]
  constructor
  · intro same
    simp only [Bool.and_eq_true, beq_iff_eq, Bool.or_eq_true] at same
    obtain ⟨lengths, empty | bytes⟩ := same
    · rw [length_eq_zero_iff.mp empty, length_eq_zero_iff.mp (lengths.trans empty)]
    · rw [← lengths, stores.bytesAt here] at bytes
      exact bytes
  · rintro rfl
    simp [stores.bytesAt here]

theorem Stores.withHash (size : Nat) (table : Nat → Int) :
    Stores (t.withHash size table) values :=
  { stores with }

end

/-! ## Searches -/

section
variable {t : FTree} {values keys : List Bytes} {table : Nat → Int}

section
variable (stores : Stores t values) (initial : keys <+: values)
  (indexed : Indexed t.hashSize table keys)
include stores initial indexed

theorem blocked_iff (v : Bytes) (row : Nat) :
    Blocked (view table keys) v row ↔
      ¬table row = -1 ∧ ¬t.isValueAt (table row).toNat v = true := by
  unfold Blocked
  rw [ne_eq, indexed.view_eq_none_iff]
  refine and_congr_right fun entered => not_congr ?_
  obtain ⟨i, small, entry⟩ := (indexed.entries row).resolve_left entered
  have here : values[i]? = some keys[i] := by
    obtain ⟨rest, rfl⟩ := initial
    rw [getElem?_append_left small, getElem?_eq_getElem small]
  rw [entry, toNat_natCast, stores.isValueAt_iff here, view, if_neg entered, entry,
    toNat_natCast, getElem?_eq_getElem small, some.injEq]

theorem findRow_eq_search (v : Bytes) (turns row : Nat) :
    findRow t table v turns row =
      search (view table keys) (nextRow t.hashSize v) v turns row := by
  induction turns generalizing row with
  | zero => rfl
  | succ turns ih =>
    have blocked := blocked_iff stores initial indexed v row
    rw [findRow, search]
    by_cases empty : table row = -1
    · rw [if_pos empty, if_neg fun is => (blocked.mp is).1 empty]
    · rw [if_neg empty]
      by_cases found : t.isValueAt (table row).toNat v = true
      · rw [if_pos found, if_neg fun is => (blocked.mp is).2 found]
      · rw [if_neg found, if_pos (blocked.mpr ⟨empty, found⟩), ih, nextRow]

variable (nodup : values.Nodup) (room : keys.length < t.hashSize) (v : Bytes)
include nodup room

theorem findRow_spec :
    ∃ row, findRow t table v t.hashSize (home t.hashSize v) = some row ∧
      (v ∈ keys → table row = (keys.idxOf v : Int)) ∧
      (v ∉ keys → table row = -1 ∧
        Indexed t.hashSize (update table row keys.length) (keys ++ [v])) := by
  have steps : ∀ j, nextRow t.hashSize v ((layout t.hashSize indexed.good).row v j) =
      (layout t.hashSize indexed.good).row v (j + 1) := fun j => (Layout.row_succ _ v j).symm
  obtain ⟨n, before, ends, found⟩ := indexed.holds.search room v steps (le_refl _)
  refine ⟨(layout t.hashSize indexed.good).row v n, ?_, fun mem => ?_, fun fresh => ?_⟩
  · rw [findRow_eq_search stores initial indexed]
    exact ends
  · rw [if_pos mem] at found
    exact (indexed.view_eq_some_iff (nodup.sublist initial.sublist) _ mem).mp found
  · rw [if_neg fresh] at found
    have empty := (indexed.view_eq_none_iff _).mp found
    exact ⟨empty, indexed.insert fresh before empty⟩

theorem hashFindNested_indexed (depth : Nat) (isTable : t.hashTable = some table) (pos : Int) :
    (v ∈ keys → hashFindNested (depth + 1) t v pos = some (t, (keys.idxOf v : Int))) ∧
      (v ∉ keys → pos = -1 → hashFindNested (depth + 1) t v pos = some (t, -1)) ∧
      (v ∉ keys → pos = keys.length → ¬t.tooManyValues →
        ∃ table', hashFindNested (depth + 1) t v pos =
            some (t.withHash t.hashSize table', (keys.length : Int)) ∧
          Indexed t.hashSize table' (keys ++ [v])) := by
  obtain ⟨row, ends, known, fresh⟩ := findRow_spec stores initial indexed nodup room v
  rw [hashFindNested]
  simp only [isNone_some, Bool.false_eq_true, if_false, bind_eq_bind,
    bind_some, isTable, ends]
  refine ⟨fun mem => ?_, fun absent isPos => ?_, fun absent isPos enough => ?_⟩
  · rw [known mem, if_neg (by omega)]
  · rw [if_pos (fresh absent).1, if_neg (by omega)]
  · refine ⟨_, ?_, (fresh absent).2⟩
    rw [if_pos (fresh absent).1, if_neg enough, isPos]
    rfl

end

/-! ## Rebuilding -/

/-- The table is in order and has room. -/
structure Ready (size : Nat) (table : Nat → Int) (values : List Bytes) : Prop where
  indexed : Indexed size table values
  room : values.length < size
  large : 80 ≤ size
  small : size ≤ 2 ^ 40

/-- The hash table is not built yet, or it is in order. -/
def Hashed (t : FTree) (values : List Bytes) : Prop :=
  t.hashTable = none ∨ ∃ table, t.hashTable = some table ∧ Ready t.hashSize table values

theorem hashFindNested_full {after : FTree} {row : Nat} {pos code : Int}
    (isTable : t.hashTable = some table)
    (ends : findRow t table v t.hashSize (home t.hashSize v) = some row) (empty : table row = -1)
    (isPosition : pos > -1) (full : t.tooManyValues)
    (rebuilt : initHash (hashFindNested depth) t = some next)
    (found : hashFindNested depth next v pos = some (after, code)) :
    hashFindNested (depth + 1) t v pos = some (after, pos) := by
  rw [hashFindNested]
  simp only [isNone_some, Bool.false_eq_true, if_false, bind_eq_bind,
    bind_some, isTable, ends]
  rw [if_pos empty, if_pos isPosition, if_pos full, rebuilt, bind_some, found,
    bind_some]

section
variable (depth : Nat) (stores : Stores t values) (nodup : values.Nodup)
include stores nodup

theorem insertValues_spec {size : Nat} (room : values.length < size)
    (enough : ∀ table, ¬(t.withHash size table).tooManyValues) (count : Nat) :
    ∀ i table, i + count = values.length →
      Indexed size table (values.take i) →
      ∃ table', insertValues (hashFindNested (depth + 1)) count i (t.withHash size table) =
          some (t.withHash size table') ∧ Indexed size table' values := by
  induction count with
  | zero =>
    intro i table all indexed
    rw [take_of_length_le (by omega)] at indexed
    exact ⟨table, rfl, indexed⟩
  | succ count ih =>
    intro i table all indexed
    have small : i < values.length := by omega
    have here : values[i]? = some values[i] := getElem?_eq_getElem small
    have length : (values.take i).length = i := length_take_of_le small.le
    have fresh : values[i] ∉ values.take i := by
      intro mem
      obtain ⟨j, below, same⟩ := getElem_of_mem mem
      rw [getElem_take] at same
      have index := (nodup.getElem_inj_iff).mp same
      omega
    obtain ⟨table', found, indexed'⟩ :=
      (hashFindNested_indexed (stores.withHash size table) ( take_prefix i values) indexed nodup
        (by rw [length]; exact small.trans room) values[i] depth rfl i).2.2 fresh
        (by rw [length]) (enough table)
    rw [take_concat_get'] at indexed'
    obtain ⟨result, rest, done⟩ := ih (i + 1) table' (by omega) indexed'
    refine ⟨result, ?_, done⟩
    have value : (t.withHash size table).bytesAt i ((t.withHash size table).len i) = values[i] := by
      have stored := stores.withHash size table
      rw [stored.len i _ here, stored.bytesAt here]
    rw [insertValues, value, found]
    exact rest

variable (few : values.length ≤ maxValues)
include few

theorem initHash_spec :
    ∃ table', initHash (hashFindNested (depth + 1)) t =
        some (t.withHash (hashSizeFor t.dicSize) table') ∧
      Ready (hashSizeFor t.dicSize) table' values ∧
      ¬(t.withHash (hashSizeFor t.dicSize) table').tooManyValues := by
  have few' : t.dicSize ≤ maxValues := by rw [stores.dicSize]; exact few
  obtain ⟨good, large, twice, bound⟩ := hashSizeFor_spec few'
  have dicSize := stores.dicSize
  have enough : ∀ table, ¬(t.withHash (hashSizeFor t.dicSize) table).tooManyValues :=
    fun table => not_tooMany_of_le few' twice
  obtain ⟨table', built, indexed⟩ := insertValues_spec depth stores nodup (by omega)
    enough t.dicSize 0 (fun _ => -1) (by omega) (indexed_empty good)
  refine ⟨table', built, ⟨indexed, by omega, large, ?_⟩, enough table'⟩
  unfold maxValues at few'
  omega

theorem exists_ready (hashed : Hashed t values) :
    ∃ size table, Ready size table values ∧ ∀ v pos,
      hashFindNested (depth + 2) t v pos =
        hashFindNested (depth + 2) (t.withHash size table) v pos := by
  rcases hashed with empty | ⟨table, isTable, ready⟩
  · obtain ⟨table, built, ready, -⟩ := initHash_spec depth stores nodup few
    refine ⟨_, table, ready, fun v pos => ?_⟩
    rw [hashFindNested, hashFindNested, empty]
    simp only [isNone_none, if_true, built, withHash, isNone_some, Bool.false_eq_true, if_false]
  · exact ⟨_, table, ready, fun v pos => by rw [withHash, ← isTable]⟩

/-- What `HashFind` does: it finds the code of a value, gives -1 for another string without a
position, and enters a new string with its position. -/
theorem hashFind_spec (hashed : Hashed t values) (v : Bytes) :
    (v ∈ values → ∀ pos, ∃ size table, Ready size table values ∧
      t.hashFind v pos = some (t.withHash size table, (values.idxOf v : Int))) ∧
    (v ∉ values → ∃ size table, Ready size table values ∧
      t.hashFind v (-1) = some (t.withHash size table, -1)) ∧
    (v ∉ values → ∃ size table, Ready size table (values ++ [v]) ∧
      t.hashFind v values.length = some (t.withHash size table, (values.length : Int))) := by
  obtain ⟨size, table, ready, same⟩ := exists_ready 0 stores nodup few hashed
  have found := fun pos => hashFindNested_indexed (stores.withHash size table)
    (prefix_refl values) ready.indexed nodup ready.room v 1 rfl pos
  refine ⟨fun mem pos => ⟨size, table, ready, ?_⟩, fun fresh => ⟨size, table, ready, ?_⟩,
    fun fresh => ?_⟩
  · rw [hashFind, same]
    exact (found pos).1 mem
  · rw [hashFind, same]
    exact (found (-1)).2.1 fresh rfl
  · by_cases full : (t.withHash size table).tooManyValues
    · -- the table is rebuilt and searched again
      obtain ⟨table₂, rebuilt, ready₂, enough⟩ :=
        initHash_spec 0 (stores.withHash size table) nodup few
      obtain ⟨row, ends, -, absent⟩ := findRow_spec (stores.withHash size table)
        (prefix_refl values) ready.indexed nodup ready.room v
      obtain ⟨table₃, inserted, indexed₃⟩ := (hashFindNested_indexed
        ((stores.withHash size table).withHash _ table₂) (prefix_refl values) ready₂.indexed nodup
        ready₂.room v 0 rfl values.length).2.2 fresh rfl enough
      have room := room_of_not_tooMany ready₂.large ready₂.small enough
      refine ⟨_, table₃, ⟨indexed₃, ?_, ready₂.large, ready₂.small⟩, ?_⟩
      · rw [length_append, ← stores.dicSize]
        exact room
      · rw [hashFind, same]
        exact hashFindNested_full rfl ends (absent fresh).1 (by omega) full rebuilt inserted
    · obtain ⟨table', inserted, indexed'⟩ := (found values.length).2.2 fresh rfl full
      have room := room_of_not_tooMany ready.large ready.small full
      refine ⟨size, table', ⟨indexed', ?_, ready.large, ready.small⟩, ?_⟩
      · rw [length_append, ← stores.dicSize]
        exact room
      · rw [hashFind, same]
        exact inserted

end

end

end Brighthouse.Core.FTree
