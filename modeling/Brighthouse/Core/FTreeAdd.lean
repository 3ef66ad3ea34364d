import Brighthouse.Core.FTreeHash

/-!
# Adding values to a dictionary

`Add` enlarges the tables and the buffer and appends the string.  What the tables say about
the values that were there stays the same.
-/

set_option autoImplicit false

namespace Brighthouse.Core.FTree

open Library Library.Binary64 List Function Option Nat

variable {v : Bytes} {size : Nat} {table : Nat → Int}

def savedSize (values : List Bytes) : Nat := 12 + 2 * values.length + values.flatten.length

/-- The dictionary of the given values, in the order of their codes; `width` is the limit for
their lengths. -/
structure Represents (width : Nat) (t : FTree) (values : List Bytes) : Prop where
  stores : Stores t values
  nodup : values.Nodup
  hashed : Hashed t values
  width : t.valueSize = width
  sized : t.compressedSize = 0 ∨ t.changed = true ∧ values ≠ [] ∨
    t.compressedSize = savedSize values

structure Limited (values : List Bytes) : Prop where
  few : values.length ≤ 214748300
  small : savedSize values + 2 ^ 16 ≤ 2 ^ 31

theorem Limited.of_append {values more : List Bytes} (limited : Limited (values ++ more)) :
    Limited values := by
  have few := limited.few
  have small := limited.small
  unfold savedSize at small
  rw [length_append] at few small
  rw [flatten_append, length_append] at small
  refine ⟨by omega, ?_⟩
  unfold savedSize
  omega

section
variable {t : FTree} {values : List Bytes}

/-! ## The steps of Add -/

theorem round53_six_fifths : 1 ≤ round53 (6 / 5) := by
  have one := round53_two_pow 0
  calc (1 : ℚ) = round53 (2 ^ 0) := by rw [one]; norm_num
    _ ≤ round53 (6 / 5) := round53_mono (by norm_num)

theorem le_scaled {n : Nat} (small : n ≤ 2 ^ 53) : n ≤ (truncate (mulDouble n (6 / 5))).toNat := by
  have product : (n : ℚ) ≤ n * round53 (6 / 5) :=
    le_mul_of_one_le_right (cast_nonneg n) round53_six_fifths
  have le := le_truncate (Int.natCast_nonneg n) (by exact_mod_cast le_mulDouble product small)
  omega

section
variable (stores : Stores t values)
include stores

theorem Stores.markChanged : Stores { t with changed := true } values :=
  { stores with }

theorem Stores.enlargeTables (few : values.length ≤ 214748300) :
    Stores t.enlargeTables values ∧ values.length + 1 ≤ t.enlargeTables.totalDicSize := by
  have dicSize := stores.dicSize
  have tables := stores.tables
  unfold FTree.enlargeTables
  split
  · rename_i full
    have scaled := le_scaled (n := t.totalDicSize + 10) (by omega)
    have enough : t.totalDicSize + 10 ≤
        if (truncate (mulDouble (t.totalDicSize + 10) (6 / 5))).toNat > 536870910 then
          t.totalDicSize + 10
        else (truncate (mulDouble (t.totalDicSize + 10) (6 / 5))).toNat := by
      split <;> omega
    refine ⟨⟨stores.allocated, stores.text, dicSize, fun i v here => ?_, fun i small => ?_, ?_,
      stores.buffer, stores.lastCode⟩, ?_⟩
    · have small := (List.getElem?_eq_some_iff.mp here).1
      exact (if_neg (by omega)).trans (stores.len i v here)
    · exact (if_neg (by omega)).trans (stores.offset i small)
    · dsimp only
      omega
    · dsimp only
      omega
  · exact ⟨stores, by omega⟩

theorem Stores.newValueOffset :
    (if t.dicSize = 0 then 0 else t.valueOffset (t.dicSize - 1) + t.len (t.dicSize - 1) : Int) =
      values.flatten.length := by
  have dicSize := stores.dicSize
  rcases eq_nil_or_concat values with rfl | ⟨before, last, rfl⟩
  · rw [if_pos (by simpa using dicSize)]
    rfl
  · rw [concat_eq_append] at *
    rw [length_append, length_singleton] at dicSize
    have index : t.dicSize - 1 = before.length := by omega
    have here : (before ++ [last])[before.length]? = some last := by simp
    rw [if_neg (by omega), index, stores.offset before.length (by simp), stores.len _ last here]
    simp

theorem Stores.enlargeBuffer (length : Nat)
    (small : values.flatten.length + length + 2 ^ 16 ≤ 2 ^ 31) (short : length < 2 ^ 16) :
    ∃ next, t.enlargeBuffer values.flatten.length length = some next ∧ Stores next values ∧
      values.flatten.length + length ≤ next.totalBufSize ∧ next.totalDicSize = t.totalDicSize ∧
      next.hashTable = t.hashTable ∧ next.hashSize = t.hashSize ∧ next.valueSize = t.valueSize ∧
      next.changed = t.changed := by
  have buffer := stores.buffer
  unfold FTree.enlargeBuffer
  split
  · rename_i full
    have scaled := le_scaled (n := t.totalBufSize + length + 10) (by omega)
    generalize isSize : (if (truncate (mulDouble (t.totalBufSize + length + 10) (6 / 5))).toNat >
        2147483647 then t.totalBufSize + length
      else (truncate (mulDouble (t.totalBufSize + length + 10) (6 / 5))).toNat) = newBufSize
    have enough : t.totalBufSize + length ≤ newBufSize ∧ newBufSize ≤ 2147483647 := by
      rw [← isSize]
      split <;> omega
    rw [if_neg (by omega)]
    refine ⟨_, rfl, ⟨rfl, ?_, stores.dicSize, stores.len, stores.offset, stores.tables, ?_,
      stores.lastCode⟩, ?_, rfl, rfl, rfl, rfl, rfl⟩
    · refine (Memory.load_congr fun i _ inside => ?_).trans stores.text
      exact if_neg (by omega)
    · dsimp only
      omega
    · dsimp only
      omega
  · exact ⟨t, rfl, stores, by omega, rfl, rfl, rfl, rfl, rfl⟩

theorem Stores.append (short : v.length < 2 ^ 16) (tables : values.length + 1 ≤ t.totalDicSize)
    (buffer : values.flatten.length + v.length ≤ t.totalBufSize) :
    Stores (t.append values.flatten.length v) (values ++ [v]) := by
  have dicSize := stores.dicSize
  refine ⟨rfl, ?_, ?_, fun i w here => ?_, fun i small => ?_, ?_, ?_, stores.lastCode⟩
  · change (t.memory.store (values.flatten.length : Int).toNat v).load 0 _ = _
    rw [Int.toNat_natCast, flatten_append, length_append, Memory.load_add,
      Memory.load_store_below v (by omega), stores.text]
    simp [Memory.load_store]
  · change t.dicSize + 1 = _
    rw [length_append, dicSize, length_singleton]
  · change update t.len t.dicSize _ i = _
    have inside := (List.getElem?_eq_some_iff.mp here).1
    rw [length_append] at inside
    rcases lt_or_eq_of_le (le_of_lt_succ inside) with before | rfl
    · rw [update_of_ne (by omega)]
      rw [getElem?_append_left before] at here
      exact stores.len i w here
    · rw [← dicSize, update_self]
      simp only [getElem?_concat_length, some.injEq] at here
      rw [← here, mod_eq_of_lt short]
  · change update t.valueOffset t.dicSize _ i = _
    rw [length_append] at small
    rcases lt_or_eq_of_le (le_of_lt_succ small) with before | rfl
    · rw [update_of_ne (by omega), take_append_of_le_length before.le]
      exact stores.offset i before
    · rw [← dicSize, update_self, dicSize, take_left]
  · rw [length_append]
    exact tables
  · change _ ≤ t.totalBufSize
    simpa using buffer

end

/-! ## Add -/

section
variable {width : Nat} (represents : Represents width t values)
include represents

theorem Represents.withHash (ready : Ready size table values) :
    Represents width (t.withHash size table) values :=
  ⟨represents.stores.withHash size table, represents.nodup, Or.inr ⟨table, rfl, ready⟩,
    represents.width, represents.sized⟩

theorem Represents.add_known (limited : Limited values) (known : v ∈ values) :
    ∃ next, t.add v = some (next, (values.idxOf v : Int)) ∧ Represents width next values := by
  have few := limited.few
  have dicSize := represents.stores.dicSize
  obtain ⟨size, table, ready, found⟩ := (hashFind_spec represents.stores represents.nodup
    (by unfold maxValues; omega) represents.hashed v).1 known t.dicSize
  have index := idxOf_lt_length_iff.mpr known
  refine ⟨t.withHash size table, ?_, represents.withHash ready⟩
  rw [add, if_neg (by omega), found]
  exact if_pos (by change _ < (t.dicSize : Int); omega)

theorem Represents.add_new (limited : Limited (values ++ [v]))
    (short : v.length < 2 ^ 16) (fresh : v ∉ values) :
    ∃ next, t.add v = some (next, (values.length : Int)) ∧
      Represents width next (values ++ [v]) := by
  have few := limited.of_append.few
  have small := limited.small
  have dicSize := represents.stores.dicSize
  rw [savedSize, length_append, flatten_append, length_append, flatten_singleton] at small
  obtain ⟨size, table, ready, found⟩ := (hashFind_spec represents.stores represents.nodup
    (by unfold maxValues; omega) represents.hashed v).2.2 fresh
  obtain ⟨tables, enough⟩ := (represents.stores.withHash size table).markChanged.enlargeTables few
  generalize isEnlarged : ({ t.withHash size table with changed := true } : FTree).enlargeTables =
    enlarged at tables enough
  have kept : enlarged.hashTable = some table ∧ enlarged.hashSize = size ∧
      enlarged.valueSize = width ∧ enlarged.changed = true := by
    rw [← isEnlarged, enlargeTables]
    split <;> exact ⟨rfl, rfl, represents.width, rfl⟩
  obtain ⟨next, buffered, stores, buffer, totalDicSize, isTable, isSize, isWidth, isChanged⟩ :=
    tables.enlargeBuffer v.length (by omega) short
  refine ⟨next.append values.flatten.length v, ?_, ⟨stores.append short
    (by rw [totalDicSize]; exact enough) buffer, ?_, ?_, ?_, ?_⟩⟩
  · rw [add, if_neg (by omega), dicSize, found]
    simp only [bind_eq_bind, bind_some]
    rw [if_neg (by change ¬((values.length : Int) < (t.dicSize : Int)); omega), isEnlarged,
      tables.newValueOffset, buffered, bind_some, stores.dicSize]
  · exact nodup_append.mpr ⟨represents.nodup, nodup_singleton v, fun w mem u last =>
      fun same => fresh (mem_singleton.mp last ▸ same ▸ mem)⟩
  · refine .inr ⟨table, isTable.trans kept.1, ?_⟩
    change Ready next.hashSize table (values ++ [v])
    rw [isSize, kept.2.1]
    exact ready
  · exact isWidth.trans kept.2.2.1
  · exact .inr (.inl ⟨isChanged.trans kept.2.2.2, by simp⟩)

end

end

end Brighthouse.Core.FTree
