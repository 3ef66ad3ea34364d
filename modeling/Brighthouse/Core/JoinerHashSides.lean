import Brighthouse.Core.ColumnBinEncoder
import Brighthouse.Core.JoinerHashExact

/-!
# The sides of a hash join

`ExecuteJoinConditions` chooses the side to be traversed, prepares the table and the outer
filter and executes the join.  If a key has too many copies in the table the join is
given up and executed once more with the sides switched (`UpdateJoinCondition` in
`core/Query_exeq_join.cpp`).
-/

set_option autoImplicit false

namespace Brighthouse.Core

open Library Library.EquiJoin JoinerHashTable List JoinerHash

inductive Side where
  | left
  | right
  deriving DecidableEq

structure HashJoin (α β : Type) where
  left : List (JoinPackrow β α)
  right : List (JoinPackrow α β)
  otherCond : List (α → β → Bool)
  /-- `right_dims`: the side that is filled with nulls in an outer join -/
  nullSide : Option Side
  nullOnly : Bool
  keySizes : List Nat
  keySizes_ne : keySizes ≠ []
  leftTupleSizes : List Nat
  rightTupleSizes : List Nat
  leftTupleSizes_ne : leftTupleSizes ≠ []
  rightTupleSizes_ne : rightTupleSizes ≠ []
  memoryLimit : Nat
  /-- whether the approximate numbers of distinct values ask for switching sides, when the
  side given comes first in the conditions -/
  switchByDistinct : Side → Bool

namespace HashJoin

variable {α β : Type} (q : HashJoin α β)

def leftRows : List (JoinerRow α) := q.left.flatMap JoinPackrow.rows

def rightRows : List (JoinerRow β) := q.right.flatMap JoinPackrow.rows

def rowsOf : Side → Nat
  | .left => q.leftRows.length
  | .right => q.rightRows.length

def other : Side → Side
  | .left => .right
  | .right => .left

/-- `switch_sides` when the conditions have the side `first` first -/
def switchSides (first : Side) : Bool :=
  let dim1Size := q.rowsOf first
  let dim2Size := q.rowsOf (other first)
  if 100000 < min dim1Size dim2Size then
    if 2 * dim2Size < dim1Size then true
    else if dim2Size < 2 * dim1Size then q.switchByDistinct first
    else false
  else decide (dim2Size < dim1Size)

def traversedSide (first : Side) (forceSwitchingSides : Bool) : Side :=
  if (q.switchSides first).xor forceSwitchingSides then other first else first

/-- `InitOuter`: the rows that are watched are those of the side without nulls. -/
def watch (traversed : Side) : WatchedSide :=
  match q.nullSide with
  | none => .neither
  | some side => if side = traversed then .matched else .traversed

def outerNullsOnly : Bool := q.nullSide.isSome && q.nullOnly

variable (tips : JoinTips)

def traverseLeft (force : Bool) : JoinerHash α β where
  traversed := q.leftRows
  matched := q.right
  otherCond := q.otherCond
  tips := tips
  watch := q.watch .left
  outerNullsOnly := q.outerNullsOnly
  forceSwitchingSides := force

def traverseRight (force : Bool) : JoinerHash β α where
  traversed := q.rightRows
  matched := q.left
  otherCond := q.otherCond.map fun cond b a => cond a b
  tips := tips
  watch := q.watch .right
  outerNullsOnly := q.outerNullsOnly
  forceSwitchingSides := force

def sideTupleSizes : Side → List Nat
  | .left => q.leftTupleSizes
  | .right => q.rightTupleSizes

/-- Row numbers are not stored if tuples are only counted and there are no other conditions. -/
def tupleSizes (traversed : Side) : List Nat :=
  if tips.countOnly && q.otherCond.isEmpty then [] else q.sideTupleSizes traversed

/-- The table for the traversed side; `jhash.Initialize` gets one and a half times its number
of tuples. -/
def initTable (traversed : Side) : Option JoinerHashTable :=
  initializeTable q.keySizes (q.tupleSizes tips traversed)
    (q.rowsOf traversed * 3 / 2) q.memoryLimit

def swapResult : JoinerHash.JoinResult β α → JoinerHash.JoinResult α β
  | .wrongSides => .wrongSides
  | .committed joinedTuples newMind => .committed joinedTuples (newMind.map Prod.swap)

def executeSide (traversed : Side) (force : Bool) :
    Option (Except String (JoinerHash.JoinResult α β)) :=
  match q.initTable tips traversed with
  | none => none
  | some h =>
    match traversed with
    | .left => (q.traverseLeft tips force).executeJoin h
    | .right => ((q.traverseRight tips force).executeJoin h).map (·.map swapResult)

/-- `UpdateJoinCondition`: the second run finds the conditions as the first one left them. -/
def execute : Option (Except String (JoinerHash.JoinResult α β)) :=
  let traversed := q.traversedSide .left false
  match q.executeSide tips traversed false with
  | some (.ok .wrongSides) => q.executeSide tips (q.traversedSide traversed true) true
  | result => result

/-! ## The SQL join -/

section
variable (partner : JoinerRow α → JoinerRow β → Bool)

/-- One tuple for each pair of partners, unless only null rows are wanted. -/
def pairTuples : List (Option α × Option β) :=
  if q.outerNullsOnly then []
  else (joined partner q.leftRows q.rightRows).map pairOf

/-- In an outer join one tuple for each row of the other side without a partner. -/
def outerTuples : List (Option α × Option β) :=
  match q.nullSide with
  | none => []
  | some .right =>
    (unmatchedLeft partner q.leftRows q.rightRows).map fun a => (some a.tuple, none)
  | some .left =>
    (unmatchedRight partner q.leftRows q.rightRows).map fun b => (none, some b.tuple)

end

def otherCondHold (a : α) (b : β) : Bool := q.otherCond.all fun cond => cond a b

/-- Partners by the encoded keys. -/
def partner (a : JoinerRow α) (b : JoinerRow β) : Bool :=
  (a.key.isSome && decide (b.key = a.key)) && q.otherCondHold a.tuple b.tuple

def expected : List (Option α × Option β) := q.pairTuples q.partner ++ q.outerTuples q.partner

section
variable {V : Type} [DecidableEq V] (leftValue : α → Option V) (rightValue : β → Option V)

/-- Partners by the values of the key columns; `none` if one of them is null. -/
def sqlPartner (a : JoinerRow α) (b : JoinerRow β) : Bool :=
  ((leftValue a.tuple).isSome && decide (rightValue b.tuple = leftValue a.tuple)) &&
    q.otherCondHold a.tuple b.tuple

def sqlJoin : List (Option α × Option β) :=
  q.pairTuples (q.sqlPartner leftValue rightValue) ++
    q.outerTuples (q.sqlPartner leftValue rightValue)

/-- Equal keys stand for equal values. -/
def KeysFaithful : Prop :=
  ∀ a ∈ q.leftRows, ∀ b ∈ q.rightRows, (a.key.isSome && decide (b.key = a.key)) =
    ((leftValue a.tuple).isSome && decide (rightValue b.tuple = leftValue a.tuple))

variable {q leftValue rightValue}

theorem sqlJoin_eq (faithful : q.KeysFaithful leftValue rightValue) :
    q.sqlJoin leftValue rightValue = q.expected := by
  have same : ∀ a ∈ q.leftRows, ∀ b ∈ q.rightRows,
      q.sqlPartner leftValue rightValue a b = q.partner a b := fun a isLeft b isRight => by
    rw [sqlPartner, partner, faithful a isLeft b isRight]
  rw [sqlJoin, expected, pairTuples, pairTuples, outerTuples, outerTuples, joined_congr same,
    unmatchedLeft_congr same, unmatchedRight_congr same]

end

/-- Rows can be numbered by filters. -/
structure Numbered (tips : JoinTips) : Prop where
  rows : ∀ side, q.rowsOf side ≤ maxRowNumber
  table : ∀ side h, q.initTable tips side = some h → h.noRows ≤ maxRowNumber

/-! ## Either side may be traversed -/

variable {q} {tips : JoinTips} {force : Bool}

theorem expected_traverseLeft : (q.traverseLeft tips force).expected = q.expected := by
  have outer : (q.traverseLeft tips force).outerTuples q.leftRows q.rightRows =
      q.outerTuples q.partner := by
    rw [traverseLeft, watch, outerTuples]
    cases q.nullSide with
    | none => rfl
    | some side => cases side <;> rfl
  rw [expected, ← outer]
  rfl

theorem partner_traverseRight :
    (q.traverseRight tips force).partner = fun b a => q.partner a b := by
  funext b a
  have keys : (b.key.isSome && decide (a.key = b.key)) =
      (a.key.isSome && decide (b.key = a.key)) := by
    by_cases same : a.key = b.key
    · simp [same]
    · simp [same, Ne.symm same]
  have others : ((q.traverseRight tips force).otherCond.all fun cond => cond b.tuple a.tuple) =
      q.otherCondHold a.tuple b.tuple := by
    rw [traverseRight, all_map]
    rfl
  rw [JoinerHash.partner, partner, keys, others]

theorem expected_traverseRight :
    ((q.traverseRight tips force).expected.map Prod.swap).Perm q.expected := by
  have pairs : (((joined (fun b a => q.partner a b) q.rightRows q.leftRows).map
      pairOf).map Prod.swap).Perm
      ((joined q.partner q.leftRows q.rightRows).map pairOf) := by
    have swapped := (@joined_swap _ _ q.partner q.leftRows q.rightRows).symm.map fun pair =>
      (some pair.2.tuple, some pair.1.tuple)
    rw [map_map] at swapped ⊢
    exact swapped
  have outer : ((q.traverseRight tips force).outerTuples q.rightRows q.leftRows).map Prod.swap =
      q.outerTuples q.partner := by
    rw [JoinerHash.outerTuples, partner_traverseRight, traverseRight, watch, outerTuples]
    cases q.nullSide with
    | none => rfl
    | some side =>
      cases side with
      | left => exact map_map
      | right => exact map_map
  have split : (q.traverseRight tips force).expected = (q.traverseRight tips force).kept
      ((joined (fun b a => q.partner a b) q.rightRows q.leftRows).map pairOf) ++
        (q.traverseRight tips force).outerTuples q.rightRows q.leftRows := by
    rw [JoinerHash.expected, partner_traverseRight]
    rfl
  rw [split, map_append, outer, expected, pairTuples]
  refine List.Perm.append_right _ ?_
  change (map Prod.swap (if q.outerNullsOnly then [] else _)).Perm _
  split
  · exact List.Perm.refl _
  · exact pairs

theorem switchSides_small {first : Side}
    (small : min (q.rowsOf first) (q.rowsOf (other first)) ≤ 100000) :
    q.switchSides first = decide (q.rowsOf (other first) < q.rowsOf first) :=
  if_neg (Nat.not_lt.mpr small)

theorem traversedSide_smaller {side : Side} (chosen : q.traversedSide .left false = side)
    (empty : q.rowsOf (other side) = 0) : q.rowsOf side = 0 := by
  rw [traversedSide, Bool.xor_false] at chosen
  cases side with
  | left =>
    have none' : q.rowsOf .right = 0 := empty
    have small : min (q.rowsOf .left) (q.rowsOf (other .left)) ≤ 100000 := by
      rw [show other .left = .right from rfl, none', min_zero]
      exact Nat.zero_le _
    by_contra some'
    rw [switchSides_small small, show other .left = .right from rfl, none',
      if_pos (decide_eq_true (pos_of_ne_zero some'))] at chosen
    cases chosen
  | right =>
    have none' : q.rowsOf .left = 0 := empty
    have small : min (q.rowsOf .left) (q.rowsOf (other .left)) ≤ 100000 := by
      rw [none']
      exact Nat.zero_le _
    rw [switchSides_small small, none'] at chosen
    cases chosen

/-! ## The tuples committed -/

theorem initTable_fresh (side : Side) :
    ∃ h, q.initTable tips side = some h ∧ Fresh h ∧ 0 < h.rowsLimit ∧
      h.forCountOnly = (tips.countOnly && q.otherCond.isEmpty) := by
  obtain ⟨h, made⟩ : ∃ h, q.initTable tips side = some h := by
    rw [initTable, initializeTable]
    rw [if_neg q.keySizes_ne]
    exact ⟨_, rfl⟩
  obtain ⟨fresh, columns⟩ := fresh_of_initializeTable made
  refine ⟨h, made, fresh, rowsLimit_pos made, columns.trans ?_⟩
  have stored : q.sideTupleSizes side ≠ [] := by
    cases side with
    | left => exact q.leftTupleSizes_ne
    | right => exact q.rightTupleSizes_ne
  rw [tupleSizes]
  cases tips.countOnly && q.otherCond.isEmpty with
  | true => rfl
  | false => exact isEmpty_eq_false_iff.mpr stored

theorem initOuter_ok {τ μ : Type} {j : JoinerHash τ μ} {h : JoinerHashTable}
    (rows : j.matchedRows.length ≤ maxRowNumber) (table : h.noRows ≤ maxRowNumber) :
    ∃ f, j.initOuter h = .ok f := by
  have made : ∀ n allOnes, n ≤ maxRowNumber → ∃ f, Filter.ofRows n allOnes = .ok f :=
    fun n allOnes small => ⟨_, if_neg (not_lt.mpr small)⟩
  rw [initOuter]
  split
  · exact made _ _ rows
  · split
    · exact made _ _ table
    · exact ⟨_, rfl⟩

def Commits (q : HashJoin α β) (tips : JoinTips)
    (result : Option (Except String (JoinerHash.JoinResult α β))) : Prop :=
  ∃ newMind, result = some (.ok (.committed q.expected.length newMind)) ∧
    (tips.countOnly = false → newMind.Perm q.expected)

section
variable (numbered : q.Numbered tips) (unlimited : tips.limit = none)
  (tuples : (tips.countOnly && q.otherCond.isEmpty) = false)
include numbered unlimited tuples

theorem executeSide_tuples (side : Side) (force : Bool)
    (empty : q.rowsOf (other side) = 0 → q.rowsOf side = 0) :
    q.executeSide tips side force = some (.ok .wrongSides) ∧ force = false ∧
        q.rowsOf .left ≠ 0 ∧ q.rowsOf .right ≠ 0 ∨
      q.Commits tips (q.executeSide tips side force) := by
  obtain ⟨h, made, fresh, positive, columns⟩ := @initTable_fresh _ _ q tips side
  have table := numbered.table side h made
  rw [executeSide, made]
  cases side with
  | left =>
    obtain ⟨f, filter⟩ := @initOuter_ok _ _ (q.traverseLeft tips force) h
      (numbered.rows .right) table
    have other' : (q.traverseLeft tips force).withoutTuples = false := by
      rw [withoutTuples, otherCondExist, Bool.not_not]
      exact tuples
    rcases executeJoin_tuples fresh positive (columns.trans tuples) other'
      unlimited filter (fun _ noRight => eq_nil_of_length_eq_zero
        (empty (length_eq_zero_iff.mpr noRight))) with
      ⟨gaveUp, notForced, some₁, some₂⟩ | ⟨newMind, result, perm⟩
    · exact .inl ⟨gaveUp, notForced, length_eq_zero_iff.not.mpr some₁,
        length_eq_zero_iff.not.mpr some₂⟩
    · rw [expected_traverseLeft] at result perm
      exact .inr ⟨newMind, result, perm⟩
  | right =>
    obtain ⟨f, filter⟩ := @initOuter_ok _ _ (q.traverseRight tips force) h
      (numbered.rows .left) table
    have other' : (q.traverseRight tips force).withoutTuples = false := by
      rw [withoutTuples, otherCondExist, Bool.not_not, traverseRight,
        isEmpty_map]
      exact tuples
    rcases executeJoin_tuples fresh positive (columns.trans tuples) other'
      unlimited filter (fun _ noLeft => eq_nil_of_length_eq_zero
        (empty (length_eq_zero_iff.mpr noLeft))) with
      ⟨gaveUp, notForced, some₁, some₂⟩ | ⟨newMind, result, perm⟩
    · dsimp only
      rw [gaveUp]
      exact .inl ⟨rfl, notForced, length_eq_zero_iff.not.mpr some₂,
        length_eq_zero_iff.not.mpr some₁⟩
    · have swapped := @expected_traverseRight _ _ q tips force
      have count := swapped.length_eq
      rw [length_map] at count
      refine .inr ⟨newMind.map Prod.swap, ?_, fun building => ?_⟩
      · dsimp only
        rw [result, count]
        rfl
      · exact ((perm building).map Prod.swap).trans swapped

theorem execute_tuples : q.Commits tips (q.execute tips) := by
  rw [execute]
  rcases executeSide_tuples numbered unlimited tuples (q.traversedSide .left false) false
    (traversedSide_smaller rfl) with ⟨gaveUp, -, someLeft, someRight⟩ | ⟨newMind, result, perm⟩
  · rw [gaveUp]
    obtain ⟨side, isSide⟩ : ∃ side, q.traversedSide (q.traversedSide .left false) true = side :=
      ⟨_, rfl⟩
    rw [isSide]
    have bothSome : q.rowsOf (other side) = 0 → q.rowsOf side = 0 := by
      intro empty
      cases side with
      | left => exact absurd empty someRight
      | right => exact absurd empty someLeft
    rcases executeSide_tuples numbered unlimited tuples side true bothSome with
      ⟨-, forced, -⟩ | commits
    · cases forced
    · exact commits
  · rw [result]
    exact ⟨newMind, rfl, perm⟩

end

/-- A packrow of rows without statistics that could omit it. -/
def plainPackrow {τ μ : Type} (rows : List (JoinerRow μ)) (rows_ne : rows ≠ []) :
    JoinPackrow τ μ where
  rows := rows
  columns := [.number (some 0) (some 1) (fun _ => false) true]
  constantKey := []
  rows_ne := rows_ne
  columns_ne := List.cons_ne_nil _ _
  omits_sound := by
    intro column member put omits
    rw [List.mem_singleton.mp member] at omits
    cases omits
  constant_sound := fun constant => by cases constant _ List.mem_cons_self

/-- Two left rows, one of them with a null key, and one right row that is null-extended. -/
def leftOuterJoin : HashJoin Nat Nat where
  left := [plainPackrow [⟨10, some [1, 2, 3, 4]⟩, ⟨11, none⟩] (List.cons_ne_nil _ _)]
  right := [plainPackrow [⟨20, some [1, 2, 3, 4]⟩] (List.cons_ne_nil _ _)]
  otherCond := []
  nullSide := some .right
  nullOnly := false
  keySizes := [4]
  keySizes_ne := List.cons_ne_nil _ _
  leftTupleSizes := [4]
  rightTupleSizes := [4]
  leftTupleSizes_ne := List.cons_ne_nil _ _
  rightTupleSizes_ne := List.cons_ne_nil _ _
  memoryLimit := 0
  switchByDistinct := fun _ => false

theorem numbered_of_noRows (rows : ∀ side, q.rowsOf side ≤ 100)
    (size : ∀ side, (q.initTable tips side).map (·.noRows) = some 277) : q.Numbered tips where
  rows := fun side => (rows side).trans (by decide)
  table := by
    intro side h made
    have isSize := size side
    rw [made] at isSize
    have noRows : h.noRows = 277 := Option.some.inj isSize
    rw [noRows]
    decide

theorem leftOuterJoin_numbered (countOnly : Bool) : leftOuterJoin.Numbered ⟨countOnly, none⟩ :=
  numbered_of_noRows (by rintro (_ | _) <;> decide)
    (by cases countOnly <;> rintro (_ | _) <;> decide +kernel)

/-! ## Packrows of an integer key column -/

section IntColumn
variable {τ μ : Type} (value : Bytes → Int)

/-- `min_found` and `max_found` after the rows have been put into the table; `value` is the
value of a key. -/
def foundRange (put : List (JoinerRow τ)) : Int × Int :=
  (put.filterMap JoinerRow.key).foldr
    (fun key found => (min (value key) found.1, max (value key) found.2)) (plusInf64, minusInf64)

/-- `EncoderInt::ImpossibleValues` for bounds that are not null. -/
def impossibleValues (packMin packMax : Int) (found : Int × Int) : Bool :=
  found.1 != plusInf64 && (found.2 < packMin || packMax < found.1)

/-- The bounds of a pack, and the key `minKey` of the lower one. -/
structure IntColumn (rows : List (JoinerRow μ)) (packMin packMax : Int) (nullsPossible : Bool)
    (minKey : Bytes) : Prop where
  bounds : ∀ row ∈ rows, ∀ key ∈ row.key, packMin ≤ value key ∧ value key ≤ packMax
  notNull : nullsPossible = false → ∀ row ∈ rows, row.key ≠ none
  minimum : ∀ row ∈ rows, ∀ key ∈ row.key, value key = packMin → key = minKey

variable {value}

theorem foundRange_bounds {put : List (JoinerRow τ)} {key : Bytes}
    (isPut : key ∈ put.filterMap JoinerRow.key) :
    (foundRange value put).1 ≤ value key ∧ value key ≤ (foundRange value put).2 := by
  rw [foundRange]
  generalize put.filterMap JoinerRow.key = keys at isPut
  induction keys with
  | nil => cases isPut
  | cons first keys ih =>
    rw [foldr_cons]
    rcases mem_cons.mp isPut with rfl | later
    · exact ⟨min_le_left _ _, le_max_left _ _⟩
    · exact ⟨(min_le_right _ _).trans (ih later).1, (ih later).2.trans (le_max_right _ _)⟩

def intPackrow {rows : List (JoinerRow μ)} {packMin packMax : Int} {nullsPossible : Bool}
    {minKey : Bytes} (rows_ne : rows ≠ [])
    (column : IntColumn value rows packMin packMax nullsPossible minKey) : JoinPackrow τ μ where
  rows := rows
  columns := [.number (some packMin) (some packMax)
    (fun put => impossibleValues packMin packMax (foundRange value put)) nullsPossible]
  constantKey := minKey
  rows_ne := rows_ne
  columns_ne := cons_ne_nil _ _
  omits_sound := by
    intro rough isColumn put omits row isRow other isOther key isKey same
    rw [mem_singleton.mp isColumn] at omits
    have found := @foundRange_bounds _ value _ _ (mem_filterMap.mpr ⟨other, isOther, same⟩)
    have bounds := column.bounds row isRow key isKey
    simp only [ColumnRough.omits, impossibleValues, Option.isNone_some, Bool.false_or,
      Bool.and_eq_true, Bool.or_eq_true, decide_eq_true_eq] at omits
    omega
  constant_sound := by
    intro constant row isRow
    have uniform := constant _ (mem_singleton_self _)
    simp only [ColumnRough.constant, Bool.and_eq_true, beq_iff_eq, Option.some.injEq,
      Bool.not_eq_true'] at uniform
    obtain ⟨key, isKey⟩ := Option.ne_none_iff_exists'.mp (column.notNull uniform.2 row isRow)
    have bounds := column.bounds row isRow key isKey
    rw [isKey, column.minimum row isRow key isKey (by omega)]

end IntColumn

/-! ## Examples -/

open ColumnBinEncoder

/-- The encoder of key columns with the values 0 to 200. -/
def ageEncoder : EncoderInt := ⟨false, 0, 0, 200, 1⟩

def ageRow (tuple : Nat × Option Int) : JoinerRow (Nat × Option Int) :=
  ⟨tuple, tuple.2.map ageEncoder.encode⟩

def ageOf (key : Bytes) : Int := key.foldl (fun v byte => v * 256 + byte.val) 0

/-- On the left an ordinary packrow, a uniform one and one with an impossible value. -/
def ageJoin : HashJoin (Nat × Option Int) (Nat × Option Int) where
  left := [
    @intPackrow _ _ ageOf ([(10, some 5), (11, some 6)].map ageRow) 5 6 false [5]
      (cons_ne_nil _ _) ⟨by decide, by decide, by decide⟩,
    @intPackrow _ _ ageOf ([(12, some 7), (13, some 7)].map ageRow) 7 7 false [7]
      (cons_ne_nil _ _) ⟨by decide, by decide, by decide⟩,
    @intPackrow _ _ ageOf ([(14, some 200)].map ageRow) 200 200 false [200]
      (cons_ne_nil _ _) ⟨by decide, by decide, by decide⟩]
  right := [@intPackrow _ _ ageOf ([(20, some 5), (21, some 7), (22, none)].map ageRow) 5 7 true [5]
    (cons_ne_nil _ _) ⟨by decide, by decide, by decide⟩]
  otherCond := []
  nullSide := some .right
  nullOnly := false
  keySizes := [1]
  keySizes_ne := cons_ne_nil _ _
  leftTupleSizes := [4]
  rightTupleSizes := [4]
  leftTupleSizes_ne := cons_ne_nil _ _
  rightTupleSizes_ne := cons_ne_nil _ _
  memoryLimit := 0
  switchByDistinct := fun _ => false

theorem ageJoin_numbered : ageJoin.Numbered ⟨false, none⟩ :=
  numbered_of_noRows (by rintro (_ | _) <;> decide) (by rintro (_ | _) <;> decide +kernel)

def stringColumn (roughMax : Int) (isInt64 : Word64.IsInt64 roughMax) (dictionary : List Bytes) :
    VirtualColumn where
  type := ⟨.varchar, 0, true, ColumnType.new.scale_le⟩
  collation := ⟨0, false, fun _ _ => 0⟩
  nullsPossible := false
  roughMin := 0
  roughMax
  dictionary
  min_isInt64 := Word64.isInt64_zero
  max_isInt64 := isInt64

def byteStrings : VirtualColumn := stringColumn 255 (by decide) ((finRange 256).map ([·]))

def twoStrings : VirtualColumn := stringColumn 1 (by decide) [[0, 0], [255]]

def lookupEncoder : ColumnValueEncoder := .lookup ⟨⟨false, 1, 0, 255, 1⟩, [-1, 255]⟩

def lookupRow (second : Bool) (tuple : Nat × Option Int) : JoinerRow (Nat × Option Int) :=
  ⟨tuple, tuple.2.bind (lookupEncoder.encode byteStrings.type second)⟩

/-- The string 255 of one byte, and on the other side the strings 0 0 and 255. -/
def lookupJoin : HashJoin (Nat × Option Int) (Nat × Option Int) :=
  { ageJoin with
    left := [plainPackrow ([(10, some 255)].map (lookupRow false)) (cons_ne_nil _ _)]
    right := [plainPackrow ([(20, some 0), (21, some 1)].map (lookupRow true)) (cons_ne_nil _ _)]
    nullSide := none }

end HashJoin

end Brighthouse.Core
