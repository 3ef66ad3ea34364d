import Brighthouse.Core.CommonDefinitions

/-!
# Quantified comparisons

`Descriptor::CheckSetCondition` decides `IN`, `NOT IN` and the `ALL` and `ANY` forms of the
comparisons from the membership test, the minimum or the maximum of a set column, or in a loop.
The meaning in SQL is a conjunction or a disjunction of comparisons in three-valued logic.
-/

set_option autoImplicit false

namespace Brighthouse.Core

open Bool

inductive BHTribool where
  | isTrue
  | isFalse
  | isUnknown
  deriving DecidableEq

def BHTribool.not : BHTribool → BHTribool
  | .isTrue => .isFalse
  | .isFalse => .isTrue
  | .isUnknown => .isUnknown

inductive SetOp where
  | isIn
  | notIn
  | all (op : CompareOp)
  | any (op : CompareOp)

variable {α : Type} [LinearOrder α]

instance (op : CompareOp) (x y : α) : Decidable (op.Compares x y) :=
  match op with
  | .eq => inferInstanceAs (Decidable (x = y))
  | .notEq => inferInstanceAs (Decidable (x ≠ y))
  | .less => inferInstanceAs (Decidable (x < y))
  | .lessEq => inferInstanceAs (Decidable (x ≤ y))
  | .more => inferInstanceAs (Decidable (y < x))
  | .moreEq => inferInstanceAs (Decidable (y ≤ x))

/-! ## The meaning in SQL -/

namespace BHTribool

def and : BHTribool → BHTribool → BHTribool
  | .isTrue, .isTrue => .isTrue
  | .isFalse, _ | _, .isFalse => .isFalse
  | _, _ => .isUnknown

def or : BHTribool → BHTribool → BHTribool
  | .isFalse, .isFalse => .isFalse
  | .isTrue, _ | _, .isTrue => .isTrue
  | _, _ => .isUnknown

def comparison (op : CompareOp) : Option α → Option α → BHTribool
  | some x, some y => if op.Compares x y then .isTrue else .isFalse
  | _, _ => .isUnknown

def compareAll (op : CompareOp) (val : Option α) (values : List (Option α)) : BHTribool :=
  values.foldr (fun y res => (comparison op val y).and res) .isTrue

def compareAny (op : CompareOp) (val : Option α) (values : List (Option α)) : BHTribool :=
  values.foldr (fun y res => (comparison op val y).or res) .isFalse

end BHTribool

open BHTribool List

def SetOp.sqlValue (op : SetOp) (val : Option α) (values : List (Option α)) : BHTribool :=
  match op with
  | .isIn => compareAny .eq val values
  | .notIn => (compareAny .eq val values).not
  | .all op => compareAll op val values
  | .any op => compareAny op val values

/-! ## The code -/

def compareValues (op : CompareOp) : Option α → Option α → Bool
  | some x, some y => decide (op.Compares x y)
  | _, _ => false

/-- The rows of a set column, nulls included. -/
abbrev MultiValColumn (α : Type) := List (Option α)

namespace MultiValColumn

variable (mvc : MultiValColumn α)

def noValues : Nat := mvc.length

def containsNull : Bool := mvc.any Option.isNone

def containsValue (val : Option α) : BHTribool := compareAny .eq val mvc

def getSetMin : Option α := mvc.reduceOption.min?

def getSetMax : Option α := mvc.reduceOption.max?

end MultiValColumn

def checkAll (op : CompareOp) (val aggr : Option α) (mvc : MultiValColumn α) : Bool :=
  mvc.noValues == 0 ||
    !(val.isNone || aggr.isNone || mvc.containsNull || !compareValues op val aggr)

def checkAny (op : CompareOp) (val aggr : Option α) (mvc : MultiValColumn α) : Bool :=
  mvc.noValues != 0 && !(val.isNone || aggr.isNone || !compareValues op val aggr)

/-- Only `IN` and `NOT IN` are encoded. -/
inductive SetCondition where
  | encoded (notIn : Bool)
  | plain (op : SetOp)

def SetCondition.op : SetCondition → SetOp
  | .encoded false => .isIn
  | .encoded true => .notIn
  | .plain op => op

def checkSetCondition (val : Option α) (mvc : MultiValColumn α) : SetCondition → Bool
  | .encoded notIn =>
    if val.isNone then notIn && mvc.noValues == 0
    else (if notIn then (mvc.containsValue val).not else mvc.containsValue val) == .isTrue
  | .plain (.all .eq) => mvc.all fun y => !(val.isNone || y.isNone || !compareValues .eq val y)
  | .plain .isIn | .plain (.any .eq) => val.isSome && mvc.containsValue val == .isTrue
  | .plain .notIn | .plain (.all .notEq) =>
    !(val.isNone && mvc.noValues != 0) && (mvc.containsValue val).not == .isTrue
  | .plain (.any .notEq) =>
    val.isSome && mvc.any fun y => y.isSome && compareValues .notEq val y
  | .plain (.all op) =>
    checkAll op val (if op = .less ∨ op = .lessEq then mvc.getSetMin else mvc.getSetMax) mvc
  | .plain (.any op) =>
    checkAny op val (if op = .more ∨ op = .moreEq then mvc.getSetMin else mvc.getSetMax) mvc

/-! ## The code decides the meaning -/

variable {op : CompareOp} {val aggr : Option α} {values : List (Option α)} {R : α → α → Prop}

theorem compareValues_iff {y : Option α} :
    compareValues op val y = true ↔ ∃ x z, val = some x ∧ y = some z ∧ op.Compares x z := by
  cases val <;> cases y <;> simp [compareValues]

theorem comparison_eq_isTrue (y : Option α) :
    comparison op val y = .isTrue ↔ compareValues op val y = true := by
  cases val <;> cases y <;> simp [comparison, compareValues]

theorem compareAll_eq_isTrue :
    compareAll op val values = .isTrue ↔ ∀ y ∈ values, compareValues op val y = true := by
  have and_isTrue : ∀ a b : BHTribool, a.and b = .isTrue ↔ a = .isTrue ∧ b = .isTrue := by
    intro a b
    cases a <;> cases b <;> decide
  induction values with
  | nil => simp [compareAll]
  | cons y values ih =>
    rw [forall_mem_cons]
    exact (and_isTrue _ _).trans (and_congr (comparison_eq_isTrue y) ih)

theorem compareAny_eq_isTrue :
    compareAny op val values = .isTrue ↔ ∃ y ∈ values, compareValues op val y = true := by
  have or_isTrue : ∀ a b : BHTribool, a.or b = .isTrue ↔ a = .isTrue ∨ b = .isTrue := by
    intro a b
    cases a <;> cases b <;> decide
  induction values with
  | nil => simp [compareAny]
  | cons y values ih =>
    rw [exists_mem_cons_iff]
    exact (or_isTrue _ _).trans (or_congr (comparison_eq_isTrue y) ih)

theorem not_compareAny_eq : (compareAny .eq val values).not = compareAll .notEq val values := by
  have not_or : ∀ a b : BHTribool, (a.or b).not = a.not.and b.not := by
    intro a b
    cases a <;> cases b <;> rfl
  have not_comparison : ∀ y, (comparison .eq val y).not = comparison .notEq val y := by
    intro y
    rcases val with _ | x <;> rcases y with _ | y <;> try rfl
    by_cases same : x = y <;> simp [comparison, CompareOp.Compares, BHTribool.not, same]
  induction values with
  | nil => rfl
  | cons y values ih =>
    rw [compareAny, foldr_cons, not_or, not_comparison]
    exact congrArg _ ih

/-- `aggr` is the first of the members that are not null. -/
structure Extreme (R : α → α → Prop) (values : List (Option α)) (aggr : Option α) : Prop where
  member : ∀ m, aggr = some m → some m ∈ values
  bound : ∀ m y, aggr = some m → some y ∈ values → R m y
  none : aggr = none → ∀ y, some y ∉ values

theorem extreme_min : Extreme (· ≤ ·) values values.reduceOption.min? where
  member m isMin := reduceOption_mem_iff.mp (min?_eq_some_iff.mp isMin).1
  bound m y isMin inside :=
    (min?_eq_some_iff.mp isMin).2 y (reduceOption_mem_iff.mpr inside)
  none empty y inside := by
    rw [min?_eq_none_iff] at empty
    exact not_mem_nil (empty ▸ reduceOption_mem_iff.mpr inside)

theorem extreme_max : Extreme (· ≥ ·) values values.reduceOption.max? where
  member m isMax := reduceOption_mem_iff.mp (max?_eq_some_iff.mp isMax).1
  bound m y isMax inside :=
    (max?_eq_some_iff.mp isMax).2 y (reduceOption_mem_iff.mpr inside)
  none empty y inside := by
    rw [max?_eq_none_iff] at empty
    exact not_mem_nil (empty ▸ reduceOption_mem_iff.mpr inside)

section
variable (extreme : Extreme R values aggr)
include extreme

theorem checkAll_iff (keeps : ∀ {x m y}, R m y → op.Compares x m → op.Compares x y) :
    checkAll op val aggr values = true ↔ compareAll op val values = .isTrue := by
  rw [compareAll_eq_isTrue]
  simp only [checkAll, MultiValColumn.noValues, MultiValColumn.containsNull, or_eq_true,
    beq_iff_eq, length_eq_zero_iff, not_eq_true', or_eq_false_iff,
    not_eq_false', any_eq_false, Option.isNone_iff_eq_none]
  constructor
  · rintro (rfl | ⟨⟨_, noNull⟩, holds⟩) y inside
    · cases inside
    · obtain ⟨x, m, rfl, rfl, compares⟩ := compareValues_iff.mp holds
      obtain ⟨z, rfl⟩ := Option.ne_none_iff_exists'.mp (noNull y inside)
      exact compareValues_iff.mpr ⟨x, z, rfl, rfl, keeps (extreme.bound m z rfl inside) compares⟩
  · intro all
    refine or_iff_not_imp_left.mpr fun nonempty => ?_
    obtain ⟨y, inside⟩ := exists_mem_of_ne_nil values nonempty
    obtain ⟨x, z, rfl, rfl, -⟩ := compareValues_iff.mp (all y inside)
    cases isAggr : aggr with
    | none => exact absurd inside (extreme.none isAggr z)
    | some m =>
      refine ⟨⟨⟨rfl, rfl⟩, fun y inside isNull => ?_⟩, all _ (extreme.member m isAggr)⟩
      obtain ⟨_, z, _, rfl, _⟩ := compareValues_iff.mp (all y inside)
      cases isNull

theorem checkAny_iff (keeps : ∀ {x m y}, R m y → op.Compares x y → op.Compares x m) :
    checkAny op val aggr values = true ↔ compareAny op val values = .isTrue := by
  rw [compareAny_eq_isTrue]
  simp only [checkAny, MultiValColumn.noValues, and_eq_true, bne_iff_ne, ne_eq,
    length_eq_zero_iff, not_eq_true', or_eq_false_iff, not_eq_false']
  constructor
  · rintro ⟨_, _, holds⟩
    obtain ⟨x, m, rfl, rfl, -⟩ := compareValues_iff.mp holds
    exact ⟨some m, extreme.member m rfl, holds⟩
  · rintro ⟨y, inside, holds⟩
    obtain ⟨x, z, rfl, rfl, compares⟩ := compareValues_iff.mp holds
    cases isAggr : aggr with
    | none => exact absurd inside (extreme.none isAggr z)
    | some m =>
      exact ⟨ne_nil_of_mem inside, ⟨rfl, rfl⟩,
        compareValues_iff.mpr ⟨x, m, rfl, rfl, keeps (extreme.bound m z isAggr inside) compares⟩⟩

end

theorem contains_iff (val : Option α) (values : List (Option α)) :
    (val.isSome && compareAny .eq val values == .isTrue) = true ↔
      compareAny .eq val values = .isTrue := by
  rw [and_eq_true, beq_iff_eq]
  refine and_iff_right_of_imp fun isTrue => ?_
  obtain ⟨y, _, holds⟩ := compareAny_eq_isTrue.mp isTrue
  obtain ⟨x, _, rfl, _⟩ := compareValues_iff.mp holds
  rfl

theorem notContains_iff (val : Option α) (values : List (Option α)) :
    (!(val.isNone && values.length != 0) && (compareAny .eq val values).not == .isTrue) = true ↔
      (compareAny .eq val values).not = .isTrue := by
  rw [and_eq_true, beq_iff_eq]
  refine and_iff_right_of_imp fun isTrue => ?_
  rw [not_compareAny_eq, compareAll_eq_isTrue] at isTrue
  cases values with
  | nil => simp
  | cons y values =>
    obtain ⟨x, _, rfl, _⟩ := compareValues_iff.mp (isTrue y mem_cons_self)
    rfl

theorem checkSetCondition_iff (condition : SetCondition) (val : Option α)
    (values : MultiValColumn α) :
    checkSetCondition val values condition = true ↔
      condition.op.sqlValue val values = .isTrue := by
  match condition with
  | .encoded false =>
    cases val with
    | none => exact contains_iff none values
    | some x => exact contains_iff (some x) values
  | .encoded true =>
    cases val with
    | none =>
      refine Iff.trans ?_ (notContains_iff none values)
      cases values <;> rfl
    | some x => exact notContains_iff (some x) values
  | .plain .isIn | .plain (.any .eq) => exact contains_iff val values
  | .plain .notIn => exact notContains_iff val values
  | .plain (.all .notEq) =>
    exact (notContains_iff val values).trans (by rw [not_compareAny_eq]; rfl)
  | .plain (.all .eq) =>
    refine all_eq_true.trans (Iff.trans ?_ compareAll_eq_isTrue.symm)
    refine forall₂_congr fun y _ => ?_
    cases val <;> cases y <;> simp [compareValues]
  | .plain (.any .notEq) =>
    refine Iff.trans ?_ compareAny_eq_isTrue.symm
    cases val with
    | none => simp [checkSetCondition, compareValues]
    | some x =>
      refine any_eq_true.trans (exists_congr fun y => and_congr_right fun _ => ?_)
      cases y <;> simp [compareValues]
  | .plain (.all .less) => exact checkAll_iff extreme_min fun le less => less.trans_le le
  | .plain (.all .lessEq) => exact checkAll_iff extreme_min fun le lessEq => lessEq.trans le
  | .plain (.any .more) => exact checkAny_iff extreme_min fun le more => more.trans_le' le
  | .plain (.any .moreEq) => exact checkAny_iff extreme_min fun le moreEq => le.trans moreEq
  | .plain (.any .less) => exact checkAny_iff extreme_max fun le less => less.trans_le le
  | .plain (.any .lessEq) => exact checkAny_iff extreme_max fun le lessEq => lessEq.trans le
  | .plain (.all .more) => exact checkAll_iff extreme_max fun le more => more.trans_le' le
  | .plain (.all .moreEq) => exact checkAll_iff extreme_max fun le moreEq => le.trans moreEq

end Brighthouse.Core
