import Brighthouse.Core.CommonDefinitions
import Brighthouse.Library.Bytes

/-!
# Comparisons on lookup columns

`ConditionEncoder::TransformIntoINsOnLookup` under a binary collation and bounds that are not
null: a comparison with strings becomes a set of codes of the dictionary.
-/

set_option autoImplicit false

namespace Brighthouse.Core.LookupCondition

open Library List Ordering

/-! ## Comparison of strings -/

def strcmp : Bytes → Bytes → Ordering
  | [], [] => .eq
  | [], _ :: _ => .lt
  | _ :: _, [] => .gt
  | a :: s, b :: t => if a < b then .lt else if b < a then .gt else strcmp s t

theorem strcmp_compares (s t : Bytes) : (strcmp s t).Compares s t := by
  fun_induction strcmp s t with
  | case1 => rfl
  | case2 b t => exact nil_lt_cons b t
  | case3 a s => exact nil_lt_cons a s
  | case4 a s b t less => exact cons_lt_cons_iff.mpr (.inl less)
  | case5 a s b t _ more => exact cons_lt_cons_iff.mpr (.inl more)
  | case6 a s b t notLess notMore ih =>
    cases le_antisymm (not_lt.mp notMore) (not_lt.mp notLess)
    generalize strcmp s t = o at *
    cases o <;> simpa [Compares] using ih

def test : CompareOp → Ordering → Bool
  | .eq => isEq
  | .notEq => isNe
  | .less => isLT
  | .lessEq => isLE
  | .more => isGT
  | .moreEq => isGE

theorem test_strcmp (op : CompareOp) (s t : Bytes) : test op (strcmp s t) ↔ op.Compares s t := by
  have compares := strcmp_compares s t
  generalize strcmp s t = o at *
  cases o <;> cases op <;>
    simp_all [test, CompareOp.Compares, le_of_lt, ne_of_lt, ne_of_gt]

/-! ## The loop over the dictionary -/

structure Dictionary where
  values : List Bytes
  distinct : values.Nodup

inductive Comparison where
  | compare (op : CompareOp) (vs1 : Bytes)
  /-- `ANY` and `ALL` with `<`, `<=`, `>` or `>=`. -/
  | ordered (more orEq all : Bool) (values : Finset Bytes) (nonempty : values.Nonempty)
  | between (negated : Bool) (vs1 vs2 : Bytes)

def orderedOp (more orEq : Bool) : CompareOp :=
  if more then if orEq then .moreEq else .more else if orEq then .lessEq else .less

namespace Comparison

def Holds (s : Bytes) : Comparison → Prop
  | compare op vs1 => op.Compares s vs1
  | ordered more orEq all values _ =>
    if all then ∀ v ∈ values, (orderedOp more orEq).Compares s v
    else ∃ v ∈ values, (orderedOp more orEq).Compares s v
  | between negated vs1 vs2 => if negated then s < vs1 ∨ vs2 < s else vs1 ≤ s ∧ s ≤ vs2

def accepts : Comparison → Bytes → Bool
  | compare op vs1, s => test op (strcmp s vs1)
  | ordered more orEq all values nonempty, s =>
    let vs1 := if more = all then values.max' nonempty else values.min' nonempty
    test (orderedOp more orEq) (strcmp s vs1)
  | between negated vs1 vs2, s =>
    if negated then test .less (strcmp s vs1) || test .more (strcmp s vs2)
    else test .moreEq (strcmp s vs1) && test .lessEq (strcmp s vs2)

theorem accepts_iff (s : Bytes) (c : Comparison) : c.accepts s ↔ c.Holds s := by
  cases c with
  | compare op vs1 => exact test_strcmp op s vs1
  | ordered more orEq all values nonempty =>
    cases more <;> cases orEq <;> cases all <;> simp [accepts, Holds, test_strcmp, orderedOp,
      CompareOp.Compares]
    all_goals
      rw [← not_iff_not]
      simp [Finset.lt_min'_iff]
  | between negated vs1 vs2 =>
    cases negated <;> simp [accepts, Holds, test_strcmp, CompareOp.Compares]

def isEqual : Comparison → Bool
  | compare .eq _ => true
  | _ => false

end Comparison

inductive CodeSet where
  | isIn (codes : List Nat)
  | notIn (codes : List Nat)
  deriving DecidableEq

def CodeSet.Accepts (i : Nat) : CodeSet → Prop
  | isIn codes => i ∈ codes
  | notIn codes => i ∉ codes

structure Scan where
  positive : List Nat := []
  negative : List Nat := []
  count1 : Nat := 0
  count0 : Nat := 0

/-- Codes are added up to half of the `n` codes. -/
def add64 (n count i : Nat) (codes : List Nat) : List Nat :=
  if count ≤ n / 2 + 1 then i :: codes else codes

/-- The loop from the code `i` on, for the remaining strings; `n` is `CountOfUniqueValues()`. -/
def scan (n : Nat) (single : Bool) (accepts : Bytes → Bool) : Nat → List Bytes → Scan → Scan
  | _, [], v => v
  | i, s :: rest, v =>
    if accepts s then
      let v := { v with positive := add64 n v.count1 i v.positive, count1 := v.count1 + 1 }
      if single then { v with count0 := v.count0 + (n - i - 1) }
      else scan n single accepts (i + 1) rest v
    else
      let negative := if single then v.negative else add64 n v.count0 i v.negative
      scan n single accepts (i + 1) rest { v with negative, count0 := v.count0 + 1 }

def chosenSet (v : Scan) : CodeSet :=
  if v.count1 ≤ v.count0 then .isIn v.positive else .notIn v.negative

/-- `utf` is `RequiresUTFConversions`; a binary collation compares bytes in both cases. -/
def transformIntoINsOnLookup (utf : Bool) (dic : Dictionary) (c : Comparison) : CodeSet :=
  chosenSet (scan dic.values.length (c.isEqual && !utf) c.accepts 0 dic.values {})

/-! ## The chosen set is complete -/

section
variable {n count : Nat} {accepts : Bytes → Bool} {v : Scan} {seen : List Bytes} {s : Bytes}
  {codes : List Nat}

/-- A set of codes that is still complete after the strings `seen`. -/
def Collected (n : Nat) (accepts : Bytes → Bool) (seen : List Bytes) (count : Nat)
    (codes : List Nat) : Prop :=
  count ≤ n / 2 + 2 → ∀ i, i ∈ codes ↔ ∃ s ∈ seen[i]?, accepts s

theorem exists_snoc_iff (i : Nat) : (∃ t ∈ (seen ++ [s])[i]?, accepts t) ↔
    i = seen.length ∧ accepts s ∨ ∃ t ∈ seen[i]?, accepts t := by
  grind

theorem Collected.hit (collected : Collected n accepts seen count codes) (hit : accepts s) :
    Collected n accepts (seen ++ [s]) (count + 1) (add64 n count seen.length codes) := by
  intro few i
  rw [exists_snoc_iff, add64, if_pos (by omega), mem_cons, collected (by omega), and_iff_left hit]

theorem Collected.miss (collected : Collected n accepts seen count codes) (miss : ¬accepts s) :
    Collected n accepts (seen ++ [s]) count codes := by
  intro few i
  rw [exists_snoc_iff, collected few, or_iff_right (fun last => miss last.2)]

/-- The variables after the strings `seen`. -/
structure Counted (n : Nat) (accepts : Bytes → Bool) (seen : List Bytes) (v : Scan) : Prop where
  total : v.count1 + v.count0 = seen.length
  positive : Collected n accepts seen v.count1 v.positive
  negative : Collected n (!accepts ·) seen v.count0 v.negative

theorem scan_counted (rest : List Bytes) (counted : Counted n accepts seen v) :
    Counted n accepts (seen ++ rest) (scan n false accepts seen.length rest v) := by
  induction rest generalizing seen v with
  | nil => simpa [scan] using counted
  | cons s rest ih =>
    obtain ⟨total, positive, negative⟩ := counted
    have length : (seen ++ [s]).length = seen.length + 1 := length_append
    rw [scan, append_cons, ← length]
    split
    · rename_i hit
      exact ih ⟨by grind, positive.hit hit, negative.miss (by simp [hit])⟩
    · rename_i miss
      exact ih ⟨by grind, positive.miss miss, negative.hit (by simp [miss])⟩

/-- The search for one value stops at the first string that is accepted. -/
theorem scan_single (accepts : Bytes → Bool) (rest : List Bytes) (i : Nat)
    (total : n = i + rest.length) :
    scan n true accepts i rest ⟨[], [], 0, i⟩ = ⟨[], [], 0, n⟩ ∧ (∀ s ∈ rest, ¬accepts s) ∨
      ∃ k, (∃ s ∈ rest[k]?, accepts s) ∧
        scan n true accepts i rest ⟨[], [], 0, i⟩ = ⟨[i + k], [], 1, n - 1⟩ := by
  induction rest generalizing i with
  | nil => exact .inl (by simp_all [scan])
  | cons s rest ih =>
    rw [length_cons] at total
    rw [scan]
    split
    · rename_i hit
      refine .inr ⟨0, ⟨s, rfl, hit⟩, ?_⟩
      simp only [add64]
      grind
    · rename_i miss
      rcases ih (i + 1) (by omega) with ⟨result, none⟩ | ⟨k, found, result⟩
      · exact .inl ⟨result, forall_mem_cons.mpr ⟨miss, none⟩⟩
      · exact .inr ⟨k + 1, found, by rwa [add_right_comm] at result⟩

theorem Counted.accepts_iff (counted : Counted seen.length accepts seen v) (i : Fin seen.length) :
    (chosenSet v).Accepts i ↔ accepts (seen.get i) := by
  obtain ⟨total, positive, negative⟩ := counted
  rw [chosenSet]
  split
  · exact (positive (by omega) i).trans (by simp)
  · exact (not_congr (negative (by omega) i)).trans (by simp)

end

theorem transformIntoINsOnLookup_accepts_iff (utf : Bool) (dic : Dictionary) (c : Comparison)
    (i : Fin dic.values.length) :
    (transformIntoINsOnLookup utf dic c).Accepts i ↔ c.Holds (dic.values.get i) := by
  rw [← c.accepts_iff, transformIntoINsOnLookup]
  cases single : c.isEqual && !utf with
  | false =>
    have start : Counted dic.values.length c.accepts [] {} :=
      ⟨rfl, by simp [Collected], by simp [Collected]⟩
    exact (scan_counted dic.values start).accepts_iff i
  | true =>
    obtain ⟨vs1, rfl⟩ : ∃ vs1, c = .compare .eq vs1 := by
      rw [Comparison.isEqual.eq_def] at single
      grind
    have equal : ∀ s, (Comparison.compare .eq vs1).accepts s ↔ s = vs1 :=
      fun s => test_strcmp .eq s vs1
    rcases scan_single (Comparison.compare .eq vs1).accepts dic.values 0 (zero_add _).symm with
      ⟨result, none⟩ | ⟨k, ⟨s, isCode, found⟩, result⟩
    · rw [result]
      exact iff_of_false not_mem_nil (none _ (get_mem ..))
    · obtain ⟨small, rfl⟩ := List.getElem?_eq_some_iff.mp isCode
      rw [equal] at found
      have only : (i : Nat) = k ↔ dic.values.get i = vs1 := by
        rw [← found, get_eq_getElem, dic.distinct.getElem_inj_iff]
      rw [result, equal, ← only, chosenSet]
      split
      · simp [CodeSet.Accepts]
      · exact iff_of_true not_mem_nil (by grind)

def threeWords : Dictionary := ⟨[[98], [97, 97], [99]], by decide⟩

example : transformIntoINsOnLookup false threeWords (.compare .lessEq [98]) = .notIn [2] ∧
    transformIntoINsOnLookup false threeWords (.compare .eq [99]) = .isIn [2] := by
  decide

end Brighthouse.Core.LookupCondition
