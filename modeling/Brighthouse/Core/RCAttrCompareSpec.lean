import Brighthouse.Core.RCAttrCompare
import Brighthouse.Core.RCAttrPackSpec

/-!
# When comparisons on a packrow are exact

A comparison of differences is right as long as the differences have left the signed range
equally often.
-/

set_option autoImplicit false

namespace Brighthouse.Core

open PackrowWalk Library.Word64 RCAttr Option

/-! ## Rows that are reset -/

def ResetsRows (p : Packrow) (w w' : PackrowWalk) (drops : Option Nat → Prop) : Prop :=
  ∃ hit, Resets w w' hit ∧ ∀ i r, p.rows[i]? = some r → (hit (w.number + i) ↔ drops r)

section

variable {w w' : PackrowWalk} {p : Packrow} {later : List Packrow}
  {drop : PackrowWalk → Bool} {drops drops' : Option Nat → Prop}

theorem ResetsRows.congr_iff (resets : ResetsRows p w w' drops) :
    ResetsRows p w w' drops' ↔ ∀ r ∈ p.rows, (drops r ↔ drops' r) := by
  obtain ⟨hit, isHit, rows⟩ := resets
  rw [← forall_rows_iff]
  constructor
  · rintro ⟨hit', isHit', rows'⟩ i r isRow
    rw [← rows i r isRow, ← rows' i r isRow]
    exact isHit.unique isHit' _
  · intro same
    exact ⟨hit, isHit, fun i r isRow => (rows i r isRow).trans (same i r isRow)⟩

theorem ResetsRows.congr (resets : ResetsRows p w w' drops)
    (same : ∀ r ∈ p.rows, drops r ↔ drops' r) : ResetsRows p w w' drops' :=
  resets.congr_iff.mpr same

section
variable (here : w.At p later w.number 0)
include here

theorem walkPackrow_resetsRows (judges : Judges drop p later w.number drops) :
    ResetsRows p w (w.walkPackrow drop) drops :=
  ⟨_, (here.walkPackrow judges).2, fun _ _ => drops_row_iff⟩

theorem resetPackrow_resetsRows (all : ∀ r ∈ p.rows, drops r) :
    ResetsRows p w w.resetCurrentPack.nextPackrow drops := by
  obtain ⟨marked, reset⟩ := here.resetCurrentPack
  refine ⟨_, reset.trans marked.nextPackrow.2, fun i r isRow => ?_⟩
  have inside := (List.getElem?_eq_some_iff.mp isRow).1
  exact iff_of_true (.inl ⟨by omega, by omega⟩) (all r (List.mem_of_getElem? isRow))

theorem nextPackrow_resetsRows (none : ∀ r ∈ p.rows, ¬drops r) :
    ResetsRows p w w.nextPackrow drops :=
  ⟨_, here.nextPackrow.2, fun _ r isRow => iff_of_false id (none r (List.mem_of_getElem? isRow))⟩

end

theorem ResetsRows.nextPackrow (resets : ResetsRows p w w' drops) :
    ResetsRows p w w'.nextPackrow drops := by
  obtain ⟨hit, isHit, rows⟩ := resets
  refine ⟨hit, (isHit.trans (Resets.refl ?_)).congr fun k => by rw [or_false], rows⟩
  rw [PackrowWalk.nextPackrow]
  split <;> rfl

end

/-! ## Nulls -/

/-- Null rows of an outer join stay where the nulls of the pack are not read and null rows are
not announced. -/
def PackNode.OverlooksNullRows (dpn : PackNode) (nullsPossible : Bool) : Prop :=
  ¬(dpn.trivial = false ∧ dpn.noNulls ≠ 0) ∧ dpn.nullsOnly = false ∧ nullsPossible = false

section

variable {a : RCAttr} {w : PackrowWalk} {p : Packrow} {later : List Packrow} {k : Nat}

theorem evaluatePackNotNull_resetsRows (sound : a.SoundNulls) (covers : a.Covers p k)
    (here : w.At p later w.number 0) :
    ResetsRows p w (a.evaluatePackNotNull w) fun r =>
      a.rowValue r = none ∧ ¬(r = none ∧ (a.dpns k).OverlooksNullRows p.nullsPossible) := by
  rw [evaluatePackNotNull, getCurPackrow_eq here, covers.isPack]
  dsimp only
  by_cases stored : (a.dpns k).trivial = false ∧ (a.dpns k).noNulls ≠ 0
  · rw [if_pos stored]
    refine (walkPackrow_resetsRows here (judges_curPos
      (fun r => r.isNone || (a.dpns k).packIsNull (r.getD 1 % 65536)) _)).congr fun r inside => ?_
    rw [packIsNull_iff sound covers stored.1 r inside]
    exact (and_iff_left fun overlooked => overlooked.2.1 stored).symm
  · rw [if_neg stored]
    cases nullsOnly : (a.dpns k).nullsOnly with
    | true =>
      refine resetPackrow_resetsRows here fun r inside => ⟨?_, ?_⟩
      · exact rowValue_of_nullsOnly sound covers nullsOnly r inside
      · exact fun overlooked => Bool.false_ne_true (overlooked.2.2.1.symm.trans nullsOnly)
    | false =>
      have outer := rowValue_of_noNulls sound covers
        (sound.noNulls_of_trivial stored nullsOnly)
      rw [nullsPossible_eq here]
      cases announced : p.nullsPossible with
      | true =>
        refine ((walkPackrow_resetsRows here
          (judges_curPos isNone _)).nextPackrow).congr fun r inside => ?_
        rw [isNone_iff_eq_none, outer r inside]
        exact (and_iff_left fun overlooked =>
          Bool.false_ne_true (overlooked.2.2.2.symm)).symm
      | false =>
        refine nextPackrow_resetsRows here fun r inside => ?_
        rw [outer r inside]
        exact fun null => null.2 ⟨null.1, stored, nullsOnly, rfl⟩

end

/-! ## Differences -/

namespace PackNode

variable (dpn : PackNode)

def valueLaps (v : Int) : Int := laps (v - dpn.localMin)

def lowerBound (pv1 : Int) : Int := if pv1 ≠ minusInf64 then pv1 else dpn.localMin

def upperBound (pv2 : Int) : Int := if pv2 ≠ plusInf64 then pv2 else dpn.localMax

/-- A value between the bounds is found if the differences of all three have left the signed
range equally often.  For the others it is enough that one of the bounds excludes them. -/
def BetweenFits (pv1 pv2 v : Int) : Prop :=
  let low := dpn.valueLaps (dpn.lowerBound pv1)
  let high := dpn.valueLaps (dpn.upperBound pv2)
  if pv1 ≤ v ∧ v ≤ pv2 then low = dpn.valueLaps v ∧ high = dpn.valueLaps v
  else if v < pv1 then low = dpn.valueLaps v ∨ (v ≤ pv2 ↔ high ≠ dpn.valueLaps v)
  else low ≠ dpn.valueLaps v ∨ high = dpn.valueLaps v

variable {dpn}

theorem lowerOffset_eq (pv1 : Int) :
    dpn.lowerOffset pv1 = wrap64 (dpn.lowerBound pv1 - dpn.localMin) := by
  rw [lowerOffset, lowerBound]
  by_cases infinite : pv1 ≠ minusInf64
  · rw [if_pos infinite, if_pos infinite]
  · rw [if_neg infinite, if_neg infinite, sub_self]
    rfl

theorem upperOffset_eq (pv2 : Int) :
    dpn.upperOffset pv2 = wrap64 (dpn.upperBound pv2 - dpn.localMin) := by
  rw [upperOffset, upperBound]
  split <;> rfl

theorem offset_le_offset_iff (dpn : PackNode) {x y : Int} (isX : IsInt64 x) (isY : IsInt64 y) :
    wrap64 (x - dpn.localMin) ≤ wrap64 (y - dpn.localMin) ↔
      (x ≤ y ↔ dpn.valueLaps x = dpn.valueLaps y) := by
  obtain ⟨lowX, highX⟩ := isX
  obtain ⟨lowY, highY⟩ := isY
  rw [wrap64_le_wrap64_iff (by omega) (by omega), Int.sub_le_sub_right_iff, valueLaps, valueLaps]

section

variable {pv1 pv2 v : Int} (isInt64 : IsInt64 dpn.localMin ∧ IsInt64 dpn.localMax)
  (inPack : dpn.localMin ≤ v ∧ v ≤ dpn.localMax)

include isInt64 inPack

theorem lowerOffset_le_iff (isPv1 : IsInt64 pv1) :
    dpn.lowerOffset pv1 ≤ wrap64 (v - dpn.localMin) ↔
      (pv1 ≤ v ↔ dpn.valueLaps (dpn.lowerBound pv1) = dpn.valueLaps v) := by
  have isV : IsInt64 v := ⟨isInt64.1.1.trans inPack.1, lt_of_le_of_lt inPack.2 isInt64.2.2⟩
  have isBound : IsInt64 (dpn.lowerBound pv1) ∧ (dpn.lowerBound pv1 ≤ v ↔ pv1 ≤ v) := by
    rw [lowerBound]
    by_cases infinite : pv1 ≠ minusInf64
    · rw [if_pos infinite]
      exact ⟨isPv1, Iff.rfl⟩
    · rw [if_neg infinite]
      exact ⟨isInt64.1, iff_of_true inPack.1 ((not_not.mp infinite).le.trans isV.1)⟩
  rw [lowerOffset_eq, offset_le_offset_iff dpn isBound.1 isV, isBound.2]

theorem le_upperOffset_iff (isPv2 : IsInt64 pv2) :
    wrap64 (v - dpn.localMin) ≤ dpn.upperOffset pv2 ↔
      (v ≤ pv2 ↔ dpn.valueLaps (dpn.upperBound pv2) = dpn.valueLaps v) := by
  have isV : IsInt64 v := ⟨isInt64.1.1.trans inPack.1, lt_of_le_of_lt inPack.2 isInt64.2.2⟩
  have isBound : IsInt64 (dpn.upperBound pv2) ∧ (v ≤ dpn.upperBound pv2 ↔ v ≤ pv2) := by
    rw [upperBound]
    by_cases infinite : pv2 ≠ plusInf64
    · rw [if_pos infinite]
      exact ⟨isPv2, Iff.rfl⟩
    · rw [if_neg infinite]
      have last : v ≤ pv2 := by
        have isInfinite := not_not.mp infinite
        have high := isV.2
        rw [isInfinite, plusInf64]
        omega
      exact ⟨isInt64.2, iff_of_true inPack.2 last⟩
  rw [upperOffset_eq, offset_le_offset_iff dpn isV isBound.1, isBound.2,
    eq_comm (a := valueLaps dpn v)]

/-- The comparison of differences answers as the comparison of values does if and only if the
differences fit. -/
theorem isBetween_offsets_iff (isPv1 : IsInt64 pv1) (isPv2 : IsInt64 pv2) (notBetween : Bool) :
    isBetween notBetween (dpn.lowerOffset pv1) (dpn.upperOffset pv2)
        (wrap64 (v - dpn.localMin)) = isBetween notBetween pv1 pv2 v ↔
      dpn.BetweenFits pv1 pv2 v := by
  have low := lowerOffset_le_iff isInt64 inPack isPv1
  have high := le_upperOffset_iff isInt64 inPack isPv2
  have negated : ∀ b b' : Bool, ((b != notBetween) = (b' != notBetween)) ↔ b = b' := by
    cases notBetween <;> decide
  rw [isBetween, isBetween, negated, ← Bool.decide_and, ← Bool.decide_and,
    decide_eq_decide, low, high, BetweenFits]
  by_cases above : pv1 ≤ v
  · by_cases below : v ≤ pv2
    · rw [if_pos ⟨above, below⟩]
      simp only [above, below, true_iff, true_and, iff_true]
    · rw [if_neg fun inside => below inside.2, if_neg (not_lt.mpr above)]
      simp only [above, below, true_iff, false_iff, and_false, iff_false, not_and_or, not_not]
  · rw [if_pos (not_le.mp above)]
    simp only [above, false_iff, false_and, iff_false, not_and_or, not_not, not_iff]
    rw [not_iff_comm]
    exact or_congr_right iff_comm

end

end PackNode

/-! ## Conditions -/

/-- `BETWEEN` with constant bounds, or a comparison with another column of the table. -/
inductive CompareCondition where
  | between (pv1 pv2 : Int) (notBetween : Bool)
  | attrAttr (a2 : RCAttr) (op : CompareOp)

namespace CompareCondition

def evaluate (a : RCAttr) : CompareCondition → PackrowWalk → PackrowWalk
  | between pv1 pv2 notBetween => a.evaluatePackBetweenInt pv1 pv2 notBetween
  | attrAttr a2 op => a.evaluatePackAttrAttr a2 op

def Meets (a : RCAttr) : CompareCondition → Option Nat → Prop
  | between pv1 pv2 notBetween, r =>
    ∃ v, a.rowValue r = some v ∧ (notBetween = false ↔ pv1 ≤ v ∧ v ≤ pv2)
  | attrAttr a2 op, r =>
    ∃ v1 v2, a.rowValue r = some v1 ∧ a2.rowValue r = some v2 ∧ op.Compares v1 v2

def Sound (a : RCAttr) : CompareCondition → Prop
  | between pv1 pv2 _ => a.SoundNulls ∧ a.SoundValues ∧ IsInt64 pv1 ∧ IsInt64 pv2
  | attrAttr a2 _ => a.SoundNulls ∧ a.SoundValues ∧ a2.SoundNulls ∧ a2.SoundValues ∧
      a2.noObj = a.noObj

end CompareCondition

open CompareCondition

/-- A null row that nobody looks for is judged as row 1 of the pack, and a pack of one value
that stays as a whole must not overlook null rows. -/
def PackNode.NullRowsExcluded (dpn : PackNode) (nullsPossible : Bool) (pv1 pv2 : Int)
    (notBetween : Bool) : Prop :=
  let isIn := RCAttr.isBetween notBetween (dpn.lowerOffset pv1) (dpn.upperOffset pv2)
  if dpn.localMin ≠ dpn.localMax then
    notBetween = false → nullsPossible = false → dpn.noNulls = 0 → isIn (dpn.packGetVal64 1) = false
  else isIn 0 = true → ¬dpn.OverlooksNullRows nullsPossible

/-- The values of the packrow fit, and its null rows are excluded. -/
def RCAttr.BetweenSafe (a : RCAttr) (p : Packrow) (pv1 pv2 : Int) (notBetween : Bool) : Prop :=
  ∀ k, p.pack = some k → (a.dpns k).fileNullsOnly = false →
    (∀ r ∈ p.rows, ∀ v, a.rowValue r = some v → (a.dpns k).BetweenFits pv1 pv2 v) ∧
      (none ∈ p.rows → (a.dpns k).NullRowsExcluded p.nullsPossible pv1 pv2 notBetween)

/-- Equality is always right.  For an order both differences to the smallest value of the second
column must have left the signed range equally often. -/
def RCAttr.AttrAttrSafe (a a2 : RCAttr) (p : Packrow) (op : CompareOp) : Prop :=
  ∀ k, p.pack = some k → ∀ r ∈ p.rows, ∀ v1 v2, a.rowValue r = some v1 → a2.rowValue r = some v2 →
    op = .eq ∨ op = .notEq ∨ (a2.dpns k).valueLaps v1 = (a2.dpns k).valueLaps v2

def CompareCondition.Safe (a : RCAttr) (p : Packrow) : CompareCondition → Prop
  | between pv1 pv2 notBetween => a.BetweenSafe p pv1 pv2 notBetween
  | attrAttr a2 op => a.AttrAttrSafe a2 p op

theorem isBetween_eq_true_iff {notBetween : Bool} {pv1 pv2 v : Int} :
    isBetween notBetween pv1 pv2 v = true ↔ (notBetween = false ↔ pv1 ≤ v ∧ v ≤ pv2) := by
  rw [isBetween, ← Bool.decide_and]
  by_cases inside : pv1 ≤ v ∧ v ≤ pv2 <;> cases notBetween <;> simp [inside]

/-! ## Between -/

section

variable {a : RCAttr} {w : PackrowWalk} {p : Packrow} {later : List Packrow} {k : Nat}
  {pv1 pv2 : Int} {notBetween : Bool}

def RCAttr.passesBetween (dpn : PackNode) (pv1 pv2 : Int) (notBetween : Bool) (v : Int) : Bool :=
  isBetween notBetween (dpn.lowerOffset pv1) (dpn.upperOffset pv2) (wrap64 (v - dpn.localMin))

/-- The rows that are to be reset: values that fail, and nulls as far as they are noticed. -/
def RCAttr.BetweenDrops (a : RCAttr) (p : Packrow) (k : Nat) (pv1 pv2 : Int) (notBetween : Bool)
    (r : Option Nat) : Prop :=
  match a.rowValue r with
  | some v => passesBetween (a.dpns k) pv1 pv2 notBetween v = false
  | none => r = none → (a.dpns k).NullRowsExcluded p.nullsPossible pv1 pv2 notBetween

theorem betweenDrops_some {r : Option Nat} {v : Int} (isValue : a.rowValue r = some v) :
    a.BetweenDrops p k pv1 pv2 notBetween r ↔
      passesBetween (a.dpns k) pv1 pv2 notBetween v = false := by
  rw [RCAttr.BetweenDrops, isValue]

theorem betweenDrops_none {r : Option Nat} (null : a.rowValue r = none) :
    a.BetweenDrops p k pv1 pv2 notBetween r ↔
      (r = none → (a.dpns k).NullRowsExcluded p.nullsPossible pv1 pv2 notBetween) := by
  rw [RCAttr.BetweenDrops, null]

theorem isBetween_eq_false_iff {low high v : Int} :
    isBetween false low high v = false ↔ low > v ∨ v > high := by
  rw [isBetween, Bool.bne_false, ← Bool.decide_and, decide_eq_false_iff_not, not_and_or,
    not_le, not_le]

theorem uniformFails_iff {low high : Int} :
    ((low > 0 ∨ high < 0) ∧ notBetween = false ∨ low ≤ 0 ∧ high ≥ 0 ∧ notBetween = true) ↔
      isBetween notBetween low high 0 = false := by
  cases notBetween with
  | false => simp [isBetween_eq_false_iff]
  | true => simp [isBetween]

section
variable (values : a.SoundValues) (covers : a.Covers p k)
include values covers

variable {r : Option Nat}

theorem packGetVal64_row (stored : (a.dpns k).trivial = false) (inside : r ∈ p.rows) {v : Int}
    (isValue : a.rowValue r = some v) :
    (a.dpns k).packGetVal64 (r.getD 1 % 65536) = wrap64 (v - (a.dpns k).localMin) := by
  cases r with
  | none => exact absurd isValue (by simp [rowValue])
  | some row =>
    obtain rfl := covers.pack_eq inside
    exact values.getVal64 row (covers.inTable row inside) stored v isValue

theorem isInt64_row (inside : r ∈ p.rows) {v : Int} (isValue : a.rowValue r = some v) :
    IsInt64 v := by
  have bounds := boundsOf_row values covers inside isValue
  obtain ⟨low, high⟩ := values.isInt64 k
  exact ⟨low.1.trans bounds.1, lt_of_le_of_lt bounds.2 high.2⟩

variable (sound : a.SoundNulls) (here : w.At p later w.number 0)
include sound here

theorem betweenUniform_resetsRows (uniform : (a.dpns k).localMin = (a.dpns k).localMax) :
    ResetsRows p w
      (if isBetween notBetween ((a.dpns k).lowerOffset pv1) ((a.dpns k).upperOffset pv2) 0
          = false then w.resetCurrentPack.nextPackrow else a.evaluatePackNotNull w)
      (a.BetweenDrops p k pv1 pv2 notBetween) := by
  have passes : ∀ r ∈ p.rows, ∀ v, a.rowValue r = some v →
      passesBetween (a.dpns k) pv1 pv2 notBetween v = isBetween notBetween
        ((a.dpns k).lowerOffset pv1) ((a.dpns k).upperOffset pv2) 0 := by
    intro r inside v isValue
    rw [passesBetween, rowValue_of_uniform values covers uniform r inside v isValue,
      sub_self]
    rfl
  by_cases fails : isBetween notBetween ((a.dpns k).lowerOffset pv1)
      ((a.dpns k).upperOffset pv2) 0 = false
  · rw [if_pos fails]
    refine resetPackrow_resetsRows here fun r inside => ?_
    cases isValue : a.rowValue r with
    | some v => exact (betweenDrops_some isValue).mpr ((passes r inside v isValue).trans fails)
    | none =>
      refine (betweenDrops_none isValue).mpr fun _ => ?_
      rw [PackNode.NullRowsExcluded, if_neg (not_not.mpr uniform)]
      exact fun isIn => absurd (fails.symm.trans isIn) Bool.false_ne_true
  · rw [if_neg fails]
    refine (evaluatePackNotNull_resetsRows sound covers here).congr fun r inside => ?_
    cases isValue : a.rowValue r with
    | some v =>
      rw [betweenDrops_some isValue, passes r inside v isValue]
      exact iff_of_false (fun null => absurd null.1 (by simp)) fails
    | none =>
      rw [betweenDrops_none isValue, PackNode.NullRowsExcluded, if_neg (not_not.mpr uniform),
        forall_prop_of_true (Bool.eq_true_of_not_eq_false fails), not_and]
      exact and_iff_right rfl

variable (notFile : (a.dpns k).fileNullsOnly = false)
include notFile

section
variable (range : (a.dpns k).localMin ≠ (a.dpns k).localMax)
include range

theorem betweenFast_resetsRows (unannounced : p.nullsPossible = false)
    (noNulls : (a.dpns k).noNulls = 0) :
    ResetsRows p w (w.walkPackrow fun mit =>
      decide ((a.dpns k).lowerOffset pv1 > (a.dpns k).packGetVal64 mit.getCurInpack) ||
        decide ((a.dpns k).packGetVal64 mit.getCurInpack > (a.dpns k).upperOffset pv2))
      (a.BetweenDrops p k pv1 pv2 false) := by
  refine (walkPackrow_resetsRows here (judges_curPos (fun r =>
    decide ((a.dpns k).lowerOffset pv1 > (a.dpns k).packGetVal64 (r.getD 1 % 65536)) ||
      decide ((a.dpns k).packGetVal64 (r.getD 1 % 65536) > (a.dpns k).upperOffset pv2)) _)).congr
    fun r inside => ?_
  rw [Bool.or_eq_true, decide_eq_true_iff, decide_eq_true_iff, ← isBetween_eq_false_iff]
  have stored := stored_of_range values notFile range
  cases isValue : a.rowValue r with
  | some v =>
    rw [packGetVal64_row values covers stored inside isValue, betweenDrops_some isValue]
    rfl
  | none =>
    obtain rfl := (rowValue_of_noNulls sound covers noNulls r inside).mp isValue
    rw [betweenDrops_none isValue, forall_prop_of_true rfl, PackNode.NullRowsExcluded, if_pos range,
      forall_prop_of_true rfl, forall_prop_of_true unannounced, forall_prop_of_true noNulls]
    rfl

theorem betweenGeneral_resetsRows
    (general : ¬(notBetween = false ∧ p.nullsPossible = false ∧ (a.dpns k).noNulls = 0)) :
    ResetsRows p w (w.walkPackrow fun mit =>
      mit.curPos.isNone || (a.dpns k).packIsNull mit.getCurInpack ||
        !isBetween notBetween ((a.dpns k).lowerOffset pv1) ((a.dpns k).upperOffset pv2)
          ((a.dpns k).packGetVal64 mit.getCurInpack))
      (a.BetweenDrops p k pv1 pv2 notBetween) := by
  refine (walkPackrow_resetsRows here (judges_curPos (fun r =>
    r.isNone || (a.dpns k).packIsNull (r.getD 1 % 65536) ||
      !isBetween notBetween ((a.dpns k).lowerOffset pv1) ((a.dpns k).upperOffset pv2)
        ((a.dpns k).packGetVal64 (r.getD 1 % 65536))) _)).congr fun r inside => ?_
  have stored := stored_of_range values notFile range
  rw [Bool.or_eq_true, packIsNull_iff sound covers stored r inside, Bool.not_eq_true']
  cases isValue : a.rowValue r with
  | some v =>
    rw [packGetVal64_row values covers stored inside isValue, betweenDrops_some isValue,
      or_iff_right (by simp)]
    rfl
  | none =>
    refine iff_of_true (.inl rfl) ((betweenDrops_none isValue).mpr fun _ => ?_)
    rw [PackNode.NullRowsExcluded, if_pos range]
    exact fun isBetween unannounced noNulls => absurd ⟨isBetween, unannounced, noNulls⟩ general

end

theorem evaluatePackBetweenInt_resetsRows :
    ResetsRows p w (a.evaluatePackBetweenInt pv1 pv2 notBetween w)
      (a.BetweenDrops p k pv1 pv2 notBetween) := by
  rw [evaluatePackBetweenInt, getCurPackrow_eq here, covers.isPack]
  dsimp only
  rw [notFile, nullsPossible_eq here]
  by_cases range : (a.dpns k).localMin ≠ (a.dpns k).localMax
  · rw [if_pos range]
    by_cases fast : notBetween = false ∧ p.nullsPossible = false ∧ (a.dpns k).noNulls = 0
    · rw [if_pos fast]
      obtain ⟨rfl, unannounced, noNulls⟩ := fast
      exact betweenFast_resetsRows values covers sound here notFile range unannounced noNulls
    · rw [if_neg fast]
      exact betweenGeneral_resetsRows values covers sound here notFile range fast
  · rw [if_neg range]
    simp only [uniformFails_iff]
    exact betweenUniform_resetsRows values covers sound here (not_not.mp range)

end

/-- The rows that are reset are the right ones if and only if the values fit and the null rows
are excluded. -/
theorem betweenDrops_iff (values : a.SoundValues) (isPv1 : IsInt64 pv1) (isPv2 : IsInt64 pv2)
    (covers : a.Covers p k) :
    (∀ r ∈ p.rows, (a.BetweenDrops p k pv1 pv2 notBetween r ↔
        ¬(between pv1 pv2 notBetween).Meets a r)) ↔
      (∀ r ∈ p.rows, ∀ v, a.rowValue r = some v → (a.dpns k).BetweenFits pv1 pv2 v) ∧
        (none ∈ p.rows → (a.dpns k).NullRowsExcluded p.nullsPossible pv1 pv2 notBetween) := by
  have value : ∀ r ∈ p.rows, ∀ v, a.rowValue r = some v →
      ((a.BetweenDrops p k pv1 pv2 notBetween r ↔
        ¬(between pv1 pv2 notBetween).Meets a r) ↔
          (a.dpns k).BetweenFits pv1 pv2 v) := by
    intro r inside v isValue
    have bounds := boundsOf_row values covers inside isValue
    have meets : (between pv1 pv2 notBetween).Meets a r ↔
        isBetween notBetween pv1 pv2 v = true := by
      rw [Meets, isValue, isBetween_eq_true_iff]
      exact ⟨fun ⟨_, same, holds⟩ => some.inj same ▸ holds, fun holds => ⟨v, rfl, holds⟩⟩
    have answers : ∀ b b' : Bool, (b = false ↔ ¬b' = true) ↔ b = b' := by decide
    rw [betweenDrops_some isValue, meets, answers]
    exact PackNode.isBetween_offsets_iff (values.isInt64 k) bounds isPv1 isPv2 notBetween
  have noValue : ∀ r, a.rowValue r = none →
      ((a.BetweenDrops p k pv1 pv2 notBetween r ↔
        ¬(between pv1 pv2 notBetween).Meets a r) ↔
          (r = none → (a.dpns k).NullRowsExcluded p.nullsPossible pv1 pv2 notBetween)) := by
    intro r null
    have fails : ¬(between pv1 pv2 notBetween).Meets a r := by
      rintro ⟨v, isValue, _⟩
      exact absurd (null.symm.trans isValue) (by simp)
    rw [betweenDrops_none null, iff_true_right fails]
  constructor
  · intro right
    exact ⟨fun r inside v isValue => (value r inside v isValue).mp (right r inside),
      fun inside => (noValue none rfl).mp (right none inside) rfl⟩
  · rintro ⟨fits, excluded⟩ r inside
    cases isValue : a.rowValue r with
    | some v => exact (value r inside v isValue).mpr (fits r inside v isValue)
    | none => exact (noValue r isValue).mpr fun isNull => excluded (isNull ▸ inside)

theorem evaluatePackBetweenInt_iff (sound : a.SoundNulls) (values : a.SoundValues)
    (isPv1 : IsInt64 pv1) (isPv2 : IsInt64 pv2)
    (inTable : ∀ row, some row ∈ p.rows → row < a.noObj) (here : w.At p later w.number 0) :
    ResetsRows p w (a.evaluatePackBetweenInt pv1 pv2 notBetween w)
        (fun r => ¬(between pv1 pv2 notBetween).Meets a r) ↔
      a.BetweenSafe p pv1 pv2 notBetween := by
  have onlyNulls : (∀ r ∈ p.rows, a.rowValue r = none) → ResetsRows p w
      w.resetCurrentPack.nextPackrow
      (fun r => ¬(between pv1 pv2 notBetween).Meets a r) := by
    intro null
    refine resetPackrow_resetsRows here fun r inside => ?_
    rintro ⟨v, isValue, _⟩
    exact absurd ((null r inside).symm.trans isValue) (by simp)
  cases isPack : p.pack with
  | none =>
    rw [evaluatePackBetweenInt, getCurPackrow_eq here, isPack]
    refine iff_of_true (onlyNulls fun r inside => ?_) (forall_noPack isPack _)
    rw [none_of_noPack isPack r inside]
    rfl
  | some k =>
    rw [RCAttr.BetweenSafe, forall_pack isPack]
    have covers : a.Covers p k := ⟨isPack, inTable⟩
    cases file : (a.dpns k).fileNullsOnly with
    | true =>
      have nullsOnly := Dpn.nullsOnly_of_file file
      rw [evaluatePackBetweenInt, getCurPackrow_eq here, isPack]
      dsimp only
      rw [if_pos file]
      exact iff_of_true (onlyNulls (rowValue_of_nullsOnly sound covers nullsOnly))
        fun other => absurd other (by simp)
    | false =>
      rw [forall_prop_of_true rfl, (evaluatePackBetweenInt_resetsRows values covers sound
        here file).congr_iff]
      exact betweenDrops_iff values isPv1 isPv2 covers

end

/-! ## Two columns -/

theorem CompareOp.holds_eq_true_iff (op : CompareOp) (v1 v2 : Int) :
    op.holds v1 v2 = true ↔ op.Compares v1 v2 := by
  cases op <;> exact decide_eq_true_iff

theorem PackNode.compares_offsets_iff {dpn : PackNode} {v1 v2 : Int} (isV1 : IsInt64 v1)
    (isV2 : IsInt64 v2) (op : CompareOp) :
    (op.Compares (wrap64 (v1 - dpn.localMin)) (wrap64 (v2 - dpn.localMin)) ↔ op.Compares v1 v2) ↔
      op = .eq ∨ op = .notEq ∨ dpn.valueLaps v1 = dpn.valueLaps v2 := by
  have answers : ∀ {P Q L : Prop}, (P ↔ (Q ↔ L)) → ((P ↔ Q) ↔ L) := by
    intro P Q L split
    by_cases holds : Q <;> simp [split, holds]
  have le := answers (offset_le_offset_iff dpn isV1 isV2)
  have ge := answers (offset_le_offset_iff dpn isV2 isV1)
  have same : wrap64 (v1 - dpn.localMin) = wrap64 (v2 - dpn.localMin) ↔ v1 = v2 := by
    omega
  cases op with
  | eq => exact iff_of_true same (.inl rfl)
  | notEq => exact iff_of_true (not_congr same) (.inr (.inl rfl))
  | lessEq =>
    simp only [reduceCtorEq, false_or]
    exact le
  | moreEq =>
    simp only [reduceCtorEq, false_or]
    exact ge.trans eq_comm
  | less =>
    simp only [CompareOp.Compares, reduceCtorEq, false_or]
    rw [← not_le, ← not_le, not_iff_not]
    exact ge.trans eq_comm
  | more =>
    simp only [CompareOp.Compares, reduceCtorEq, false_or]
    rw [gt_iff_lt, gt_iff_lt, ← not_le, ← not_le, not_iff_not]
    exact le

section

variable {a a2 : RCAttr} {w : PackrowWalk} {p : Packrow} {later : List Packrow} {k : Nat}
  {op : CompareOp}

theorem RCAttr.SoundNulls.nullsOnly_iff_noNulls (sound : a.SoundNulls) {obj : Nat}
    (inTable : obj < a.noObj) :
    (a.dpns (obj / 65536)).noNulls = (a.dpns (obj / 65536)).noObjs + 1 ↔
      (a.dpns (obj / 65536)).nullsOnly = true := by
  have counts := sound.counts_of_row inTable
  rw [counts.nullsOnly_iff, counts.nulls, ← counts.count, List.count_eq_length]
  exact forall_congr' fun row => imp_congr_right fun _ => eq_comm

section
variable (sound : a.SoundNulls) (covers : a.Covers p k)
include sound covers

theorem rowValue_of_allNulls (all : (a.dpns k).noNulls = (a.dpns k).noObjs + 1) :
    ∀ r ∈ p.rows, a.rowValue r = none := by
  intro r inside
  cases r with
  | none => rfl
  | some row =>
    obtain rfl := covers.pack_eq inside
    exact sound.none_of_nullsOnly (covers.inTable row inside)
      ((sound.nullsOnly_iff_noNulls (covers.inTable row inside)).mp all)

theorem packNull_iff (notAll : (a.dpns k).noNulls ≠ (a.dpns k).noObjs + 1) {row : Nat}
    (inside : some row ∈ p.rows) :
    packNull (a.dpns k) (row % 65536) = true ↔ a.rowValue (some row) = none := by
  obtain rfl := covers.pack_eq inside
  have inRows := covers.inTable row inside
  have nullsOnly : (a.dpns (row / 65536)).nullsOnly = false :=
    Bool.eq_false_of_not_eq_true fun all => notAll ((sound.nullsOnly_iff_noNulls inRows).mpr all)
  rw [packNull]
  cases stored : (a.dpns (row / 65536)).trivial with
  | false => exact sound.isNull row inRows stored
  | true =>
    have noNulls := sound.noNulls_of_trivial
      (fun easy => Bool.false_ne_true (easy.1.symm.trans stored)) nullsOnly
    exact iff_of_false Bool.false_ne_true (sound.ne_none_of_noNulls inRows noNulls)

end

theorem packOffset_eq (sound : a.SoundNulls) (values : a.SoundValues) (covers : a.Covers p k)
    {row : Nat} (inside : some row ∈ p.rows) {v : Int} (isValue : a.rowValue (some row) = some v) :
    packOffset (a.dpns k) (row % 65536) = wrap64 (v - (a.dpns k).localMin) := by
  rw [packOffset]
  by_cases uniform : (a.dpns k).localMin = (a.dpns k).localMax
  · rw [if_pos uniform, rowValue_of_uniform values covers uniform _ inside v isValue,
      sub_self]
    rfl
  · rw [if_neg uniform]
    have notFile : (a.dpns k).fileNullsOnly = false :=
      covers.pack_eq inside ▸ sound.notFile (covers.inTable row inside) isValue
    exact packGetVal64_row values covers (stored_of_range values notFile uniform) inside isValue

theorem wrap64_wrap64_add_wrap64 (x y : Int) : wrap64 (wrap64 x + wrap64 y) = wrap64 (x + y) := by
  rw [wrap64, wrap64, wrap64, wrap64, Int.bmod_add_bmod, Int.add_bmod_bmod]

section
variable (sound : a.SoundNulls) (values : a.SoundValues) (sound2 : a2.SoundNulls)
  (values2 : a2.SoundValues) (sameTable : a2.noObj = a.noObj)
  (inTable : ∀ row, some row ∈ p.rows → row < a.noObj) (here : w.At p later w.number 0)
include sound values sound2 values2 sameTable inTable here

theorem evaluatePackAttrAttr_resetsRows (isPack : p.pack = some k) :
    ResetsRows p w (a.evaluatePackAttrAttr a2 op w) fun r =>
      ¬∃ v1 v2, a.rowValue r = some v1 ∧ a2.rowValue r = some v2 ∧
        op.Compares (wrap64 (v1 - (a2.dpns k).localMin)) (wrap64 (v2 - (a2.dpns k).localMin)) := by
  have covers : a.Covers p k := ⟨isPack, inTable⟩
  have covers2 : a2.Covers p k := ⟨isPack, sameTable ▸ inTable⟩
  rw [evaluatePackAttrAttr, getCurPackrow_eq here, isPack]
  dsimp only
  by_cases onlyNulls : (a.dpns k).noNulls = (a.dpns k).noObjs + 1 ∨
      (a2.dpns k).noNulls = (a2.dpns k).noObjs + 1
  · rw [if_pos onlyNulls]
    refine resetPackrow_resetsRows here fun r inside => ?_
    rintro ⟨v1, v2, isV1, isV2, _⟩
    rcases onlyNulls with all | all
    · exact absurd ((rowValue_of_allNulls sound covers all r inside).symm.trans isV1) (by simp)
    · exact absurd ((rowValue_of_allNulls sound2 covers2 all r inside).symm.trans isV2)
        (by simp)
  · rw [if_neg onlyNulls]
    obtain ⟨notAll, notAll2⟩ := not_or.mp onlyNulls
    refine (walkPackrow_resetsRows here (judges_curPos (fun r => r.isNone ||
      packNull (a.dpns k) (r.getD 1 % 65536) || packNull (a2.dpns k) (r.getD 1 % 65536) ||
        !op.holds (wrap64 (packOffset (a.dpns k) (r.getD 1 % 65536) +
            wrap64 ((a.dpns k).localMin - (a2.dpns k).localMin)))
          (packOffset (a2.dpns k) (r.getD 1 % 65536))) _)).congr fun r inside => ?_
    cases r with
    | none => exact iff_of_true rfl fun ⟨v1, _, isV1, _⟩ => absurd isV1 (by simp [rowValue])
    | some row =>
      rw [isNone_some, Bool.false_or, getD_some, Bool.or_eq_true, Bool.or_eq_true,
        packNull_iff sound covers notAll inside,
        packNull_iff sound2 covers2 notAll2 inside, Bool.not_eq_true']
      cases isV1 : a.rowValue (some row) with
      | none => simp
      | some v1 =>
        cases isV2 : a2.rowValue (some row) with
        | none => simp
        | some v2 =>
          have offset : v1 - (a.dpns k).localMin + ((a.dpns k).localMin -
              (a2.dpns k).localMin) = v1 - (a2.dpns k).localMin := by omega
          rw [packOffset_eq sound values covers inside isV1,
            packOffset_eq sound2 values2 covers2 inside isV2,
            wrap64_wrap64_add_wrap64, ← Bool.not_eq_true,
            CompareOp.holds_eq_true_iff]
          simp

theorem evaluatePackAttrAttr_iff :
    ResetsRows p w (a.evaluatePackAttrAttr a2 op w)
        (fun r => ¬(attrAttr a2 op).Meets a r) ↔ a.AttrAttrSafe a2 p op := by
  cases isPack : p.pack with
  | none =>
    rw [evaluatePackAttrAttr, getCurPackrow_eq here, isPack]
    refine iff_of_true ?_ (forall_noPack isPack _)
    refine resetPackrow_resetsRows here fun r inside => ?_
    rw [none_of_noPack isPack r inside]
    exact fun ⟨v1, _, isV1, _⟩ => absurd isV1 (by simp [rowValue])
  | some k =>
    rw [RCAttr.AttrAttrSafe, forall_pack isPack, (evaluatePackAttrAttr_resetsRows sound values
      sound2 values2 sameTable inTable here isPack).congr_iff]
    refine forall_congr' fun r => imp_congr_right fun inside => ?_
    rw [not_iff_not, Meets]
    have covers : a.Covers p k := ⟨isPack, inTable⟩
    have covers2 : a2.Covers p k := ⟨isPack, sameTable ▸ inTable⟩
    cases isV1 : a.rowValue r with
    | none => simp
    | some v1 =>
      cases isV2 : a2.rowValue r with
      | none => simp
      | some v2 =>
        simp only [some.injEq, exists_and_left, exists_eq_left']
        refine (PackNode.compares_offsets_iff (isInt64_row values covers inside isV1)
          (isInt64_row values2 covers2 inside isV2) op).trans ?_
        constructor
        · rintro fits _ _ rfl rfl
          exact fits
        · exact fun fits => fits v1 v2 rfl rfl

end

/-- A comparison resets exactly the rows of the packrow that are null or fail if and only if the
differences fit and null rows are noticed. -/
theorem evaluatePack_compare_exact_iff (cond : CompareCondition) (sound : cond.Sound a)
    (inTable : ∀ row, some row ∈ p.rows → row < a.noObj) (here : w.At p later w.number 0) :
    ResetsRows p w (cond.evaluate a w) (fun r => ¬cond.Meets a r) ↔ cond.Safe a p := by
  cases cond with
  | between pv1 pv2 notBetween =>
    obtain ⟨nulls, values, isPv1, isPv2⟩ := sound
    exact evaluatePackBetweenInt_iff nulls values isPv1 isPv2 inTable here
  | attrAttr a2 op =>
    obtain ⟨nulls, values, nulls2, values2, sameTable⟩ := sound
    exact evaluatePackAttrAttr_iff nulls values nulls2 values2 sameTable inTable here

end

def farApart : RCAttr where
  dpns _ := ⟨⟨false, 0, 1⟩, false, -2 ^ 62, 2 ^ 62, fun _ => false,
    fun i => if i = 0 then 0 else -2 ^ 63⟩
  noObj := 2
  value obj := if obj = 0 then some (-2 ^ 62) else some (2 ^ 62)

theorem farApart_soundNulls : farApart.SoundNulls where
  counts := by
    intro k inTable
    obtain rfl : k = 0 := by
      rw [packSize] at inTable
      have rows : farApart.noObj = 2 := rfl
      omega
    exact ⟨rfl, by decide, rfl, fun file => absurd file Bool.false_ne_true⟩
  trivial_nulls _ _ nulls := absurd rfl nulls
  isNull obj inTable _ := by
    refine iff_of_false Bool.false_ne_true ?_
    rw [farApart]
    dsimp only
    split <;> simp

theorem farApart_soundValues : farApart.SoundValues where
  bounds := by
    intro obj inTable v isValue
    have rows : farApart.noObj = 2 := rfl
    have early : obj = 0 ∨ obj = 1 := by omega
    rcases early with rfl | rfl <;> obtain rfl := some.inj isValue <;> decide
  isInt64 _ := by
    change IsInt64 (-2 ^ 62) ∧ IsInt64 (2 ^ 62)
    decide
  getVal64 := by
    intro obj inTable _ v isValue
    have rows : farApart.noObj = 2 := rfl
    have early : obj = 0 ∨ obj = 1 := by omega
    rcases early with rfl | rfl <;> obtain rfl := some.inj isValue <;> decide
  trivial_uniform _ isTrivial _ := absurd isTrivial Bool.false_ne_true

def bothRows : Packrow where
  pack := some 0
  nullsPossible := false
  rows := [some 0, some 1]
  nonempty := List.cons_ne_nil _ _
  inPack := by
    intro row inside
    have small : row = 0 ∨ row = 1 := by simpa using inside
    rcases small with rfl | rfl <;> rfl

/-- The row with the value `2 ^ 62` is between 0 and `2 ^ 62`, but it is reset. -/
theorem farApart_between_fails :
    ¬ResetsRows bothRows ⟨0, 0, [bothRows], []⟩
      ((between 0 (2 ^ 62) false).evaluate farApart ⟨0, 0, [bothRows], []⟩)
      (fun r => ¬(between 0 (2 ^ 62) false).Meets farApart r) := by
  rintro ⟨hit, ⟨new, isNew, mem⟩, rows⟩
  have reset : ((between 0 (2 ^ 62) false).evaluate farApart
      ⟨0, 0, [bothRows], []⟩).resets = [1, 0] := by decide
  rw [List.append_nil] at isNew
  refine (rows 1 (some 1) rfl).mp ((mem 1).mp (isNew ▸ List.mem_cons_self)) ?_
  exact ⟨2 ^ 62, rfl, by decide⟩

/-- For the values below 0 the differences fit. -/
theorem farApart_between_low :
    ResetsRows bothRows ⟨0, 0, [bothRows], []⟩
      ((between (-2 ^ 62) (-1) true).evaluate farApart ⟨0, 0, [bothRows], []⟩)
      (fun r => ¬(between (-2 ^ 62) (-1) true).Meets farApart r) :=
  (evaluatePack_compare_exact_iff (.between (-2 ^ 62) (-1) true)
    ⟨farApart_soundNulls, farApart_soundValues, by decide, by decide⟩
    (fun row inside => by
      have small : row = 0 ∨ row = 1 := by simpa [bothRows] using inside
      rcases small with rfl | rfl <;> decide)
    ⟨rfl, rfl, by decide, rfl⟩).mpr (by
      intro k isPack _
      obtain rfl := Option.some.inj isPack
      refine ⟨fun r inside v isValue => ?_, fun inside => absurd inside (by decide)⟩
      have small : r = some 0 ∨ r = some 1 := by simpa [bothRows] using inside
      rcases small with rfl | rfl <;> obtain rfl := Option.some.inj isValue <;>
        rw [PackNode.BetweenFits] <;> decide)

end Brighthouse.Core
