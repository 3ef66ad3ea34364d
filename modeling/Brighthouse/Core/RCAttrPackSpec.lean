import Brighthouse.Core.RCAttrPack

/-!
# What evaluating a condition does to a packrow
-/

set_option autoImplicit false

namespace Brighthouse.Core

open PackrowWalk Library.Word64 List RCAttr Option Nat

variable {start s : Nat} {v : Int} {r : Option Nat}

/-! ## Ends of an evaluation -/

section

variable {p : Packrow} {later : List Packrow} {drops : Option Nat → Prop}

theorem drops_row_iff {i : Nat} (isRow : p.rows[i]? = some r) :
    Drops p start 0 drops (start + i) ↔ drops r := by
  constructor
  · rintro ⟨i', r', _, same, isRow', dropped⟩
    obtain rfl : i = i' := by omega
    rw [isRow] at isRow'
    exact some.inj isRow' ▸ dropped
  · exact fun dropped => ⟨i, r, zero_le i, rfl, isRow, dropped⟩

theorem forall_rows_iff {P : Option Nat → Prop} :
    (∀ (i : Nat) (r : Option Nat), p.rows[i]? = some r → P r) ↔ ∀ r ∈ p.rows, P r := by
  constructor
  · intro all r inside
    obtain ⟨i, isRow⟩ := mem_iff_getElem?.mp inside
    exact all i r isRow
  · exact fun all i r isRow => all r (mem_of_getElem? isRow)

theorem judges_curPos (f : Option Nat → Bool) (start : Nat) :
    Judges (fun mit => f mit.curPos) p later start fun r => f r = true := by
  intro w i r here isRow
  dsimp only
  rw [here.curPos_eq isRow]

end

/-! ## Nulls of a column -/

namespace RCAttr

variable {a : RCAttr} {obj : Nat}

theorem value_mem (inTable : obj < a.noObj) : a.value obj ∈ a.packRows (obj / 65536) := by
  have position : obj / 65536 * 65536 + obj % 65536 = obj := div_add_mod' obj 65536
  refine mem_map.mpr ⟨obj % 65536, mem_range.mpr ?_, by rw [position]⟩
  rw [packSize]
  omega

section
variable (sound : a.SoundNulls)
include sound

theorem SoundNulls.counts_of_row (inTable : obj < a.noObj) :
    (a.dpns (obj / 65536)).toDpn.Counts (a.packRows (obj / 65536)) := by
  refine sound.counts _ ?_
  rw [packSize]
  omega

theorem SoundNulls.none_of_nullsOnly (inTable : obj < a.noObj)
    (nullsOnly : (a.dpns (obj / 65536)).nullsOnly = true) : a.value obj = none :=
  (sound.counts_of_row inTable).nullsOnly_iff.mp nullsOnly _ (value_mem inTable)

theorem SoundNulls.ne_none_of_noNulls (inTable : obj < a.noObj)
    (noNulls : (a.dpns (obj / 65536)).noNulls = 0) : a.value obj ≠ none := by
  intro isNull
  have count := (sound.counts_of_row inTable).nulls
  rw [noNulls, eq_comm, count_eq_zero] at count
  exact count (isNull ▸ value_mem inTable)

theorem SoundNulls.noNulls_of_trivial {k : Nat}
    (easy : ¬((a.dpns k).trivial = false ∧ (a.dpns k).noNulls ≠ 0))
    (notAll : (a.dpns k).nullsOnly = false) : (a.dpns k).noNulls = 0 := by
  by_contra some
  have trivialPack : (a.dpns k).trivial = true := by
    by_contra stored
    exact easy ⟨Bool.eq_false_of_not_eq_true stored, some⟩
  have file := sound.trivial_nulls k trivialPack some
  exact Bool.false_ne_true (notAll.symm.trans (Dpn.nullsOnly_of_file file))

theorem SoundNulls.notFile (inTable : obj < a.noObj) (isValue : a.value obj = some v) :
    (a.dpns (obj / 65536)).fileNullsOnly = false := by
  by_contra file
  have nullsOnly := Dpn.nullsOnly_of_file (Bool.eq_true_of_not_eq_false file)
  exact absurd ((sound.none_of_nullsOnly inTable nullsOnly).symm.trans isValue) (by simp)

end

end RCAttr

/-! ## Rows of a packrow -/

section

variable {a : RCAttr} {w : PackrowWalk} {p : Packrow} {later : List Packrow}

theorem getCurPackrow_eq (here : w.At p later start s) : w.getCurPackrow = p.pack := by
  rw [getCurPackrow, here.ahead]

theorem nullsPossible_eq (here : w.At p later start s) :
    w.nullsPossibleInPack = p.nullsPossible := by
  rw [nullsPossibleInPack, here.ahead]

structure RCAttr.Covers (a : RCAttr) (p : Packrow) (k : Nat) : Prop where
  isPack : p.pack = some k
  inTable : ∀ row, some row ∈ p.rows → row < a.noObj

theorem none_of_noPack (noPack : p.pack = none) : ∀ r ∈ p.rows, r = none := by
  intro r inside
  cases r with
  | none => rfl
  | some row => exact absurd ((p.inPack row inside).symm.trans noPack) (by simp)

theorem RCAttr.Covers.pack_eq {k row : Nat} (covers : a.Covers p k) (inside : some row ∈ p.rows) :
    row / 65536 = k :=
  some.inj ((p.inPack row inside).symm.trans covers.isPack)

section
variable (sound : a.SoundNulls) {k : Nat} (covers : a.Covers p k)
include sound covers

theorem rowValue_of_noNulls (noNulls : (a.dpns k).noNulls = 0) :
    ∀ r ∈ p.rows, (a.rowValue r = none ↔ r = none) := by
  intro r inside
  cases r with
  | none => exact iff_of_true rfl rfl
  | some row =>
    refine iff_of_false ?_ (by simp)
    exact sound.ne_none_of_noNulls (covers.inTable row inside) (covers.pack_eq inside ▸ noNulls)

theorem rowValue_of_nullsOnly (nullsOnly : (a.dpns k).nullsOnly = true) :
    ∀ r ∈ p.rows, a.rowValue r = none := by
  intro r inside
  cases r with
  | none => rfl
  | some row =>
    exact sound.none_of_nullsOnly (covers.inTable row inside) (covers.pack_eq inside ▸ nullsOnly)

theorem packIsNull_iff (stored : (a.dpns k).trivial = false) :
    ∀ r ∈ p.rows, ((r.isNone || (a.dpns k).packIsNull (r.getD 1 % 65536)) = true ↔
      a.rowValue r = none) := by
  intro r inside
  cases r with
  | none => exact iff_of_true rfl rfl
  | some row =>
    obtain rfl := covers.pack_eq inside
    exact sound.isNull row (covers.inTable row inside) stored

end

theorem forall_pack {k : Nat} (isPack : p.pack = some k) (P : Nat → Prop) :
    (∀ k, p.pack = some k → P k) ↔ P k := by
  constructor
  · exact fun all => all k isPack
  · intro holds k' isPack'
    exact some.inj (isPack.symm.trans isPack') ▸ holds

theorem forall_noPack (noPack : p.pack = none) (P : Nat → Prop) : ∀ k, p.pack = some k → P k :=
  fun _ isPack => absurd (noPack.symm.trans isPack) (by simp)

section
variable (values : a.SoundValues) {k : Nat}
include values

theorem boundsOf_row (covers : a.Covers p k) (inside : r ∈ p.rows)
    (isValue : a.rowValue r = some v) :
    (a.dpns k).localMin ≤ v ∧ v ≤ (a.dpns k).localMax := by
  cases r with
  | none => exact absurd isValue (by simp [rowValue])
  | some row =>
    obtain rfl := covers.pack_eq inside
    exact values.bounds row (covers.inTable row inside) v isValue

theorem rowValue_of_uniform (covers : a.Covers p k)
    (uniform : (a.dpns k).localMin = (a.dpns k).localMax) :
    ∀ r ∈ p.rows, ∀ v, a.rowValue r = some v → v = (a.dpns k).localMin := by
  intro r inside v isValue
  have bounds := boundsOf_row values covers inside isValue
  omega

theorem stored_of_range (notFile : (a.dpns k).fileNullsOnly = false)
    (range : (a.dpns k).localMin ≠ (a.dpns k).localMax) : (a.dpns k).trivial = false := by
  by_contra isTrivial
  exact range (values.trivial_uniform k (Bool.eq_true_of_not_eq_false isTrivial) notFile)

end

end

end Brighthouse.Core
