import Brighthouse.Core.FilterGroupSpec
import Brighthouse.Core.MaterializedGroupSpec

/-!
# The tuples of a dimension group

`Packed` says which tuples a group holds and how they are split into packs.  The iterator of
the group meets the contract of `GroupContract` for these packs.
-/

set_option autoImplicit false

namespace Brighthouse.Core

open Library.BitCount Library.Odometer List DGMaterializedIterator DGVirtualIterator
open DGFilterIterator renaming contract → onFilter
open DGMaterializedIterator renaming contract → onTables
open DGVirtualIterator renaming contract → onVirtual

/-! ## Packs and tuples -/

section

variable {rows b : Nat} {bits : Nat → Bool}

theorem flatten_packsFrom : (packsFrom rows bits b).flatten = onesIn bits (b * 65536) rows := by
  generalize left : (rows + 65535) / 65536 - b = blocks
  induction blocks generalizing b with
  | zero =>
    rw [packsFrom_of_le (by omega), onesIn_of_le (by omega)]
    rfl
  | succ blocks ih =>
    rw [packsFrom_step (by omega), flatten_append, ih (by omega), onesIn_packOf rows bits b]
    split
    · rename_i empty
      rw [isEmpty_iff.mp empty]
      rfl
    · rw [flatten_singleton]

theorem nil_notMem_packsFrom : [] ∉ packsFrom rows bits b := by
  intro inside
  have full := (mem_filter.mp inside).2
  cases full

theorem label_injective {r s : Nat} (same : label bits r = label bits s) : r = s :=
  (GroupTuple.rowIndex.inj same).1

end

section

variable {noObj p : Nat} {dims : List IndexedDim}

theorem flatten_indexPacks (inObj : p < noObj) (cut : isCut noObj dims p = true) :
    (indexPacks noObj dims p).flatten = range' p (noObj - p) := by
  generalize left : noObj - p = size
  induction size using Nat.strong_induction_on generalizing p with
  | _ size ih =>
    rw [indexPacks, onesIn_cons inObj cut, map_cons, flatten_cons, indexPack]
    cases ahead : onesIn (isCut noObj dims) (p + 1) noObj with
    | nil =>
      rw [cutEnd_of_none ahead, left]
      exact append_nil _
    | cons q rest =>
      obtain ⟨isEnd, after, before, isStart, onward⟩ := cutEnd_of_some ahead
      have whole : onesIn (isCut noObj dims) q noObj = q :: rest := by
        rw [onesIn_cons before isStart, onward]
      have tail := ih (noObj - q) (by omega) before isStart rfl
      rw [indexPacks, whole] at tail
      have sizes : size = (q - p) + (noObj - q) := by omega
      have start : q = p + 1 * (q - p) := by omega
      rw [tail, isEnd, sizes, ← range'_append, ← start]

theorem nil_notMem_indexPacks : [] ∉ indexPacks noObj dims p := by
  intro inside
  obtain ⟨q, isStart, empty⟩ := mem_map.mp inside
  have inObj := (mem_onesIn.mp isStart).1.2
  have after : q < cutEnd noObj dims q := cutEnd_gt inObj
  rw [indexPack, range'_eq_nil_iff] at empty
  omega

end

/-- The group holds `tuples`, and its iterator visits them pack by pack. -/
inductive DimensionGroup.Packed : DimensionGroup → List (List GroupTuple) → List GroupTuple → Prop
  | filter {f : Filter} {rows : Nat} {bits : Nat → Bool} (shown : f.Shows rows bits) :
      Packed (.filter f) ((packsFrom rows bits 0).map (List.map .row))
        ((onesIn bits 0 rows).map .row)
  | materialized (noObj : Nat) (dims : List IndexedDim) :
      Packed (.materialized noObj dims) ((indexPacks noObj dims 0).map (List.map .index))
        ((List.range noObj).map .index)
  | virtual {f : Filter} {rows : Nat} {bits : Nat → Bool} (shown : f.Shows rows bits) :
      Packed (.virtual f) ((packsFrom rows bits 0).map (List.map (DGVirtualIterator.label bits)))
        ((onesIn bits 0 rows).map (DGVirtualIterator.label bits))

namespace DimensionGroup.Packed

variable {g : DimensionGroup} {packs : List (List GroupTuple)} {tuples : List GroupTuple}

variable (packed : g.Packed packs tuples)
include packed

theorem flatten_eq : packs.flatten = tuples := by
  cases packed with
  | filter shown | virtual shown =>
    rw [← map_flatten, flatten_packsFrom]
  | materialized noObj dims =>
    rw [← map_flatten]
    by_cases some : 0 < noObj
    · rw [flatten_indexPacks some isCut_zero, range_eq_range', Nat.sub_zero]
    · rw [indexPacks, Nat.eq_zero_of_not_pos some]
      rfl

theorem nil_notMem : [] ∉ packs := by
  intro inside
  cases packed with
  | filter shown | virtual shown =>
    obtain ⟨pack, isPack, empty⟩ := mem_map.mp inside
    exact nil_notMem_packsFrom (map_eq_nil_iff.mp empty ▸ isPack)
  | materialized noObj dims =>
    obtain ⟨pack, isPack, empty⟩ := mem_map.mp inside
    exact nil_notMem_indexPacks (map_eq_nil_iff.mp empty ▸ isPack)

theorem nodup : tuples.Nodup := by
  cases packed with
  | filter shown =>
    exact (nodup_onesIn _ _ _).map fun r s same => GroupTuple.row.inj same
  | materialized noObj dims =>
    exact nodup_range.map fun r s same => GroupTuple.index.inj same
  | virtual shown =>
    exact (nodup_onesIn _ _ _).map fun r s same => label_injective same

end DimensionGroup.Packed

/-! ## The iterators of groups -/

namespace DimensionGroupIterator

noncomputable def contract : GroupContract DimensionGroupIterator GroupTuple where
  Of packs
    | .filter it => onFilter.Of packs it
    | .materialized it => onTables.Of packs it
    | .virtual it => onVirtual.Of packs it
  Stands
    | .filter it => onFilter.Stands it
    | .materialized it => onTables.Stands it
    | .virtual it => onVirtual.Stands it
  isFilter := isFilter
  isValid_of_stands {it} _ stands := match it with
    | .filter _ => onFilter.isValid_of_stands stands
    | .materialized _ => onTables.isValid_of_stands stands
    | .virtual _ => onVirtual.isValid_of_stands stands
  current_of_stands {it} _ stands := match it with
    | .filter _ => onFilter.current_of_stands stands
    | .materialized _ => onTables.current_of_stands stands
    | .virtual _ => onVirtual.current_of_stands stands
  getPackSizeLeft_of_stands {it} _ stands := match it with
    | .filter _ => onFilter.getPackSizeLeft_of_stands stands
    | .materialized _ => onTables.getPackSizeLeft_of_stands stands
    | .virtual _ => onVirtual.getPackSizeLeft_of_stands stands
  packs_ne_nil {it} _ stands := match it with
    | .filter _ => onFilter.packs_ne_nil stands
    | .materialized _ => onTables.packs_ne_nil stands
    | .virtual _ => onVirtual.packs_ne_nil stands
  rewind_nil {it} of := match it with
    | .filter _ => onFilter.rewind_nil of
    | .materialized _ => onTables.rewind_nil of
    | .virtual _ => onVirtual.rewind_nil of
  rewind_cons {it} _ _ of := match it with
    | .filter _ => onFilter.rewind_cons of
    | .materialized _ => onTables.rewind_cons of
    | .virtual _ => onVirtual.rewind_cons of
  nextInsidePack_more {it} _ _ _ _ _ _ stands := match it with
    | .filter _ => onFilter.nextInsidePack_more stands
    | .materialized _ => onTables.nextInsidePack_more stands
    | .virtual _ => onVirtual.nextInsidePack_more stands
  nextInsidePack_last {it} _ _ _ _ stands := match it with
    | .filter _ => onFilter.nextInsidePack_last stands
    | .materialized _ => onTables.nextInsidePack_last stands
    | .virtual _ => onVirtual.nextInsidePack_last stands
  nextPackrow_more {it} _ _ _ _ _ stands := match it with
    | .filter _ => onFilter.nextPackrow_more stands
    | .materialized _ => onTables.nextPackrow_more stands
    | .virtual _ => onVirtual.nextPackrow_more stands
  nextPackrow_last {it} _ _ _ stands := match it with
    | .filter _ => onFilter.nextPackrow_last stands
    | .materialized _ => onTables.nextPackrow_last stands
    | .virtual _ => onVirtual.nextPackrow_last stands
  increment_more {it} _ _ _ _ _ _ filter stands := match it with
    | .filter _ => onFilter.increment_more rfl stands
    | .materialized _ | .virtual _ => nomatch filter
  increment_pack {it} _ _ _ _ _ filter stands := match it with
    | .filter _ => onFilter.increment_pack rfl stands
    | .materialized _ | .virtual _ => nomatch filter
  increment_last {it} _ _ _ filter stands := match it with
    | .filter _ => onFilter.increment_last rfl stands
    | .materialized _ | .virtual _ => nomatch filter
  of_increment {it} _ of := match it with
    | .filter _ => onFilter.of_increment of
    | .materialized _ => onTables.of_increment of
    | .virtual _ => onVirtual.of_increment of
  of_rewind {it} _ of := match it with
    | .filter _ => onFilter.of_rewind of
    | .materialized _ => onTables.of_rewind of
    | .virtual _ => onVirtual.of_rewind of
  of_nextInsidePack {it} _ of := match it with
    | .filter _ => onFilter.of_nextInsidePack of
    | .materialized _ => onTables.of_nextInsidePack of
    | .virtual _ => onVirtual.of_nextInsidePack of
  of_nextPackrow {it} _ of := match it with
    | .filter _ => onFilter.of_nextPackrow of
    | .materialized _ => onTables.of_nextPackrow of
    | .virtual _ => onVirtual.of_nextPackrow of
  isFilter_rewind it := by cases it <;> rfl
  isFilter_nextPackrow it := by cases it <;> rfl
  isFilter_increment it := by cases it <;> rfl

end DimensionGroupIterator

theorem DimensionGroup.Packed.of_newIterator {g : DimensionGroup} {packs : List (List GroupTuple)}
    {tuples : List GroupTuple} (packed : g.Packed packs tuples) :
    DimensionGroupIterator.contract.Of packs g.newIterator := by
  cases packed with
  | @filter f rows bits shown | @virtual f rows bits shown =>
    have same : (FilterOnesIterator.init f).f = f := FilterOnesIterator.increment_f _
    exact ⟨rows, bits, same.symm ▸ shown, rfl⟩
  | materialized noObj dims =>
    have sameObj : (init noObj dims).noObj = noObj := initPackrow_noObj _
    refine ⟨dims, dimOf_rewind ?_, sameObj.symm ▸ rfl⟩
    rw [forall₂_map_right_iff, forall₂_same]
    intro d _
    refine ⟨rfl, fun one => ?_⟩
    rw [DimCursor.init, Bool.and_eq_true] at one
    exact of_decide_eq_true one.1

end Brighthouse.Core
