import Brighthouse.Core.FilterPending
import Brighthouse.Core.MIUpdatingWalk
import Brighthouse.Core.MultiIndexEnumerates

/-!
# What an updating iterator removes

After a walk and `Commit` exactly the tuples are left that the walk has not removed, if and
only if no `ResetCurrentPack` removes packrows that were skipped by `NextPackrow` before.
-/

set_option autoImplicit false

namespace Brighthouse.Core

open Library.BitCount Library.Odometer MIIterator GroupContract List PackedGroup Int
open Walker

variable {σ τ : Type} [GroupIterator σ τ] {contract : GroupContract σ τ}
  {packrows : List (List (List τ))} {u : MIUpdatingIterator σ τ} {w : Walker τ}

/-! ## The filter of removed tuples -/

def clears (w : Walker τ) (op : WalkOp) (k : Nat) : Prop := w.Marks op k ∨ w.Stale op k

variable {bits : Nat → Bool}

theorem Tracks.pending_step (tracks : Tracks contract packrows u w)
    (pending : u.multiDimFilter.Pending packrows.flatten.length bits) (op : WalkOp) :
    ∃ bits', (u.step op).multiDimFilter.Pending packrows.flatten.length bits' ∧
      (∀ k, bits' k = false ↔ bits k = false ∨ clears w op k) ∧
      ((u.step op).changed = false → u.changed = false ∧ bits' = bits) := by
  obtain ⟨before, seen, located, _⟩ := tracks.located
  have bound := located.bound
  have positive := tuplesLeft_pos tracks.counts.cursors
  have started := tracks.started
  have fills : ∀ first stop k, fill bits first stop false k = false ↔
      bits k = false ∨ (first ≤ k ∧ k < stop) := by
    intro first stop k
    rw [fill]
    split
    · exact ⟨fun _ => Or.inr ‹_›, fun _ => rfl⟩
    · exact ⟨Or.inl, fun either => either.resolve_right ‹_›⟩
  cases op with
  | increment | nextPackrow =>
    refine ⟨bits, pending, fun k => ?_, fun same => ⟨same, rfl⟩⟩
    simp [clears, Marks, Stale]
  | resetCurrent =>
    have position : u.multiFilterPos.toNat = w.pos := by rw [tracks.pos, toNat_natCast]
    refine ⟨fill bits w.pos (w.pos + 1) false, ?_, fun k => ?_,
      fun same => absurd same Bool.false_ne_true.symm⟩
    · show (u.multiDimFilter.resetDelayed u.multiFilterPos.toNat).Pending _ _
      rw [position]
      exact pending.resetDelayed (by omega)
    · rw [fills]
      simp only [clears, Marks, Stale, true_and, reduceCtorEq, false_and, or_false]
      exact or_congr_right (by omega)
  | resetCurrentPack =>
    have first : u.multiFilterPackStart.toNat = w.packStart := by
      rw [tracks.packStart, toNat_natCast]
    have last : (u.multiFilterPos + u.mit.packSizeLeft - 1).toNat =
        w.pos + (tuplesLeft w.places).length - 1 := by
      rw [tracks.pos, tracks.counts.size]
      omega
    obtain ⟨shown, noReset, noSet⟩ := pending.commit
    have done : (u.multiDimFilter.commit.resetBetween w.packStart
        (w.pos + (tuplesLeft w.places).length - 1)).Shows _ _ :=
      shown.resetBetween (by omega) (by omega)
    obtain ⟨slots, frame⟩ := Filter.resetBetween_sameFrame u.multiDimFilter.commit w.packStart
      (w.pos + (tuplesLeft w.places).length - 1)
    refine ⟨fill bits w.packStart (w.pos + (tuplesLeft w.places).length) false, ?_, fun k => ?_,
      fun same => absurd same Bool.false_ne_true.symm⟩
    · show (u.multiDimFilter.commit.resetBetween u.multiFilterPackStart.toNat
        (u.multiFilterPos + u.mit.packSizeLeft - 1).toNat).Pending _ _
      rw [first, last]
      rw [Nat.sub_add_cancel (by omega)] at done
      refine done.pending ?_ ?_
      · rw [frame]
        exact noReset
      · rw [frame]
        exact noSet
    · rw [fills]
      simp only [clears, Marks, Stale, true_and, reduceCtorEq, false_and, false_or]
      exact or_congr_right (by omega)

variable {ops : List WalkOp}

theorem Tracks.pending_run (tracks : Tracks contract packrows u w)
    (pending : u.multiDimFilter.Pending packrows.flatten.length bits) (allowed : u.Allowed ops)
    (aligned : AlignedAlong (some w) ops) :
    ∃ bits', (u.run ops).multiDimFilter.Pending packrows.flatten.length bits' ∧
      (∀ k, bits' k = false ↔ bits k = false ∨ Along clears (some w) ops k) ∧
      ((u.run ops).changed = false → u.changed = false ∧ bits' = bits) := by
  induction ops generalizing u w bits with
  | nil => exact ⟨bits, pending, fun k => (or_iff_left id).symm, fun same => ⟨same, rfl⟩⟩
  | cons op ops ih =>
    obtain ⟨valid, first, rest⟩ := allowed
    obtain ⟨bits1, pending1, cleared1, same1⟩ := tracks.pending_step pending op
    rcases tracks.step aligned.1 with ⟨ended, invalid⟩ | ⟨next, moved, tracks1⟩
    · cases ops with
      | nil =>
        refine ⟨bits1, pending1, fun k => ?_, same1⟩
        rw [cleared1, Along, ended]
        simp [Along]
      | cons op' ops => exact absurd (rest.1.symm.trans invalid) (by simp)
    · have aligned1 := aligned.2
      rw [moved] at aligned1
      obtain ⟨bits2, pending2, cleared2, same2⟩ := ih tracks1 pending1 rest aligned1
      refine ⟨bits2, pending2, fun k => ?_, fun same => ?_⟩
      · rw [cleared2, cleared1, Along, moved, or_assoc]
      · obtain ⟨same', rfl⟩ := same2 same
        exact same1 same'

/-! ## Removed tuples -/

variable {α : Type}

theorem row_unique {rows : List (List α)} (once : rows.flatten.Nodup) {row row' : List α} {x : α}
    (isRow : row ∈ rows) (isRow' : row' ∈ rows) (inside : x ∈ row) (inside' : x ∈ row') :
    row = row' := by
  by_contra different
  have apart := (nodup_flatten.mp once).2
  have symmetric : Std.Symm (@Disjoint α) := ⟨fun _ _ disjoint => disjoint.symm⟩
  exact apart.forall isRow isRow' different inside inside'

theorem Tracks.removes_step (tracks : Tracks contract packrows u w) (once : packrows.flatten.Nodup)
    {op : WalkOp} (first : op = .resetCurrentPack → u.mit.packrowStarted = true) (t : List τ) :
    (op = .resetCurrent ∧ u.mit.curPos = t.map some) ∨
        (op = .resetCurrentPack ∧
          ∃ row ∈ packrows, t ∈ row ∧ ∃ c ∈ row, u.mit.curPos = c.map some) ↔
      ∃ k, packrows.flatten[k]? = some t ∧ w.Marks op k := by
  obtain ⟨before, seen, located, atStart⟩ := tracks.located
  obtain ⟨current, left, ahead⟩ := exists_cons_of_ne_nil
    (ne_nil_of_length_pos (tuplesLeft_pos tracks.counts.cursors))
  have shown := tracks.counts.toAtPlaces.curPos_eq ahead
  have isCurrent : ∀ c : List τ, u.mit.curPos = c.map some ↔ current = c := by
    intro c
    rw [shown]
    exact (map_injective_iff.mpr (Option.some_injective τ)).eq_iff
  have here : packrows.flatten[w.pos]? = some current := by
    have value := located.getElem (tuplesLeft_pos tracks.counts.cursors)
    rwa [ahead] at value
  cases op with
  | increment | nextPackrow => simp [Marks]
  | resetCurrent =>
    simp only [Marks, true_and, reduceCtorEq, false_and, or_false]
    rw [isCurrent]
    constructor
    · rintro rfl
      exact ⟨w.pos, here, rfl⟩
    · rintro ⟨k, isT, rfl⟩
      exact Option.some.inj (here.symm.trans isT)
  | resetCurrentPack =>
    simp only [Marks, true_and, reduceCtorEq, false_and, false_or, isCurrent]
    obtain rfl := atStart (first rfl)
    have isRow : tuplesLeft w.places ∈ packrows := by
      rw [located.split]
      exact mem_append_right _ mem_cons_self
    constructor
    · rintro ⟨row, isRow', inside, c, inRow, rfl⟩
      have inHere : current ∈ tuplesLeft w.places := by
        rw [ahead]
        exact mem_cons_self
      obtain rfl := row_unique once isRow' isRow inRow inHere
      obtain ⟨i, value⟩ := mem_iff_getElem?.mp inside
      have lt := (List.getElem?_eq_some_iff.mp value).1
      exact ⟨w.pos + i, (located.getElem lt).trans value, Nat.le_add_right _ _, by omega⟩
    · rintro ⟨k, isT, low, high⟩
      have value := located.getElem (by omega : k - w.pos < (tuplesLeft w.places).length)
      rw [Nat.add_sub_cancel' low, isT] at value
      refine ⟨_, isRow, mem_iff_getElem?.mpr ⟨_, value.symm⟩, current, ?_, rfl⟩
      rw [ahead]
      exact mem_cons_self

theorem Tracks.removes_iff (tracks : Tracks contract packrows u w) (once : packrows.flatten.Nodup)
    (allowed : u.Allowed ops) (aligned : AlignedAlong (some w) ops) (t : List τ) :
    u.Removes packrows ops t ↔
      ∃ k, packrows.flatten[k]? = some t ∧ Along Marks (some w) ops k := by
  induction ops generalizing u w with
  | nil => simp [MIUpdatingIterator.Removes, Along]
  | cons op ops ih =>
    obtain ⟨valid, first, rest⟩ := allowed
    rw [MIUpdatingIterator.Removes, ← or_assoc, tracks.removes_step once first]
    simp only [Along, and_or_left, exists_or]
    refine or_congr_right ?_
    rcases tracks.step aligned.1 with ⟨ended, invalid⟩ | ⟨next, moved, tracks1⟩
    · cases ops with
      | nil => simp [MIUpdatingIterator.Removes, Along, ended]
      | cons op' ops => exact absurd (rest.1.symm.trans invalid) (by simp)
    · have aligned1 := aligned.2
      rw [moved] at aligned1 ⊢
      exact ih tracks1 rest aligned1

/-! ## Commit -/

def keep {α : Type} (bits : Nat → Bool) : Nat → List α → List α
  | _, [] => []
  | n, x :: xs => (if bits n then [x] else []) ++ keep bits (n + 1) xs

theorem keep_sublist (n : Nat) (xs : List α) : (keep bits n xs).Sublist xs := by
  induction xs generalizing n with
  | nil => exact .refl _
  | cons x xs ih =>
    rw [keep]
    split
    · exact (ih (n + 1)).cons_cons x
    · exact (ih (n + 1)).cons x

theorem keep_congr {bits' : Nat → Bool} {n : Nat} {xs : List α}
    (same : ∀ k, n ≤ k → k < n + xs.length → bits k = bits' k) :
    keep bits n xs = keep bits' n xs := by
  induction xs generalizing n with
  | nil => rfl
  | cons x xs ih =>
    rw [length_cons] at same
    rw [keep, keep, same n le_rfl (by omega), ih fun k low high => same k (by omega) (by omega)]

theorem keep_all (n : Nat) (xs : List α) : keep (fun _ => true) n xs = xs := by
  induction xs generalizing n with
  | nil => rfl
  | cons x xs ih =>
    rw [keep, ih]
    rfl

theorem keep_eq_filter_iff {p : α → Bool} {n : Nat} {xs : List α} (once : xs.Nodup) :
    keep bits n xs = xs.filter p ↔ ∀ i x, xs[i]? = some x → bits (n + i) = p x := by
  induction xs generalizing n with
  | nil => simp [keep]
  | cons x xs ih =>
    obtain ⟨fresh, onceTail⟩ := nodup_cons.mp once
    have split : (∀ i y, (x :: xs)[i]? = some y → bits (n + i) = p y) ↔
        bits n = p x ∧ ∀ i y, xs[i]? = some y → bits (n + 1 + i) = p y := by
      rw [← Nat.and_forall_add_one]
      simp [add_assoc, add_comm 1]
    rw [split, ← ih onceTail, keep, filter_cons]
    have notKept : x ∉ keep bits (n + 1) xs := fun kept =>
      fresh ((keep_sublist (n + 1) xs).subset kept)
    have notIn : x ∉ xs.filter p := fun kept => fresh (mem_filter.mp kept).1
    cases bits n <;> cases p x
    · simp
    · simp only [Bool.false_eq_true, if_false, if_true, nil_append, false_and, iff_false]
      exact fun same => notKept (same ▸ mem_cons_self)
    · simp only [Bool.false_eq_true, if_false, if_true, singleton_append, reduceCtorEq,
        false_and, iff_false]
      exact fun same => notIn (same ▸ mem_cons_self)
    · simp

section

variable {m : MIIterator σ τ} {tuples : List (List τ)}

theorem MIIterator.Visits.head {t : List τ} (visits : m.Visits (t :: tuples)) :
    m.valid = true ∧ m.curPos = t.map some :=
  visits.shows_tuple [] t tuples rfl

theorem MIIterator.Visits.tail {t : List τ} (visits : m.Visits (t :: tuples)) :
    m.increment.Visits tuples where
  shows_tuple seen t' left split := visits.shows_tuple (t :: seen) t' left (by rw [split]; rfl)
  ends := visits.ends

theorem MIIterator.Visits.filterAnd_eq {fd : Filter} (visits : m.Visits tuples) (n : Nat) :
    m.filterAnd fd tuples.length n = (keep fd.get n tuples).map (map some) := by
  induction tuples generalizing m n with
  | nil => rfl
  | cons t tuples ih =>
    obtain ⟨valid, current⟩ := visits.head
    rw [length_cons, filterAnd, if_pos valid, ih visits.tail, keep, map_append, current]
    split <;> rfl

theorem MIIterator.Visits.tuples_eq (visits : m.Visits tuples) :
    m.tuples tuples.length = tuples.map (map some) := by
  induction tuples generalizing m with
  | nil => rfl
  | cons t tuples ih =>
    obtain ⟨valid, current⟩ := visits.head
    rw [length_cons, MIIterator.tuples, if_pos valid, ih visits.tail, current, map_cons]

end

variable {groups : List (List (List τ))}

theorem over_run (isOver : contract.Over u.mit groups) (ops : List WalkOp) :
    contract.Over (u.run ops).mit groups := by
  induction ops generalizing u with
  | nil => exact isOver
  | cons op ops ih =>
    refine ih ?_
    cases op with
    | increment => exact isOver.increment
    | nextPackrow => exact isOver.nextPackrow
    | resetCurrent | resetCurrentPack => exact isOver

theorem run_noObj (u : MIUpdatingIterator σ τ) (ops : List WalkOp) :
    (u.run ops).noObj = u.noObj := by
  induction ops generalizing u with
  | nil => rfl
  | cons op ops ih =>
    refine (ih (u.step op)).trans ?_
    cases op <;> rfl

theorem commit_eq_keep (isOver : contract.Over u.mit groups)
    (enumerates : ∀ m, contract.Over m groups → m.rewind.Enumerates packrows)
    (size : u.noObj = packrows.flatten.length)
    (pending : (u.run ops).multiDimFilter.Pending packrows.flatten.length bits)
    (unchanged : (u.run ops).changed = false → bits = fun _ => true) :
    (u.run ops).commit = (keep bits 0 packrows.flatten).map (map some) := by
  have visits := (enumerates _ (over_run isOver ops)).visits
  rw [MIUpdatingIterator.commit, run_noObj, size]
  cases changed : (u.run ops).changed with
  | true =>
    have same : ∀ k, 0 ≤ k → k < 0 + packrows.flatten.length →
        (u.run ops).multiDimFilter.commit.get k = bits k := by
      intro k _ high
      exact pending.commit.1.get_eq (by omega)
    rw [if_pos rfl, visits.filterAnd_eq, keep_congr same]
  | false => rw [if_neg Bool.false_ne_true, visits.tuples_eq, unchanged changed, keep_all]

theorem Walker.along_clears {start : Option (Walker τ)} {k : Nat} :
    Along clears start ops k ↔
      Along Marks start ops k ∨ Along Stale start ops k := by
  induction ops generalizing start with
  | nil => cases start <;> simp [Along]
  | cons op ops ih =>
    cases start with
    | none => simp [Along]
    | some w =>
      simp only [Along, clears, ih]
      exact or_or_or_comm ..

open Classical in
/-- After `Commit` exactly the tuples are left that the walk does not remove, if and only if
the walk removes the packrows before the current one that `ResetCurrentPack` clears as well. -/
theorem Tracks.commit_iff {groups : List (List (List τ))} {ops : List WalkOp}
    (tracks : Tracks contract packrows u w) (isOver : contract.Over u.mit groups)
    (enumerates : ∀ m, contract.Over m groups → m.rewind.Enumerates packrows)
    (once : packrows.flatten.Nodup) (size : u.noObj = packrows.flatten.length)
    (pending : u.multiDimFilter.Pending packrows.flatten.length fun _ => true)
    (allowed : u.Allowed ops) (aligned : AlignedAlong (some w) ops) :
    (u.run ops).commit =
        (packrows.flatten.filter fun t => decide ¬u.Removes packrows ops t).map (map some) ↔
      ∀ k < packrows.flatten.length, Along Stale (some w) ops k →
        Along Marks (some w) ops k := by
  obtain ⟨bits, pending', cleared, unchanged⟩ := tracks.pending_run pending allowed aligned
  have injective : Function.Injective (map (map (some : τ → Option τ))) :=
    map_injective_iff.mpr (map_injective_iff.mpr (Option.some_injective τ))
  rw [commit_eq_keep isOver enumerates size pending' fun same => (unchanged same).2,
    injective.eq_iff, keep_eq_filter_iff once]
  have removed : ∀ k t, packrows.flatten[k]? = some t →
      (u.Removes packrows ops t ↔ Along Marks (some w) ops k) := by
    intro k t value
    rw [tracks.removes_iff once allowed aligned]
    constructor
    · rintro ⟨k', value', marked⟩
      have lt := (List.getElem?_eq_some_iff.mp value).1
      rwa [(getElem?_inj lt once).mp (value.trans value'.symm)]
    · exact fun marked => ⟨k, value, marked⟩
  have agree : ∀ k t, packrows.flatten[k]? = some t →
      (bits (0 + k) = decide (¬u.Removes packrows ops t) ↔
        (Along Stale (some w) ops k → Along Marks (some w) ops k)) := by
    intro k t value
    have isCleared := cleared k
    rw [along_clears] at isCleared
    rw [zero_add, Bool.eq_iff_iff, decide_eq_true_iff, removed k t value, ← Bool.not_eq_false,
      isCleared]
    tauto
  constructor
  · intro all k lt
    obtain ⟨t, value⟩ : ∃ t, packrows.flatten[k]? = some t := ⟨_, getElem?_eq_getElem lt⟩
    exact (agree k t value).mp (all k t value)
  · intro safe k t value
    exact (agree k t value).mpr (safe k (List.getElem?_eq_some_iff.mp value).1)

/-! ## Multiindices -/

section

variable {groups : List PackedGroup} {dimGroups : List DimensionGroup}

theorem DimensionGroup.Packed.noTuples_eq {g : DimensionGroup} {packs : List (List GroupTuple)}
    {tuples : List GroupTuple} (packed : g.Packed packs tuples) : g.noTuples = tuples.length := by
  have count : ∀ bits rows, (onesIn bits 0 rows).length = ones bits rows := by
    intro bits rows
    have size := length_onesIn bits 0 rows
    simp only [zero_add] at size
    exact size
  cases packed with
  | filter shown | virtual shown =>
    rw [length_map, count]
    exact shown.noOnes_eq
  | materialized noObj dims =>
    rw [length_map, length_range]
    rfl

theorem length_packrowsOf (some : groups ≠ []) :
    (packrowsOf (groups.map packs)).flatten.length =
      (groups.map fun g => g.tuples.length).prod := by
  rw [(packrowsOf_perm some).length_eq, length_choices, map_map]
  rfl

theorem rowLimit_lt : rowLimit < 2 ^ 61 := by decide

theorem packrows_known (fits : (groups.map fun g => g.tuples.length).prod ≤ rowLimit) :
    ∀ packrow ∈ choices (groups.map packs), Known packrow := by
  have limit := rowLimit_lt
  intro packrow chosen
  have packFits := pack_fits (by omega) packrow chosen
  refine ⟨packFits, (safeProduct_known_iff fun n inside => ?_).mpr (noOverflow_of_prod ?_ ?_ ?_)⟩
  · obtain ⟨pack, isPack, rfl⟩ := mem_map.mp inside
    exact packFits pack isPack
  · intro n inside
    obtain ⟨pack, isPack, rfl⟩ := mem_map.mp inside
    obtain ⟨packs, arePacks, here⟩ := exists_related (mem_choices.mp chosen) pack isPack
    obtain ⟨g, _, rfl⟩ := mem_map.mp arePacks
    exact length_pos_iff.mpr fun empty => g.packed.nil_notMem (empty ▸ here)
  · decide
  · rw [one_mul, ← length_choices]
    by_cases some : groups = []
    · subst some
      obtain rfl := mem_singleton.mp chosen
      decide
    · have isRow : choices packrow ∈ packrowsOf (groups.map packs) := by
        rw [packrowsOf, if_neg (by rw [List.isEmpty_iff, map_eq_nil_iff]; exact some)]
        exact mem_map_of_mem chosen
      have short := (sublist_flatten_of_mem isRow).length_le
      rw [length_packrowsOf some] at short
      omega

theorem init_valid (some : groups ≠ []) (nonempty : [] ∉ groups.map packs) :
    (init (groups.map group)).valid = true :=
  ((over_created groups).rewind_nonempty (fun none => some (map_eq_nil_iff.mp none)) nonempty).valid

theorem noObj_eq (order : dimGroups.Perm (groups.map group)) (some : groups ≠ [])
    (nonempty : [] ∉ groups.map packs)
    (fits : (groups.map fun g => g.tuples.length).prod ≤ rowLimit) :
    noObj dimGroups true = (packrowsOf (groups.map packs)).flatten.length := by
  have limit := rowLimit_lt
  have sizes : (dimGroups.map DimensionGroup.noTuples).Perm
      (groups.map fun g => g.tuples.length) := by
    refine (order.map _).trans (Perm.of_eq ?_)
    rw [map_map]
    exact map_congr_left fun g _ => g.packed.noTuples_eq
  have positive : ∀ n ∈ dimGroups.map DimensionGroup.noTuples, 0 < n := by
    intro n inside
    obtain ⟨g, isGroup, rfl⟩ := mem_map.mp (sizes.mem_iff.mp inside)
    rw [← g.packed.flatten_eq, length_pos_iff]
    intro none
    refine nonempty (mem_map.mpr ⟨g, isGroup, ?_⟩)
    rw [eq_nil_iff_forall_not_mem]
    intro pack isPack
    exact g.packed.nil_notMem (flatten_eq_nil_iff.mp none pack isPack ▸ isPack)
  have product := sizes.prod_eq
  have small : ∀ n ∈ dimGroups.map DimensionGroup.noTuples, n < 2 ^ 63 := by
    intro n inside
    have factor := Nat.le_of_dvd (prod_pos positive) (dvd_prod inside)
    omega
  have known := (safeProduct_known_iff small).mpr
    (noOverflow_of_prod positive (by decide) (by rw [one_mul]; omega))
  have notEmpty : dimGroups.isEmpty = false := by
    rw [isEmpty_eq_false_iff]
    rintro rfl
    exact some (map_eq_nil_iff.mp (nil_perm.mp order))
  rw [noObj, notEmpty, if_neg (by decide), length_packrowsOf some, ← product,
    ← safeProduct_eq small known, safeProduct, foldl_map]

def Walker.start (packs : List (List (List GroupTuple))) : Option (Walker GroupTuple) :=
  if packs.isEmpty || packs.any List.isEmpty then none else some ⟨packs.map startPlace, 0, 0⟩

theorem Walker.start_none_iff {packs : List (List (List GroupTuple))} :
    (packs.isEmpty || packs.any isEmpty) = true ↔ packs = [] ∨ [] ∈ packs := by
  rw [Bool.or_eq_true, List.isEmpty_iff, any_eq_true]
  refine or_congr_right ⟨?_, fun inside => ⟨[], inside, rfl⟩⟩
  rintro ⟨pack, inside, empty⟩
  exact isEmpty_iff.mp empty ▸ inside

theorem init_parts {dg : List DimensionGroup}
    {u : MIUpdatingIterator DimensionGroupIterator GroupTuple}
    (made : MIUpdatingIterator.init dimGroups dg = .ok (some u)) :
    ∃ f, Filter.ofNoObj (noObj dimGroups (init dg).valid) = .ok f ∧
      u = ⟨init dg, (noObj dimGroups (init dg).valid).toNat, false,
        f.setAll, 0, 0⟩ := by
  rw [MIUpdatingIterator.init] at made
  split at made
  · cases made
  · cases filter : Filter.ofNoObj (noObj dimGroups (init dg).valid) with
    | error message =>
      rw [filter] at made
      cases made
    | ok f =>
      rw [filter] at made
      exact ⟨f, rfl, (Option.some.inj (Except.ok.inj made)).symm⟩

theorem ofNoObj_pending {rows : Nat} {f : Filter} (made : Filter.ofNoObj rows = .ok f) :
    f.setAll.Pending rows fun _ => true := by
  rw [Filter.ofNoObj, if_pos (natCast_nonneg rows), toNat_natCast] at made
  have shown := (Filter.ofRows_shows made).setAll
  have frame : f.setAll.delayedBlock = f.delayedBlock ∧
      f.setAll.delayedBlockSet = f.delayedBlockSet := by
    rw [Filter.setAll]
    split <;> exact ⟨rfl, rfl⟩
  have fresh : f.delayedBlock = -1 ∧ f.delayedBlockSet = -1 := by
    rw [Filter.ofRows] at made
    split at made
    · cases made
    · cases made
      exact ⟨rfl, rfl⟩
  exact shown.pending (by omega) (by omega)

end

open Classical in
/-- For a multiindex whose tuples a filter can number and a walk whose `NextPackrow` calls all
lead to the first tuple of a packrow: exactly the tuples that the walk has not removed are left
after `Commit`, if and only if every tuple that a `ResetCurrentPack` finds between
`multi_filter_pack_start` and the current packrow is removed by the walk anyway. -/
theorem updating_commit_exact_iff (groups : List PackedGroup) {dimGroups : List DimensionGroup}
    (order : dimGroups.Perm (groups.map group))
    (fits : (groups.map fun g => g.tuples.length).prod ≤ rowLimit)
    {u : MIUpdatingIterator DimensionGroupIterator GroupTuple}
    (made : MIUpdatingIterator.init dimGroups (groups.map group) = .ok (some u))
    {ops : List WalkOp} (allowed : u.Allowed ops)
    (aligned : AlignedAlong (start (groups.map packs)) ops) :
    (u.run ops).commit =
        ((packrowsOf (groups.map packs)).flatten.filter fun t =>
          decide ¬u.Removes (packrowsOf (groups.map packs)) ops t).map (List.map some) ↔
      ∀ k < (groups.map fun g => g.tuples.length).prod,
        Along Stale (start (groups.map packs)) ops k →
          Along Marks (start (groups.map packs)) ops k := by
  obtain ⟨f, filter, isU⟩ := init_parts made
  by_cases empty : groups.map packs = [] ∨ [] ∈ groups.map packs
  · -- The iterator is invalid from the beginning, so the walk is empty.
    have noWalker : start (groups.map packs) = none :=
      if_pos (start_none_iff.mpr empty)
    have invalid : (MIIterator.init (groups.map group)).valid = false :=
      (over_created groups).rewind_empty empty
    have noRows : packrowsOf (groups.map packs) = [] := packrowsOf_of_empty empty
    have noObj : MIIterator.noObj dimGroups false = 0 := if_pos (Bool.or_true _)
    cases ops with
    | cons op ops =>
      have valid := allowed.1
      rw [isU] at valid
      exact absurd (valid.symm.trans invalid) (by simp)
    | nil =>
      rw [noWalker, noRows, isU, invalid, noObj]
      exact ⟨fun _ k _ none => none.elim, fun _ => rfl⟩
  · rw [not_or] at empty
    have inGroups : groups ≠ [] := fun none => empty.1 (map_eq_nil_iff.mpr none)
    have walker : start (groups.map packs) =
        some ⟨(groups.map packs).map startPlace, 0, 0⟩ :=
      if_neg fun none => (start_none_iff.mp none).elim empty.1 empty.2
    have entered := (over_created groups).rewind_nonempty empty.1 empty.2
    have known := packrows_known fits
    have noObj := noObj_eq order inGroups empty.2 fits
    rw [init_valid inGroups empty.2, noObj] at filter isU
    rw [walker] at aligned ⊢
    rw [← length_packrowsOf inGroups]
    have starts := packrowsLeft_start empty.2
    have rows : packrowsOf (groups.map packs) =
        (choices (groups.map packs)).map choices :=
      if_neg fun none => empty.1 (isEmpty_iff.mp none)
    have tracks : Tracks DimensionGroupIterator.contract (packrowsOf (groups.map packs)) u
        ⟨(groups.map packs).map startPlace, 0, 0⟩ := by
      have split : packrowsOf (groups.map packs) =
          [] ++ (packrowsLeft ((groups.map packs).map startPlace)).map choices := by
        rw [starts]
        exact rows
      rw [isU]
      exact Tracks.of_entered entered (starts ▸ known) split rfl rfl rfl le_rfl
    have isOver : DimensionGroupIterator.contract.Over u.mit (groups.map packs) := by
      rw [isU]
      exact over_init groups
    have enumerates : ∀ m, DimensionGroupIterator.contract.Over m (groups.map packs) →
        m.rewind.Enumerates (packrowsOf (groups.map packs)) := fun m isOver =>
      (isOver.rewind_enumerates fun packrow chosen => (known packrow chosen).1).mpr
        fun packrow chosen => (known packrow chosen).2
    refine tracks.commit_iff isOver enumerates packrowsOf_once ?_ ?_ allowed aligned
    · rw [isU, toNat_natCast]
    · rw [isU]
      exact ofNoObj_pending filter

/-! ### Two tuples in two packrows -/

/-- Two tuples with rows of different packs of a table of 70000 rows. -/
def twoPacksDim : IndexedDim := ⟨⟨fun n => if n = 0 then 1 else 65537, 20, 70000⟩, false⟩

noncomputable def twoPacks : PackedGroup where
  group := .materialized 2 [twoPacksDim]
  packs := (indexPacks 2 [twoPacksDim] 0).map (List.map .index)
  tuples := (List.range 2).map .index
  packed := .materialized 2 [twoPacksDim]

def twoPacksIterator : MIUpdatingIterator DimensionGroupIterator GroupTuple :=
  ⟨MIIterator.init [.materialized 2 [twoPacksDim]], 2, false,
    (Filter.construct 1 2 false).setAll, 0, 0⟩

theorem twoPacks_made :
    MIUpdatingIterator.init [.materialized 2 [twoPacksDim]] [.materialized 2 [twoPacksDim]] =
      .ok (some twoPacksIterator) := by
  rfl

theorem twoPacks_packs : twoPacks.packs = [[.index 0], [.index 1]] := by
  have cut : isCut 2 [twoPacksDim] 1 = true :=
    isCut_iff.mpr (Or.inr ⟨twoPacksDim, mem_singleton_self _, 1, by decide⟩)
  have cuts : onesIn (isCut 2 [twoPacksDim]) 1 2 = [1] := by
    rw [onesIn_cons (by decide) cut, onesIn_of_le le_rfl]
  have last : onesIn (isCut 2 [twoPacksDim]) (1 + 1) 2 = [] := onesIn_of_le le_rfl
  have first : cutEnd 2 [twoPacksDim] 0 = 1 := by
    rw [cutEnd, cuts]
    rfl
  show (indexPacks 2 [twoPacksDim] 0).map (map GroupTuple.index) = _
  rw [indexPacks, onesIn_cons (by decide) isCut_zero, zero_add, cuts, map_cons,
    map_singleton, indexPack, indexPack, first, cutEnd_of_none last]
  rfl

open Classical in
theorem updating_commit_exact_first_packrow :
    (twoPacksIterator.run [.resetCurrentPack]).commit =
      ((packrowsOf [twoPacks.packs]).flatten.filter fun t =>
        decide ¬twoPacksIterator.Removes (packrowsOf [twoPacks.packs]) [.resetCurrentPack] t).map
          (List.map some) := by
  have allowed : twoPacksIterator.Allowed [.resetCurrentPack] :=
    ⟨by decide +kernel, fun _ => by decide +kernel, trivial⟩
  have aligned : AlignedAlong (start [twoPacks.packs]) [.resetCurrentPack] := by
    exact ⟨(fun other => nomatch other), trivial⟩
  refine (updating_commit_exact_iff [twoPacks] (.refl _) (by decide) twoPacks_made allowed
    aligned).mpr fun k _ stale => ?_
  rcases stale with ⟨_, _, before⟩ | later
  · exact absurd before (Nat.not_lt_zero k)
  · exact later.elim

/-- `NextPackrow` skips the first tuple; removing the packrow of the second tuple removes the
first one as well. -/
theorem skipped_packrow_is_removed :
    MIUpdatingIterator.init [twoPacks.group] [twoPacks.group] = .ok (some twoPacksIterator) ∧
      twoPacksIterator.Allowed [.nextPackrow, .resetCurrentPack] ∧
      [.index 0] ∈ (packrowsOf [twoPacks.packs]).flatten ∧
      ¬twoPacksIterator.Removes (packrowsOf [twoPacks.packs]) [.nextPackrow, .resetCurrentPack]
        [.index 0] ∧
      (twoPacksIterator.run [.nextPackrow, .resetCurrentPack]).commit = [] := by
  have rows : packrowsOf [twoPacks.packs] = [[[.index 0]], [[.index 1]]] := by
    rw [twoPacks_packs]
    rfl
  have current : twoPacksIterator.nextPackrow.mit.curPos = [some (.index 1)] := by decide +kernel
  refine ⟨twoPacks_made,
    ⟨by decide +kernel, (fun other => nomatch other), by decide +kernel, fun _ => by decide +kernel,
      trivial⟩, ?_, ?_, by decide +kernel⟩
  · rw [rows]
    decide
  · rw [rows]
    rintro (⟨other, _⟩ | ⟨other, _⟩ | ⟨other, _⟩ |
      ⟨_, row, isRow, inside, c, inRow, isCurrent⟩ | later)
    · cases other
    · cases other
    · cases other
    · have shown : [some (GroupTuple.index 1)] = c.map some := current.symm.trans isCurrent
      have isC : c = [.index 1] := by
        have same : [GroupTuple.index 1].map some = c.map some := shown
        exact (map_injective_iff.mpr (Option.some_injective _) same).symm
      rw [isC] at inRow
      rcases mem_pair.mp isRow with rfl | rfl
      · exact absurd inRow (by decide)
      · exact absurd inside (by decide)
    · exact later

end Brighthouse.Core
