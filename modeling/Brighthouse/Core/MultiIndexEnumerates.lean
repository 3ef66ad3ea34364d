import Brighthouse.Core.DimensionGroupSpec
import Brighthouse.Core.MIIteratorEnumerates

/-!
# The tuples of a multiindex

An iterator of a multiindex that has been rewound visits every combination of the tuples of
the groups exactly once, packrow by packrow, unless `SafeMultiplication` takes the size of a
packrow for too large.  Its test of bit sizes is too strict: products of up to 63 bits
exist whose factors together have 64 bits.
-/

set_option autoImplicit false

namespace Brighthouse.Core

open Library.BitCount Library.Odometer List GroupIterator MIIterator Bool Nat GroupCursor

/-! ## Sizes that are known -/

/-- No step of the product of `sizes`, started with `size`, is taken for an overflow. -/
def NoOverflow : Nat → List Nat → Prop
  | _, [] => True
  | size, n :: sizes => ¬Overflows size n ∧ NoOverflow (size * n) sizes

instance decidableNoOverflow : (size : Nat) → (sizes : List Nat) → Decidable (NoOverflow size sizes)
  | _, [] => inferInstanceAs (Decidable True)
  | size, n :: sizes => by
      have : Decidable (NoOverflow (size * n) sizes) := decidableNoOverflow (size * n) sizes
      exact inferInstanceAs (Decidable (_ ∧ _))

variable {sizes : List Nat} {size : Nat}

theorem foldl_known_iff (fits : ∀ n ∈ sizes, n < 2 ^ 63) (small : size < 2 ^ 63) :
    sizes.foldl (fun size (n : Nat) => safeMultiplication size n) (size : Int) ≠ nullValue64 ↔
      NoOverflow size sizes := by
  induction sizes generalizing size with
  | nil =>
    have null : nullValue64 < 0 := by decide
    exact ⟨fun _ => trivial, fun _ isNull => by rw [foldl_nil] at isNull; omega⟩
  | cons n sizes ih =>
    have smallN := fits n mem_cons_self
    rw [foldl_cons]
    by_cases overflows : Overflows size n
    · rw [safeMultiplication_natCast small smallN, if_pos overflows,
        foldl_fixed' fun n : Nat => safeMultiplication_null n]
      exact ⟨fun known => absurd rfl known, fun safe => absurd overflows safe.1⟩
    · rw [safeMultiplication_natCast small smallN, if_neg overflows,
        ih (fun n inside => fits n (mem_cons_of_mem _ inside))
          (mul_lt_of_not_overflows overflows)]
      exact (and_iff_right overflows).symm

theorem noOverflow_of_prod (positive : ∀ n ∈ sizes, 0 < n) (some : 0 < size)
    (fits : size * sizes.prod < 2 ^ 61) : NoOverflow size sizes := by
  induction sizes generalizing size with
  | nil => trivial
  | cons n sizes ih =>
    have someN := positive n mem_cons_self
    have rest : ∀ n ∈ sizes, 0 < n := fun n inside => positive n (mem_cons_of_mem _ inside)
    have someRest : 0 < sizes.prod := prod_pos rest
    rw [prod_cons, ← mul_assoc] at fits
    refine ⟨fun overflows => ?_, ih rest (mul_pos some someN) fits⟩
    have low : 2 ^ (size.size - 1) ≤ size :=
      lt_size.mp (by have := size_pos.mpr some; omega)
    have lowN : 2 ^ (n.size - 1) ≤ n := lt_size.mp (by have := size_pos.mpr someN; omega)
    have both : 2 ^ (size.size - 1 + (n.size - 1)) < 2 ^ 61 := by
      calc
        2 ^ (size.size - 1 + (n.size - 1)) = 2 ^ (size.size - 1) * 2 ^ (n.size - 1) := pow_add _ _ _
        _ ≤ size * n := Nat.mul_le_mul low lowN
        _ ≤ size * n * sizes.prod := Nat.le_mul_of_pos_right _ someRest
        _ < 2 ^ 61 := fits
    have exponents := (Nat.pow_lt_pow_iff_right (by decide)).mp both
    have tooLong := overflows.2
    omega

theorem safeProduct_known_iff (fits : ∀ n ∈ sizes, n < 2 ^ 63) :
    safeProduct sizes ≠ nullValue64 ↔ NoOverflow 1 sizes :=
  foldl_known_iff fits (by decide)

/-! ## Iterators in use -/

section

variable {σ τ α : Type} [GroupIterator σ τ] {related : α → σ → Prop} {xs : List α}
  {cs : List (GroupCursor σ τ)}

theorem rewindGroups_keeps (onRewind : ∀ x it, related x it → related x (rewind it))
    (all : Forall₂ related xs (cs.map it)) :
    Forall₂ related xs ((rewindGroups cs).2.map it) := by
  induction cs generalizing xs with
  | nil => exact all
  | cons c cs ih =>
    obtain ⟨x, xs, here, others, rfl⟩ := forall₂_cons_right_iff.mp all
    rw [rewindGroups]
    split
    · exact .cons (onRewind x _ here) (ih others)
    · exact .cons (onRewind x _ here) others

theorem nextInsidePacks_keeps (onInside : ∀ x it, related x it → related x (nextInsidePack it).2)
    (all : Forall₂ related xs (cs.map it)) :
    Forall₂ related xs ((nextInsidePacks cs).2.map it) := by
  induction cs generalizing xs with
  | nil => exact all
  | cons c cs ih =>
    obtain ⟨x, xs, here, others, rfl⟩ := forall₂_cons_right_iff.mp all
    rw [nextInsidePacks]
    split
    · exact .cons (onInside x _ here) others
    · exact .cons (onInside x _ here) (ih others)

theorem nextPackrows_keeps {rewindLast : Bool}
    (onRewind : ∀ x it, related x it → related x (rewind it))
    (onPackrow : ∀ x it, related x it → related x (nextPackrow it))
    (all : Forall₂ related xs (cs.map it)) :
    Forall₂ related xs ((nextPackrows rewindLast cs).2.map it) := by
  induction cs generalizing xs with
  | nil => exact all
  | cons c cs ih =>
    obtain ⟨x, xs, here, others, rfl⟩ := forall₂_cons_right_iff.mp all
    have next := onPackrow x _ here
    rw [nextPackrows]
    dsimp only
    split
    · exact .cons next others
    · split
      · rename_i last
        rw [and_eq_true, List.isEmpty_iff] at last
        rw [last.1] at others
        exact .cons next others
      · split
        · exact .cons (onRewind x _ next) (ih others)
        · exact .cons (onRewind x _ next) others

end

namespace GroupContract

variable {σ τ : Type} [GroupIterator σ τ] {contract : GroupContract σ τ} {m : MIIterator σ τ}
  {groups : List (List (List τ))} {cs : List (GroupCursor σ τ)}

theorem single_iff :
    (∃ c, cs = [c] ∧ contract.isFilter c.it = true) ↔
      Forall₂ (fun (_ : Unit) it => contract.isFilter it = true) [()] (cs.map it) := by
  constructor
  · rintro ⟨c, rfl, filter⟩
    exact .cons filter .nil
  · intro all
    obtain ⟨it, its, filter, none, same⟩ := forall₂_cons_left_iff.mp all
    obtain rfl := forall₂_nil_left_iff.mp none
    obtain ⟨c, rest, rfl, rfl, isEmpty⟩ := map_eq_cons_iff.mp same
    exact ⟨c, by rw [map_eq_nil_iff.mp isEmpty], filter⟩

section
variable (groupsOf : contract.Over m groups)
include groupsOf

theorem over_of_keeps {m' : MIIterator σ τ} (sameMode : m'.oneFilter = m.oneFilter)
    (of : Forall₂ contract.Of groups (m'.it.map it))
    (filter : m.oneFilter = true → Forall₂ (fun (_ : Unit) it => contract.isFilter it = true) [()]
      (m.it.map it) → Forall₂ (fun (_ : Unit) it => contract.isFilter it = true) [()]
    (m'.it.map it)) :
    contract.Over m' groups where
  of := of
  filter one :=
    single_iff.mpr (filter (sameMode ▸ one) (single_iff.mp (groupsOf.filter (sameMode ▸ one))))

theorem Over.initNextPackrow : contract.Over m.initNextPackrow groups := by
  rw [MIIterator.initNextPackrow]
  split
  · exact ⟨groupsOf.of, groupsOf.filter⟩
  · exact groupsOf

theorem Over.rewind : contract.Over m.rewind groups := by
  rw [MIIterator.rewind]
  split
  · exact ⟨groupsOf.of, groupsOf.filter⟩
  · have kept : ∀ valid size started,
        contract.Over (⟨(rewindGroups m.it).2, m.oneFilter, valid, size, started⟩ : MIIterator σ τ)
          groups := fun _ _ _ =>
      over_of_keeps groupsOf rfl
        (rewindGroups_keeps (fun _ _ of => contract.of_rewind of) groupsOf.of)
        fun _ => rewindGroups_keeps fun _ it filter => (contract.isFilter_rewind it).trans filter
    dsimp only
    split
    · exact (kept _ _ _).initNextPackrow
    · exact kept _ _ _

theorem Over.nextPackrow : contract.Over m.nextPackrow groups := by
  have kept : ∀ valid size started,
      contract.Over (⟨(nextPackrows false m.it).2, m.oneFilter, valid, size, started⟩ :
        MIIterator σ τ) groups := fun _ _ _ =>
    over_of_keeps groupsOf rfl
      (nextPackrows_keeps (fun _ _ of => contract.of_rewind of)
        (fun _ _ of => contract.of_nextPackrow of)
        groupsOf.of)
      fun _ => nextPackrows_keeps (fun _ it filter => (contract.isFilter_rewind it).trans filter)
        fun _ it filter => (contract.isFilter_nextPackrow it).trans filter
  rw [MIIterator.nextPackrow]
  split
  · dsimp only
    split
    · exact (kept _ _ _).initNextPackrow
    · exact kept _ _ _
  · exact groupsOf

theorem Over.filterIncrement : contract.Over m.filterIncrement groups := by
  rw [MIIterator.filterIncrement]
  split
  · exact groupsOf
  · rename_i c rest isIt
    have kept : ∀ pos valid size started,
        contract.Over (⟨⟨increment c.it, pos⟩ :: rest, m.oneFilter, valid, size, started⟩ :
          MIIterator σ τ) groups := by
      intro pos valid size started
      have all := groupsOf.of
      rw [isIt] at all
      obtain ⟨packs, others, here, tail, rfl⟩ := forall₂_cons_right_iff.mp all
      refine ⟨.cons (contract.of_increment here) tail, fun one => ?_⟩
      obtain ⟨c', single, filter⟩ := groupsOf.filter one
      rw [isIt] at single
      obtain ⟨rfl, rfl⟩ := single
      exact ⟨_, rfl, (contract.isFilter_increment _).trans filter⟩
    dsimp only
    split
    · split
      · exact (kept _ _ _ _).initNextPackrow
      · exact kept _ _ _ _
    · exact kept _ _ _ _

theorem Over.generalIncrement (several : m.oneFilter = false) :
    contract.Over m.generalIncrement groups := by
  have inside := nextInsidePacks_keeps (fun _ _ of => contract.of_nextInsidePack of) groupsOf.of
  have noFilter : ∀ {P : Prop}, m.oneFilter = true → P := fun one =>
    absurd (several.symm.trans one) false_ne_true
  rw [MIIterator.generalIncrement]
  split
  · exact ⟨inside, noFilter⟩
  · exact ⟨nextPackrows_keeps (fun _ _ of => contract.of_rewind of)
        (fun _ _ of => contract.of_nextPackrow of) inside, noFilter⟩

theorem Over.increment : contract.Over m.increment groups := by
  have started : contract.Over { m with nextPackStarted := false } groups :=
    ⟨groupsOf.of, groupsOf.filter⟩
  rw [MIIterator.increment]
  dsimp only
  split
  · exact started.filterIncrement
  · rename_i several
    have moved := started.generalIncrement (eq_false_of_not_eq_true several)
    split
    · exact moved
    · split
      · exact initNextPackrow ⟨moved.of, moved.filter⟩
      · exact ⟨moved.of, moved.filter⟩

end

end GroupContract

inductive MIIterator.Reached {σ τ : Type} [GroupIterator σ τ] (m : MIIterator σ τ) :
    MIIterator σ τ → Prop
  | start : Reached m m
  | increment {m' : MIIterator σ τ} (reached : Reached m m') : Reached m m'.increment
  | nextPackrow {m' : MIIterator σ τ} (reached : Reached m m') : Reached m m'.nextPackrow
  | rewind {m' : MIIterator σ τ} (reached : Reached m m') : Reached m m'.rewind

theorem GroupContract.Over.reached {σ τ : Type} [GroupIterator σ τ] {contract : GroupContract σ τ}
    {m m' : MIIterator σ τ} {groups : List (List (List τ))} (groupsOf : contract.Over m groups)
    (reached : m.Reached m') : contract.Over m' groups := by
  induction reached with
  | start => exact groupsOf
  | increment _ ih => exact ih.increment
  | nextPackrow _ ih => exact ih.nextPackrow
  | rewind _ ih => exact ih.rewind

/-! ## Multiindices -/

structure PackedGroup where
  group : DimensionGroup
  packs : List (List GroupTuple)
  tuples : List GroupTuple
  packed : group.Packed packs tuples

/-- The iterator enumerates the packrows of the groups, and these consist of all combinations
of the groups' tuples, each of them once. -/
structure MIIterator.EnumeratesAll (m : MIIterator DimensionGroupIterator GroupTuple)
    (groups : List PackedGroup) : Prop where
  enumerates : m.Enumerates (GroupContract.packrowsOf (groups.map PackedGroup.packs))
  once : (GroupContract.packrowsOf (groups.map PackedGroup.packs)).flatten.Nodup
  every : ∀ t, t ∈ (GroupContract.packrowsOf (groups.map PackedGroup.packs)).flatten ↔
    groups ≠ [] ∧ List.Forall₂ (· ∈ ·) t (groups.map PackedGroup.tuples)

open PackedGroup GroupContract

theorem over_created (groups : List PackedGroup) :
    DimensionGroupIterator.contract.Over (created (groups.map PackedGroup.group))
      (groups.map PackedGroup.packs) := by
  refine ⟨?_, fun one => ?_⟩
  · rw [created]
    rw [map_map, map_map, forall₂_map_left_iff, forall₂_map_right_iff, forall₂_same]
    exact fun g _ => g.packed.of_newIterator
  · rw [created, and_eq_true, beq_iff_eq, length_eq_one_iff] at one
    obtain ⟨⟨c, single⟩, filter⟩ := one
    rw [single, all_cons, and_eq_true] at filter
    exact ⟨c, single, filter.1⟩

theorem over_init (groups : List PackedGroup) :
    DimensionGroupIterator.contract.Over (init (groups.map group))
      (groups.map packs) :=
  (over_created groups).rewind

section

variable {groups : List PackedGroup}

theorem packrowsOf_perm (some : groups ≠ []) :
    (packrowsOf (groups.map packs)).flatten.Perm
      (choices (groups.map PackedGroup.tuples)) := by
  have notEmpty : ¬(groups.map packs).isEmpty = true := by
    rw [List.isEmpty_iff, map_eq_nil_iff]
    exact some
  have tuples : (groups.map packs).map flatten = groups.map PackedGroup.tuples := by
    rw [map_map]
    exact map_congr_left fun g _ => g.packed.flatten_eq
  rw [packrowsOf, if_neg notEmpty, ← tuples]
  exact choices_packs_perm _

theorem packrowsOf_once :
    (packrowsOf (groups.map packs)).flatten.Nodup := by
  by_cases some : groups = []
  · rw [some]
    exact nodup_nil
  · rw [(packrowsOf_perm some).nodup_iff]
    refine nodup_choices fun tuples inside => ?_
    obtain ⟨g, _, rfl⟩ := mem_map.mp inside
    exact g.packed.nodup

theorem mem_packrowsOf (t : List GroupTuple) :
    t ∈ (packrowsOf (groups.map packs)).flatten ↔
      groups ≠ [] ∧ Forall₂ (· ∈ ·) t (groups.map PackedGroup.tuples) := by
  by_cases some : groups = []
  · rw [some]
    exact ⟨fun inside => absurd inside not_mem_nil, fun both => absurd rfl both.1⟩
  · rw [(packrowsOf_perm some).mem_iff, mem_choices]
    exact (and_iff_right some).symm

theorem pack_fits (fits : (groups.map fun g => g.tuples.length).prod < 2 ^ 63) :
    ∀ packrow ∈ choices (groups.map packs), ∀ pack ∈ packrow, pack.length < 2 ^ 63 := by
  intro packrow chosen pack inside
  have related := mem_choices.mp chosen
  have full : ∀ g ∈ groups, 0 < g.tuples.length := by
    intro g isGroup
    obtain ⟨packs, inRow, here⟩ := exists_related related.flip g.packs (mem_map_of_mem isGroup)
    rw [← g.packed.flatten_eq, length_pos_iff]
    intro none
    have empty := flatten_eq_nil_iff.mp none packs here
    exact g.packed.nil_notMem (empty ▸ here)
  obtain ⟨packs, arePacks, here⟩ := exists_related related pack inside
  obtain ⟨g, isGroup, rfl⟩ := mem_map.mp arePacks
  have inTuples : pack.length ≤ g.tuples.length := by
    rw [← g.packed.flatten_eq]
    exact (sublist_flatten_of_mem here).length_le
  have factor : g.tuples.length ≤ (groups.map fun g => g.tuples.length).prod := by
    refine le_of_dvd (prod_pos fun n isSize => ?_)
      (dvd_prod (mem_map_of_mem isGroup))
    obtain ⟨g', isGroup', rfl⟩ := mem_map.mp isSize
    exact full g' isGroup'
  omega

end

/-- However it has been used, an iterator of a multiindex of less than 2 to the 63 tuples
enumerates all combinations after `Rewind`, if and only if no product of pack sizes is taken
for an overflow. -/
theorem rewind_enumeratesAll_iff (groups : List PackedGroup)
    (fits : (groups.map fun g => g.tuples.length).prod < 2 ^ 63)
    {m : MIIterator DimensionGroupIterator GroupTuple}
    (reached : (init (groups.map PackedGroup.group)).Reached m) :
    m.rewind.EnumeratesAll groups ↔
      ∀ packrow ∈ choices (groups.map PackedGroup.packs),
        NoOverflow 1 (packrow.map List.length) := by
  have groupsOf := (over_init groups).reached reached
  have packFits := pack_fits fits
  have known : ∀ packrow ∈ choices (groups.map packs),
      (safeProduct (packrow.map length) ≠ nullValue64 ↔
        NoOverflow 1 (packrow.map length)) := by
    intro packrow chosen
    refine safeProduct_known_iff fun n isSize => ?_
    obtain ⟨pack, inside, rfl⟩ := mem_map.mp isSize
    exact packFits packrow chosen pack inside
  constructor
  · intro all packrow chosen
    exact (known packrow chosen).mp ((groupsOf.rewind_enumerates packFits).mp all.enumerates packrow
      chosen)
  · intro safe
    exact
      { enumerates := (groupsOf.rewind_enumerates packFits).mpr fun packrow chosen =>
          (known packrow chosen).mpr (safe packrow chosen)
        once := packrowsOf_once
        every := mem_packrowsOf }

/-! ### Cross joins of small tables -/

def fullTable (rows : Nat) (some : 0 < rows) (onePack : rows ≤ 65536) : PackedGroup where
  group := .filter (Filter.construct 1 rows true)
  packs := (packsFrom rows (fun _ => true) 0).map (List.map .row)
  tuples := (onesIn (fun _ => true) 0 rows).map .row
  packed := .filter (Filter.construct_shows
    { noBlocks_eq := by
        show 1 = (rows + 65535) / 65536
        omega
      bits_eq := by
        show rows = rows - (1 - 1) * 65536
        omega })

section

variable {rows : Nat} {some : 0 < rows} {onePack : rows ≤ 65536}

theorem length_fullTable : (fullTable rows some onePack).tuples.length = rows := by
  rw [fullTable, length_map, onesIn, filter_eq_self.mpr fun _ _ => rfl, length_range', Nat.sub_zero]

end

theorem rewind_enumeratesAll_two_tables :
    (init [(fullTable 2 (by decide) (by decide)).group,
      (fullTable 3 (by decide) (by decide)).group]).rewind.EnumeratesAll
      [fullTable 2 (by decide) (by decide), fullTable 3 (by decide) (by decide)] := by
  refine (rewind_enumeratesAll_iff [fullTable 2 (by decide) (by decide),
    fullTable 3 (by decide) (by decide)] ?_ .start).mpr ?_
  · decide
  · intro packrow chosen
    obtain rfl := mem_singleton.mp chosen
    decide

/-- The cross join of three tables of 65536 rows and one of 16384 rows. -/
def fourTables : List PackedGroup :=
  [fullTable 65536 (by decide) (by decide), fullTable 65536 (by decide) (by decide),
    fullTable 65536 (by decide) (by decide), fullTable 16384 (by decide) (by decide)]

theorem fourTables_sizes :
    fourTables.map (fun g => g.tuples.length) = [65536, 65536, 65536, 16384] := by
  simp only [fourTables, map_cons, map_nil, length_fullTable]

/-- Although there are only 2 to the 62 tuples, the size of their packrow is not known: the
last step multiplies a number of 49 bits by one of 15 bits. -/
theorem fourTables_not_enumerated :
    (fourTables.map fun g => g.tuples.length).prod = 2 ^ 62 ∧
      ¬(init (fourTables.map PackedGroup.group)).rewind.EnumeratesAll fourTables := by
  have product : (fourTables.map fun g => g.tuples.length).prod = 2 ^ 62 := by
    rw [fourTables_sizes]
    decide
  refine ⟨product, fun all => ?_⟩
  have packrow : choices (fourTables.map packs) = [fourTables.map PackedGroup.tuples] := by
    rfl
  have known := ((over_init fourTables).rewind_enumerates (pack_fits (by omega))).mp all.enumerates
    (fourTables.map PackedGroup.tuples) (by rw [packrow]; exact mem_singleton_self _)
  have sizes : (fourTables.map PackedGroup.tuples).map length = [65536, 65536, 65536, 16384] := by
    exact fourTables_sizes
  rw [sizes] at known
  have unknown : safeProduct [65536, 65536, 65536, 16384] = nullValue64 := by decide +kernel
  exact known unknown

/-! ### Skipping -/

/-- However it has been used, a rewound iterator skips tuples as `++` does, if the packrows
that `Skip` compares with the offset are measured. -/
theorem rewind_skipsAs (groups : List PackedGroup)
    {m : MIIterator DimensionGroupIterator GroupTuple}
    (reached : (init (groups.map PackedGroup.group)).Reached m) {n : Nat}
    (measured : GroupContract.Measured n 0 (choices (groups.map PackedGroup.packs)))
    (le : n ≤ (GroupContract.packrowsOf (groups.map PackedGroup.packs)).flatten.length) :
    m.rewind.SkipsAs n :=
  ((over_init groups).reached reached).skipsAs measured le

theorem rewind_skipsAs_two_tables :
    (init [(fullTable 2 (by decide) (by decide)).group,
      (fullTable 3 (by decide) (by decide)).group]).increment.rewind.SkipsAs 4 :=
  rewind_skipsAs [fullTable 2 (by decide) (by decide), fullTable 3 (by decide) (by decide)]
    (.increment .start) ⟨⟨by decide, by decide⟩, by decide, fun _ => trivial⟩ (by decide)

/-- `Skip(1)` on the 2 to the 62 tuples ends behind the last one. -/
theorem not_skipsAs_fourTables :
    ¬(init (fourTables.map PackedGroup.group)).rewind.SkipsAs 1 :=
  not_skipsAs_of_unknown (by decide +kernel) (by decide +kernel) (by decide +kernel)
    (by decide +kernel)

end Brighthouse.Core
