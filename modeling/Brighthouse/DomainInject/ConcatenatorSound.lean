import Brighthouse.DomainInject.ConcatenatorBlocks

/-!
# When a decomposition is lossless

`Compose` gives the strings back if it can tell the blocks apart: there must be a block at
all, the counters of the groups must not have overflowed, and the composed text must not
exceed an `int`.
-/

set_option autoImplicit false

namespace Brighthouse.DomainInject.Concatenator

open Library List
open Option (bind_eq_bind bind_eq_some_iff bind_some map_eq_bind map_some)

/-! ## The text that has been composed -/

/-- The strings that have been composed are `done`, one after the other. -/
structure Composition.Holds (p : Composition) (done : List Bytes) : Prop where
  strings : p.strings = done
  inside : ∀ place ∈ p.out, place.1 + place.2 ≤ p.shift
  shift : p.shift = (done.map List.length).sum

section
variable {p : Composition} {done : List Bytes} (holds : p.Holds done) {data : Memory} {s : Bytes}
  (stored : Stored p.data data p.shift s)
include holds stored

theorem Composition.Holds.push :
    Composition.Holds
      { p with data, out := p.out ++ [(p.shift, s.length)], shift := p.shift + s.length }
      (done ++ [s]) := by
  refine ⟨?_, ?_, ?_⟩
  · have kept : p.out.map (fun place => data.load place.1 place.2) = done := by
      rw [← holds.strings]
      refine map_congr_left fun place mem => ?_
      have inside := holds.inside place mem
      exact Memory.load_congr fun i _ below => stored.below i (by omega)
    simp only [Composition.strings, map_append, map_cons, map_nil, kept, stored.text]
  · intro place mem
    rcases mem_append.mp mem with before | last
    · exact (holds.inside place before).trans (Nat.le_add_right _ _)
    · rw [mem_singleton.mp last]
  · rw [map_append, holds.shift]
    simp

theorem Composition.Holds.add (small : p.shift + s.length < 2 ^ 31) :
    ∃ q, p.add data s.length = some q ∧ q.Holds (done ++ [s]) ∧ q.outlCnt = p.outlCnt ∧
      q.parsedCnt = p.parsedCnt :=
  ⟨_, if_pos small, holds.push stored, rfl, rfl⟩

end

theorem Composition.holds_start (data : Memory) : Composition.Holds ⟨data, 0, [], 0, 0⟩ [] :=
  ⟨rfl, fun _ mem => absurd mem not_mem_nil, rfl⟩

/-- However the strings were composed, they end within an `int`. -/
def Composition.Bounded (p : Composition) : Prop :=
  p.shift = (p.out.map Prod.snd).sum ∧ p.shift < 2 ^ 31

theorem Composition.Bounded.add {p q : Composition} (bounded : p.Bounded) {data : Memory}
    {len : Nat} (added : p.add data len = some q) : q.Bounded := by
  unfold Composition.add at added
  split at added
  · rename_i small
    cases added
    refine ⟨?_, small⟩
    simp [bounded.1]
  · cases added

/-! ## The loop over a mask of outliers -/

def Leads (result : Option Composition) (done : List Bytes) (outlCnt parsedCnt : Nat) : Prop :=
  ∃ q, result = some q ∧ q.Holds done ∧ q.outlCnt = outlCnt ∧ q.parsedCnt = parsedCnt

section
variable {α : Type} {parse : Bytes → Option α} {restored : Bytes → Bytes} {all rows : List Bytes}
  {loop : List Nat → Composition → Option Composition}
  {parsed outlier : Composition → Option Composition}

/-- Each string is composed from its place among the outliers or among the parsed strings. -/
theorem compose_loop (stop : ∀ p, loop [] p = some p)
    (turn : ∀ value rest p,
      loop (value :: rest) p = (if value = 0 then parsed p else outlier p).bind (loop rest))
    (outliers : ∀ {before s rows p}, before ++ s :: rows = all → p.Holds (before.map restored) →
      parse s = none → (all.filter fun s => (parse s).isNone)[p.outlCnt]? = some s →
      Leads (outlier p) (before.map restored ++ [restored s]) (p.outlCnt + 1) p.parsedCnt)
    (others : ∀ {before s rows p x}, before ++ s :: rows = all → p.Holds (before.map restored) →
      parse s = some x → (all.filterMap parse)[p.parsedCnt]? = some x →
      Leads (parsed p) (before.map restored ++ [restored s]) p.outlCnt (p.parsedCnt + 1)) :
    ∀ rows before p, before ++ rows = all →
      p.Holds (before.map restored) → p.outlCnt = before.countP (fun s => (parse s).isNone) →
      p.parsedCnt = (before.filterMap parse).length →
      ∃ q, loop (rows.map fun s => if (parse s).isNone then 1 else 0) p = some q ∧
        q.Holds (all.map restored) ∧ q.outlCnt = all.countP fun s => (parse s).isNone := by
  intro rows
  induction rows with
  | nil =>
    rintro before p rfl holds outlCnt _
    rw [append_nil]
    exact ⟨p, stop p, holds, outlCnt⟩
  | cons s rows ih =>
    intro before p split holds outlCnt parsedCnt
    have next : before ++ [s] ++ rows = all := by rw [← split]; simp
    rw [map_cons, turn]
    cases found : parse s with
    | none =>
      have atOutlier : (all.filter fun s => (parse s).isNone)[p.outlCnt]? = some s := by
        rw [← split, filter_append, filter_cons_of_pos (by simp [found]), outlCnt,
          countP_eq_length_filter]
        exact getElem?_middle _ _ _
      obtain ⟨q, step, after, outlCnt', parsedCnt'⟩ := outliers split holds found atOutlier
      rw [step]
      refine ih _ q next ?_ ?_ ?_
      · rwa [map_append]
      · simp [outlCnt', outlCnt, found]
      · simp [parsedCnt', parsedCnt, found]
    | some x =>
      have atRow : (all.filterMap parse)[p.parsedCnt]? = some x := by
        rw [← split, filterMap_append, filterMap_cons_some found, parsedCnt]
        exact getElem?_middle _ _ _
      obtain ⟨q, step, after, outlCnt', parsedCnt'⟩ := others split holds found atRow
      rw [step]
      refine ih _ q next ?_ ?_ ?_
      · rwa [map_append]
      · simp [outlCnt', outlCnt, found]
      · simp [parsedCnt', parsedCnt, found]

theorem length_filterMap_add_countP (rows : List Bytes) :
    (rows.filterMap parse).length + rows.countP (fun s => (parse s).isNone) = rows.length := by
  rw [length_filterMap_eq_countP, length_eq_countP_add_countP fun s => (parse s).isSome]
  refine congrArg _ (countP_congr fun s _ => ?_)
  simp

variable (none : rows.countP (fun s => (parse s).isNone) = 0)
include none

theorem filter_of_no_outliers :
    rows.filter (fun s => (parse s).isNone) = [] :=
  length_eq_zero_iff.mp (countP_eq_length_filter ▸ none)

theorem flags_of_no_outliers :
    (rows.map fun s => if (parse s).isNone then 1 else 0) = replicate rows.length 0 := by
  refine eq_replicate_iff.mpr ⟨length_map _, fun flag mem => ?_⟩
  obtain ⟨s, inside, rfl⟩ := mem_map.mp mem
  exact if_neg (countP_eq_zero.mp none s inside)

end

/-! ## The groups in the blocks -/

theorem groupAt_columns (types : List MaskBlockType) :
    ∀ parsed row groups j type group, parsed[row]? = some groups →
      types[j]? = some type → groups[j]? = some group →
      (type = .n → Decimal.print (parseNumber group) = group) →
      groupAt types (columns types parsed) row j = some group := by
  induction types with
  | nil =>
    intro parsed row groups j type group _ atType
    cases atType
  | cons first types ih =>
    intro parsed row groups j type group atRow atType atGroup printed
    cases groups with
    | nil => cases atGroup
    | cons head groups =>
      cases j with
      | zero =>
        cases atType
        cases atGroup
        cases first with
        | n => simp [groupAt, columns, column, groupText, atRow, printed rfl]
        | s => simp [groupAt, columns, column, groupText, atRow]
      | succ j =>
        refine ih (parsed.map tail) row groups j type group ?_ atType atGroup printed
        rw [getElem?_map, atRow]
        rfl

section
variable {boost : RegexMatch} {c : Concatenator}

variable {groups : List Bytes}

variable (counted : Counted c)
include counted

theorem print_group (whole : c.blockType.length = c.noBlocks) {s : Bytes}
    (found : c.groupsOf boost s = some groups) {j : Nat} {group : Bytes}
    (atType : c.blockType[j]? = some .n) (atGroup : groups[j]? = some group) :
    Decimal.print (parseNumber group) = group := by
  obtain ⟨partition, plain⟩ := partition_of_groupsOf found
  have mem : (MaskBlockType.n, group) ∈ c.blockType.zip groups := by
    refine mem_iff_getElem?.mpr ⟨j, ?_⟩
    rw [getElem?_zip_eq_some]
    exact ⟨atType, atGroup⟩
  refine print_parseNumber (partition.isNumber _ (counted.types ▸ mem) rfl) fun leading => ?_
  have short : (c.blockType.zip groups).length ≤ c.noBlocks := by
    rw [length_zip, whole]
    exact min_le_left _ _
  rw [hasLeadingZero, take_of_length_le short, any_eq_false] at plain
  exact plain _ mem (by simp [leading.1, leading.2])

theorem composes_row (whole : c.blockType.length = c.noBlocks)
    (read : c.re = items c.mask) {parsed : List (List Bytes)} {row shift : Nat} {s : Bytes}
    (found : c.groupsOf boost s = some groups) (atRow : parsed[row]? = some groups) :
    Composes c.blockType (columns c.blockType parsed) row shift c.mask 0 s := by
  obtain ⟨partition, _⟩ := partition_of_groupsOf found
  have lengths : groups.length = c.blockType.length := by
    rw [partition.length, ← counted.types]
  refine composes_partition c.mask groups s 0 (read ▸ partition) fun j group atGroup => ?_
  have inside := (List.getElem?_eq_some_iff.mp atGroup).1
  have atType : c.blockType[j]? = some (c.blockType[j]) := getElem?_eq_getElem (by omega)
  rw [zero_add]
  refine groupAt_columns c.blockType parsed row groups j _ group atRow atType atGroup fun isN => ?_
  exact print_group counted whole found (isN ▸ atType) atGroup

omit counted

/-! ## The loop over the strings -/

variable {outliers : List Bytes}

theorem composeOutlier_eq {p : Composition} {done : List Bytes} (holds : p.Holds done) {s : Bytes}
    (found : outliers[p.outlCnt]? = some s) (small : p.shift + s.length < 2 ^ 31) :
    Leads (composeOutlier outliers p) (done ++ [s]) (p.outlCnt + 1) p.parsedCnt := by
  obtain ⟨q, added, after, outlCnt, parsedCnt⟩ := holds.add (stored_store p.data p.shift s) small
  refine ⟨{ q with outlCnt := q.outlCnt + 1 }, ?_, ⟨after.strings, after.inside, after.shift⟩,
    by rw [outlCnt], parsedCnt⟩
  rw [composeOutlier, found]
  simp only [bind_eq_bind, bind_some, added]

variable {blocks : List DataBlock}

theorem composeParsed_eq {p : Composition} {done : List Bytes} (holds : p.Holds done) {s : Bytes}
    (short : s.length < 2 ^ 16)
    (composes : Composes c.blockType blocks p.parsedCnt p.shift c.mask 0 s)
    (small : p.shift + s.length < 2 ^ 31) :
    Leads (c.composeParsed blocks p) (done ++ [s]) p.outlCnt (p.parsedCnt + 1) := by
  obtain ⟨data, composed, stored⟩ := composes p.data 0 (by omega)
  rw [zero_add] at composed
  obtain ⟨q, added, after, outlCnt, parsedCnt⟩ := holds.add stored small
  refine ⟨{ q with parsedCnt := q.parsedCnt + 1 }, ?_, ⟨after.strings, after.inside, after.shift⟩,
    outlCnt, by rw [parsedCnt]⟩
  rw [composeParsed, composed]
  simp only [bind_eq_bind, bind_some, added]

theorem composeRows_eq (boost : RegexMatch) (counted : Counted c) (read : c.re = items c.mask)
    {all : List Bytes} (short : ∀ s ∈ all, s.length < 2 ^ 16)
    (total : (all.map length).sum < 2 ^ 31)
    (covered : ∀ s ∈ all, c.isOutlier boost s = false → c.blockType.length = c.noBlocks)
    (data : Memory) :
    ∃ q, c.composeRows (all.filter (c.isOutlier boost)) (c.parsedBlocks boost all)
        (all.map (c.outlierFlag boost)) ⟨data, 0, [], 0, 0⟩ = some q ∧ q.Holds all ∧
      q.outlCnt = all.countP (c.isOutlier boost) := by
  have small : ∀ {before s rows} {p : Composition}, before ++ s :: rows = all →
      p.Holds (before.map id) → p.shift + s.length < 2 ^ 31 := by
    intro before s rows p split holds
    rw [← split] at total
    simp only [map_append, map_cons, sum_append, sum_cons] at total
    rw [holds.shift, map_id]
    omega
  have composed := @compose_loop _ (c.groupsOf boost) id all
    (c.composeRows (all.filter (c.isOutlier boost)) (c.parsedBlocks boost all))
    (c.composeParsed (c.parsedBlocks boost all)) (composeOutlier (all.filter (c.isOutlier boost)))
    (fun _ => rfl) (fun _ _ _ => rfl)
    (fun split holds _ atOutlier => composeOutlier_eq holds atOutlier (small split holds)) ?_
    all [] ⟨data, 0, [], 0, 0⟩ rfl (Composition.holds_start data) rfl rfl
  · rwa [map_id] at composed
  · intro before s rows p groups split holds found atRow
    have mem : s ∈ all := split ▸ mem_append_right _ mem_cons_self
    have whole := covered s mem (by rw [isOutlier, found]; rfl)
    have filled : c.filledTypes = c.blockType := take_of_length_le whole.le
    have row : ((c.parsedRows boost all).map (take c.noBlocks))[p.parsedCnt]? = some groups := by
      have partition := (partition_of_groupsOf found).1
      rw [getElem?_map, parsedRows, atRow, map_some,
        take_of_length_le (by rw [partition.length, ← counted.types, whole])]
    refine composeParsed_eq holds (short s mem) ?_ (small split holds)
    rw [parsedBlocks, filled]
    exact composes_row counted whole read found row

theorem getNObj_column (type : MaskBlockType) (groups : List Bytes) :
    (column type groups).getNObj = groups.length := by
  cases type <;> simp [column, DataBlock.getNObj]

include counted

theorem ushort_noBlocks :
    ushort (c.noBlS + c.noBlN) =
      if c.noBlocks < 2 ^ 16 then c.noBlocks else c.noBlocks - 2 ^ 16 := by
  obtain ⟨smallN, smallS⟩ := counted.small
  unfold ushort noBlocks
  split <;> omega

theorem length_parsedBlocks (boost : RegexMatch) (rows : List Bytes) :
    (c.parsedBlocks boost rows).length = c.noBlocks := by
  rw [parsedBlocks, length_columns, counted.length_filledTypes]

variable {rows : List Bytes}

theorem compose_eq (small : c.noBlocks < 2 ^ 16)
    (block : c.noBlocks ≠ 0 ∨ ∃ s ∈ rows, c.isOutlier boost s = true) (data : Memory) :
    c.compose (c.outlierBlocks boost rows ++ c.parsedBlocks boost rows) data =
      (c.composeRows (rows.filter (c.isOutlier boost)) (c.parsedBlocks boost rows)
        (rows.map (c.outlierFlag boost)) ⟨data, 0, [], 0, 0⟩).map fun p =>
          (p.strings, if 0 < rows.countP (c.isOutlier boost) then p.outlCnt else 0) := by
  have length := length_parsedBlocks counted boost rows
  by_cases some : 0 < rows.countP (c.isOutlier boost)
  · rw [outlierBlocks, if_pos some, compose, ushort_noBlocks counted, if_pos small]
    simp only [cons_append, nil_append, length_cons, length, if_pos some]
    rw [map_eq_bind]
    rfl
  · have none := Nat.eq_zero_of_not_pos some
    have nonzero : c.noBlocks ≠ 0 := by
      refine block.resolve_right ?_
      rintro ⟨s, mem, outlier⟩
      exact countP_eq_zero.mp none s mem outlier
    have flags : rows.map (c.outlierFlag boost) = replicate rows.length 0 :=
      flags_of_no_outliers none
    have empty : rows.filter (c.isOutlier boost) = [] := filter_of_no_outliers none
    have parsed : (c.parsedRows boost rows).length = rows.length := by
      have split : (c.parsedRows boost rows).length + rows.countP (c.isOutlier boost) =
          rows.length :=
        length_filterMap_add_countP rows
      omega
    obtain ⟨first, atFirst, objects⟩ : ∃ first, (c.parsedBlocks boost rows)[0]? = .some first ∧
        first.getNObj = rows.length := by
      have types := counted.length_filledTypes
      rw [parsedBlocks]
      cases isTypes : c.filledTypes with
      | nil =>
        rw [isTypes] at types
        exact absurd types.symm nonzero
      | cons type types =>
        refine ⟨_, rfl, ?_⟩
        rw [getNObj_column, length_map, length_map, parsed]
    rw [outlierBlocks, none, if_neg (lt_irrefl 0), nil_append, compose,
      ushort_noBlocks counted, if_pos small, atFirst]
    simp only [bind_eq_bind, bind_some, length, objects, flags, empty]
    rw [if_neg (by omega), map_eq_bind]
    rfl

/-! ## Where nothing is composed -/

theorem compose_too_many (large : 2 ^ 16 ≤ c.noBlocks) (rows : List Bytes) (data : Memory) :
    c.compose (c.outlierBlocks boost rows ++ c.parsedBlocks boost rows) data = some ([], 0) := by
  have wrapped : ushort (c.noBlS + c.noBlN) + 2 < c.noBlocks := by
    rw [ushort_noBlocks counted, if_neg (not_lt.mpr large)]
    omega
  have length := length_parsedBlocks counted boost rows
  have total : c.noBlocks ≤ (c.outlierBlocks boost rows ++ c.parsedBlocks boost rows).length := by
    rw [length_append]
    omega
  generalize c.outlierBlocks boost rows ++ c.parsedBlocks boost rows = input at total ⊢
  cases input with
  | nil =>
    rw [length_nil] at total
    omega
  | cons first rest =>
    rw [compose, getElem?_cons_zero]
    simp only [bind_eq_bind, bind_some]
    rw [if_neg (by omega), if_neg (by omega)]

variable (read : c.re = items c.mask)
include read

theorem composeParsed_spec {p q : Composition}
    (composed : c.composeParsed blocks p = some q) (bounded : p.Bounded) :
    q.Bounded ∧ c.blockType.length ≤ blocks.length := by
  obtain ⟨⟨data, len⟩, row, composed⟩ := bind_eq_some_iff.mp composed
  obtain ⟨r, added, result⟩ := bind_eq_some_iff.mp composed
  cases result
  have blocksFound := composeRow_blocks c.mask _ _ _ row (Nat.zero_le _)
  rw [← read, ← counted.types, zero_add] at blocksFound
  have after : r.Bounded := bounded.add added
  exact ⟨after, blocksFound⟩

omit counted read in
theorem composeOutlier_bounded {p q : Composition} (composed : composeOutlier outliers p = some q)
    (bounded : p.Bounded) : q.Bounded := by
  obtain ⟨s, _, composed⟩ := bind_eq_some_iff.mp composed
  obtain ⟨r, added, result⟩ := bind_eq_some_iff.mp composed
  cases result
  have after : r.Bounded := bounded.add added
  exact after

theorem composeRows_spec (mask : List Nat) :
    ∀ p q, c.composeRows outliers blocks mask p = some q → p.Bounded →
      q.Bounded ∧ (0 ∈ mask → c.blockType.length ≤ blocks.length) := by
  induction mask with
  | nil =>
    intro p q composed bounded
    cases composed
    exact ⟨bounded, fun mem => absurd mem not_mem_nil⟩
  | cons value mask ih =>
    intro p q composed bounded
    obtain ⟨r, turn, composed⟩ := bind_eq_some_iff.mp composed
    split at turn
    · obtain ⟨after, enough⟩ := composeParsed_spec counted read turn bounded
      exact ⟨(ih r q composed after).1, fun _ => enough⟩
    · rename_i nonzero
      obtain ⟨result, enough⟩ := ih r q composed (composeOutlier_bounded turn bounded)
      refine ⟨result, fun mem => ?_⟩
      rcases mem_cons.mp mem with zero | mem
      · exact absurd zero.symm nonzero
      · exact enough mem

omit counted read

/-! ## Lossless decompositions -/

/-- `Compose` gives back the strings that `Decompose` has split, with their number of outliers;
the statistics of `Decompose` count those from the object `previous_no_obj` on. -/
def Lossless (boost : RegexMatch) (c : Concatenator) (input : StringDataBlock)
    (stats : CompressionStatistics) (data : Memory) : Prop :=
  ∃ blocks after, c.decompose boost input stats = some (blocks, after) ∧
    c.compose blocks data = some (input.rows, input.rows.countP (c.isOutlier boost)) ∧
    after.newNoOutliers % 2 ^ 32 = (stats.newNoOutliers +
      (input.rows.drop stats.previousNoObj).countP (c.isOutlier boost)) % 2 ^ 32

/-- What the rule and the strings must fulfil. -/
structure Recoverable (boost : RegexMatch) (c : Concatenator) (rows : List Bytes) : Prop where
  fits : Fits c
  total : (rows.map List.length).sum < 2 ^ 31
  recognised : 2 ^ 16 ≤ c.noBlocks → rows = []
  covered : ∀ s ∈ rows, c.isOutlier boost s = false → c.blockType.length = c.noBlocks
  block : c.noBlocks ≠ 0 ∨ ∃ s ∈ rows, c.isOutlier boost s = true

include counted read

theorem compose_of_recoverable
    {input : StringDataBlock} (recoverable : Recoverable boost c input.rows) (data : Memory) :
    c.compose (c.outlierBlocks boost input.rows ++ c.parsedBlocks boost input.rows) data =
      some (input.rows, input.rows.countP (c.isOutlier boost)) := by
  by_cases small : c.noBlocks < 2 ^ 16
  · obtain ⟨q, composed, holds, outlCnt⟩ := composeRows_eq boost counted read input.short
      recoverable.total recoverable.covered data
    rw [compose_eq counted small recoverable.block, composed, map_some, holds.strings, outlCnt]
    split
    · rfl
    · rename_i none
      rw [Nat.eq_zero_of_not_pos none]
  · have empty := recoverable.recognised (Nat.le_of_not_lt small)
    rw [compose_too_many counted (Nat.le_of_not_lt small), empty]
    rfl

theorem recoverable_of_compose (fits : Fits c) {data : Memory}
    (composed : c.compose (c.outlierBlocks boost rows ++ c.parsedBlocks boost rows) data =
      some (rows, rows.countP (c.isOutlier boost))) :
    Recoverable boost c rows := by
  by_cases small : c.noBlocks < 2 ^ 16
  · have block : c.noBlocks ≠ 0 ∨ ∃ s ∈ rows, c.isOutlier boost s = true := by
      by_contra neither
      have noBlock : c.noBlocks = 0 := by
        by_contra nonzero
        exact neither (.inl nonzero)
      have noOutlier : rows.countP (c.isOutlier boost) = 0 :=
        countP_eq_zero.mpr fun s mem outlier => neither (.inr ⟨s, mem, outlier⟩)
      have empty : c.parsedBlocks boost rows = [] :=
        length_eq_zero_iff.mp ((length_parsedBlocks counted boost rows).trans noBlock)
      rw [outlierBlocks, noOutlier, empty] at composed
      cases composed
    rw [compose_eq counted small block] at composed
    obtain ⟨q, done, result⟩ := Option.map_eq_some_iff.mp composed
    have strings : q.strings = rows := congrArg Prod.fst result
    obtain ⟨⟨shift, bound⟩, enough⟩ :=
      composeRows_spec counted read _ _ _ done ⟨rfl, Nat.two_pow_pos 31⟩
    refine ⟨fits, ?_, fun large => absurd small (not_lt.mpr large), ?_, block⟩
    · have lengths : rows.map length = q.out.map Prod.snd := by
        rw [← strings, Composition.strings, map_map]
        exact map_congr_left fun place _ => Memory.length_load _ _ _
      rw [lengths, ← shift]
      exact bound
    · intro s mem plain
      have flag : 0 ∈ rows.map (c.outlierFlag boost) := by
        refine mem_map.mpr ⟨s, mem, ?_⟩
        rw [outlierFlag, plain]
        rfl
      have le := enough flag
      rw [length_parsedBlocks counted boost rows] at le
      exact le.antisymm counted.noBlocks_le
  · have large := Nat.le_of_not_lt small
    rw [compose_too_many counted large] at composed
    have empty : [] = rows := congrArg Prod.fst (Option.some.inj composed)
    subst empty
    exact ⟨fits, by decide, fun _ => rfl, fun _ mem => absurd mem not_mem_nil,
      .inl (by omega)⟩

end

/-- A decomposition is lossless exactly where the rule and the strings fulfil the conditions. -/
theorem decompose_lossless_iff (boost : RegexMatch) (rule : Bytes) (input : StringDataBlock)
    (stats : CompressionStatistics) (data : Memory) :
    Lossless boost (new rule) input stats data ↔ Recoverable boost (new rule) input.rows := by
  obtain ⟨counted, re, mask⟩ : Counted (new rule) ∧ _ :=
    readRule_spec rule ⟨rule, [], 0, 0, []⟩ ⟨rfl, rfl, rfl⟩
  have read : (new rule).re = items (new rule).mask := by rw [new, re, mask]; rfl
  constructor
  · rintro ⟨blocks, after, decomposed, composed, _⟩
    have fits := fits_of_decompose counted decomposed
    obtain ⟨after', decomposed', _⟩ := decompose_eq boost counted fits input stats
    rw [decomposed'] at decomposed
    cases decomposed
    exact recoverable_of_compose counted read fits composed
  · intro recoverable
    obtain ⟨after, decomposed, counts⟩ := decompose_eq boost counted recoverable.fits input stats
    exact ⟨_, after, decomposed, compose_of_recoverable counted read recoverable data, counts⟩

example :
    ((new [97, percent, letterD]).decompose search ⟨[[97, 49, 50], [120]], by decide⟩
      ⟨0, 0, 0⟩).bind (fun result => (new [97, percent, letterD]).compose result.1 fun _ => 0) =
      some ([[97, 49, 50], [120]], 1) := by decide +kernel

def abc : Bytes := [97, 98, 99]

/-- A rule without groups and a string that follows it: there is no block at all, and `Compose`
cannot tell how many strings there were. -/
theorem decompose_without_groups_lossy :
    let input : StringDataBlock := ⟨[abc], by decide⟩
    isValid abc = true ∧ (new abc).isOutlier search abc = false ∧
      (new abc).decompose search input ⟨0, 0, 0⟩ = some ([], ⟨0, 0, 0⟩) ∧
      (new abc).compose [] (fun _ => 0) = none ∧
      ¬Lossless search (new abc) input ⟨0, 0, 0⟩ (fun _ => 0) := by
  intro input
  have decomposed : (new abc).decompose search input ⟨0, 0, 0⟩ = some ([], ⟨0, 0, 0⟩) := by decide
  refine ⟨by decide, by decide, decomposed, rfl, ?_⟩
  rintro ⟨blocks, after, decomposed', composed, -⟩
  cases decomposed'
  cases composed

end Brighthouse.DomainInject.Concatenator
