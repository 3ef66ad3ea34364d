import Brighthouse.DomainInject.ConcatenatorRule

/-!
# The blocks of a decomposition

`Decompose` keeps the blocks of numbers and those of strings apart and puts them back into
the order of the rule at the end.  The blocks are then the columns of the groups of those
strings that follow the rule.
-/

set_option autoImplicit false

namespace Brighthouse.DomainInject.Concatenator

open Library List Decimal Option

variable {α : Type} {group : Bytes}

/-! ## Columns -/

def column : MaskBlockType → List Bytes → DataBlock
  | .n, groups => .uint64 (groups.map parseNumber)
  | .s, groups => .string groups

def columns : List MaskBlockType → List (List Bytes) → List DataBlock
  | [], _ => []
  | type :: types, parsed =>
    column type (parsed.map fun groups => groups.headD []) :: columns types (parsed.map List.tail)

def numberColumns : List MaskBlockType → List (List Bytes) → List (List Nat)
  | [], _ => []
  | .n :: types, parsed =>
    (parsed.map fun groups => parseNumber (groups.headD [])) ::
      numberColumns types (parsed.map List.tail)
  | .s :: types, parsed => numberColumns types (parsed.map List.tail)

def textColumns : List MaskBlockType → List (List Bytes) → List (List Bytes)
  | [], _ => []
  | .n :: types, parsed => textColumns types (parsed.map List.tail)
  | .s :: types, parsed =>
    (parsed.map fun groups => groups.headD []) :: textColumns types (parsed.map List.tail)

variable (types : List MaskBlockType)

theorem length_columns (parsed : List (List Bytes)) :
    (columns types parsed).length = types.length := by
  induction types generalizing parsed with
  | nil => rfl
  | cons type types ih => rw [columns, length_cons, ih, length_cons]

theorem numberColumns_nil :
    numberColumns types [] = replicate (types.count .n) [] := by
  induction types with
  | nil => rfl
  | cons type types ih => cases type <;> simp [numberColumns, ih, replicate_succ]

theorem textColumns_nil :
    textColumns types [] = replicate (types.count .s) [] := by
  induction types with
  | nil => rfl
  | cons type types ih => cases type <;> simp [textColumns, ih, replicate_succ]

/-! ## The loops over the groups -/

theorem getElem?_middle (first : List α) (x : α) (rest : List α) :
    (first ++ x :: rest)[first.length]? = some x := by simp

theorem set_middle (first : List α) (x y : α) (rest : List α) :
    (first ++ x :: rest).set first.length y = (first ++ [y]) ++ rest := by simp

theorem addGroups_columns :
    ∀ groups parsed firstN firstS, groups.length = types.length →
      (∀ group ∈ groups, group.length < 2 ^ 16) →
      firstN.length + types.count .n < 2 ^ 16 → firstS.length + types.count .s < 2 ^ 16 →
      addGroups (types.zip groups) firstN.length firstS.length
          ⟨firstN ++ numberColumns types parsed, firstS ++ textColumns types parsed⟩ =
        some ⟨firstN ++ numberColumns types (parsed ++ [groups]),
          firstS ++ textColumns types (parsed ++ [groups])⟩ := by
  induction types with
  | nil =>
    intro groups parsed firstN firstS _ _ _ _
    rfl
  | cons type types ih =>
    intro groups parsed firstN firstS lengths short roomN roomS
    cases groups with
    | nil => cases lengths
    | cons group groups =>
      have lengths' : groups.length = types.length := Nat.succ.inj lengths
      have short' : ∀ g ∈ groups, g.length < 2 ^ 16 := fun g mem =>
        short g (mem_cons_of_mem _ mem)
      cases type with
      | n =>
        rw [count_cons_self] at roomN
        have next := ih groups (parsed.map tail)
          (firstN ++ [parsed.map (fun groups => parseNumber (groups.headD [])) ++
            [parseNumber group]]) firstS lengths' short'
          (by rw [length_append, length_singleton]; omega) roomS
        rw [zip_cons_cons, addGroups]
        simp only [numberColumns, textColumns, getElem?_middle, bind_eq_bind,
          bind_some, set_middle]
        rw [ushort_of_lt (by omega)]
        rw [length_append, length_singleton] at next
        rw [next]
        simp
      | s =>
        rw [count_cons_self] at roomS
        have whole : group.take (ushort group.length) = group := by
          rw [ushort_of_lt (short group mem_cons_self), take_length]
        have next := ih groups (parsed.map tail) firstN
          (firstS ++ [parsed.map (fun groups => groups.headD []) ++ [group]]) lengths' short'
          roomN (by rw [length_append, length_singleton]; omega)
        rw [zip_cons_cons, addGroups]
        simp only [numberColumns, textColumns, getElem?_middle, bind_eq_bind,
          bind_some, set_middle, whole]
        rw [ushort_of_lt (by omega)]
        rw [length_append, length_singleton] at next
        rw [next]
        simp

theorem pushBlocks_columns :
    ∀ parsed firstN firstS,
      firstN.length + types.count .n < 2 ^ 16 → firstS.length + types.count .s < 2 ^ 16 →
      pushBlocks types firstN.length firstS.length
          ⟨firstN ++ numberColumns types parsed, firstS ++ textColumns types parsed⟩ =
        some (columns types parsed) := by
  induction types with
  | nil => exact fun _ _ _ _ _ => rfl
  | cons type types ih =>
    intro parsed firstN firstS roomN roomS
    cases type with
    | n =>
      rw [count_cons_self] at roomN
      have next := ih (parsed.map tail)
        (firstN ++ [parsed.map fun groups => parseNumber (groups.headD [])]) firstS
        (by rw [length_append, length_singleton]; omega) roomS
      rw [length_append, length_singleton] at next
      rw [pushBlocks]
      simp only [numberColumns, textColumns]
      rw [ushort_of_lt (by omega), append_cons, next]
      simp [columns, column]
    | s =>
      rw [count_cons_self] at roomS
      have next := ih (parsed.map tail) firstN
        (firstS ++ [parsed.map fun groups => groups.headD []])
        roomN (by rw [length_append, length_singleton]; omega)
      rw [length_append, length_singleton] at next
      rw [pushBlocks]
      simp only [numberColumns, textColumns]
      rw [ushort_of_lt (by omega), append_cons, next]
      simp [columns, column]

/-! ## The number of blocks -/

theorem addGroups_lengths (pairs : List (MaskBlockType × Bytes)) :
    ∀ blNCnt blSCnt blocks after, addGroups pairs blNCnt blSCnt blocks = some after →
      after.blockN.length = blocks.blockN.length ∧ after.blockS.length = blocks.blockS.length := by
  induction pairs with
  | nil =>
    intro blNCnt blSCnt blocks after added
    cases added
    exact ⟨rfl, rfl⟩
  | cons pair pairs ih =>
    intro blNCnt blSCnt blocks after added
    obtain ⟨type, group⟩ := pair
    cases type with
    | n =>
      obtain ⟨values, _, added⟩ := bind_eq_some_iff.mp added
      have lengths := ih _ _ _ _ added
      rwa [length_set] at lengths
    | s =>
      obtain ⟨rows, _, added⟩ := bind_eq_some_iff.mp added
      have lengths := ih _ _ _ _ added
      rwa [length_set] at lengths

theorem pushBlocks_counts {blocks : GroupBlocks} (smallN : blocks.blockN.length < 2 ^ 16)
    (smallS : blocks.blockS.length < 2 ^ 16) (types : List MaskBlockType) :
    ∀ blNCnt blSCnt out, pushBlocks types blNCnt blSCnt blocks = some out →
      blNCnt ≤ blocks.blockN.length → blSCnt ≤ blocks.blockS.length →
      blNCnt + types.count .n ≤ blocks.blockN.length ∧
        blSCnt + types.count .s ≤ blocks.blockS.length := by
  induction types with
  | nil => exact fun _ _ _ _ enoughN enoughS => ⟨enoughN, enoughS⟩
  | cons type types ih =>
    intro blNCnt blSCnt out pushed enoughN enoughS
    cases type with
    | n =>
      obtain ⟨values, inside, pushed⟩ := bind_eq_some_iff.mp pushed
      obtain ⟨out, pushed, _⟩ := bind_eq_some_iff.mp pushed
      have below := (List.getElem?_eq_some_iff.mp inside).1
      rw [ushort_of_lt (by omega)] at pushed
      have counts := ih _ _ _ pushed below enoughS
      rw [count_cons_self]
      exact ⟨by omega, counts.2⟩
    | s =>
      obtain ⟨values, inside, pushed⟩ := bind_eq_some_iff.mp pushed
      obtain ⟨out, pushed, _⟩ := bind_eq_some_iff.mp pushed
      have below := (List.getElem?_eq_some_iff.mp inside).1
      rw [ushort_of_lt (by omega)] at pushed
      have counts := ih _ _ _ pushed enoughN below
      rw [count_cons_self]
      exact ⟨counts.1, by omega⟩

theorem decomposeRows_lengths {boost : RegexMatch} {c : Concatenator} (rows : List Bytes) :
    ∀ o d after, c.decomposeRows boost o rows d = some after →
      after.blocks.blockN.length = d.blocks.blockN.length ∧
        after.blocks.blockS.length = d.blocks.blockS.length := by
  induction rows with
  | nil =>
    intro o d after done
    cases done
    exact ⟨rfl, rfl⟩
  | cons s rows ih =>
    intro o d after done
    obtain ⟨next, turn, done⟩ := bind_eq_some_iff.mp done
    obtain ⟨lengthN, lengthS⟩ := ih _ _ _ done
    rw [lengthN, lengthS]
    unfold decomposeRow at turn
    split at turn
    · cases turn
      exact ⟨rfl, rfl⟩
    · obtain ⟨blocks, added, rfl⟩ := map_eq_some_iff.mp turn
      exact addGroups_lengths _ _ _ _ _ added

def filledTypes (c : Concatenator) : List MaskBlockType := c.blockType.take c.noBlocks

/-- The types of the filled blocks are as many as the counters say. -/
def Fits (c : Concatenator) : Prop := c.filledTypes.count .n = c.noBlN

instance (c : Concatenator) : Decidable c.Fits := inferInstanceAs (Decidable (_ = _))

theorem count_types :
    types.count .n + types.count .s = types.length := by
  induction types with
  | nil => rfl
  | cons type types ih => cases type <;> simp <;> omega

section
variable {c : Concatenator} (counted : Counted c)
include counted

theorem Counted.small : c.noBlN < 2 ^ 16 ∧ c.noBlS < 2 ^ 16 := by
  rw [counted.numbers, counted.texts]
  exact ⟨Nat.mod_lt _ (by decide), Nat.mod_lt _ (by decide)⟩

theorem Counted.noBlocks_le : c.noBlocks ≤ c.blockType.length := by
  have counts := count_types c.blockType
  rw [noBlocks, counted.numbers, counted.texts]
  unfold ushort
  omega

theorem Counted.length_filledTypes : c.filledTypes.length = c.noBlocks :=
  length_take_of_le counted.noBlocks_le

theorem Counted.count_texts (fits : Fits c) : c.filledTypes.count .s = c.noBlS := by
  have counts := count_types c.filledTypes
  rw [counted.length_filledTypes] at counts
  unfold Fits at fits
  unfold noBlocks at counts
  omega

theorem fits_of_decompose {boost : RegexMatch} {input : StringDataBlock}
    {stats : CompressionStatistics} {result : List DataBlock × CompressionStatistics}
    (done : c.decompose boost input stats = some result) : Fits c := by
  obtain ⟨d, rows, done⟩ := bind_eq_some_iff.mp done
  obtain ⟨out, pushed, _⟩ := bind_eq_some_iff.mp done
  obtain ⟨lengthN, lengthS⟩ := decomposeRows_lengths _ _ _ _ rows
  rw [length_replicate] at lengthN lengthS
  obtain ⟨smallN, smallS⟩ := counted.small
  have counts := pushBlocks_counts (lengthN ▸ smallN) (lengthS ▸ smallS) _ _ _ _ pushed
    (Nat.zero_le _) (Nat.zero_le _)
  have total := count_types c.filledTypes
  rw [counted.length_filledTypes] at total
  unfold Fits
  unfold noBlocks at total
  unfold filledTypes at total ⊢
  omega

end

/-! ## Groups -/

section
variable {re : List RegexItem} {groups : List Bytes} {s : Bytes}

theorem length_le_append (first : Bytes) (rest : ∀ group ∈ groups, group.length ≤ s.length) :
    ∀ group ∈ first :: groups, group.length ≤ (first ++ s).length := by
  intro group mem
  rw [length_append]
  rcases mem_cons.mp mem with rfl | mem
  · exact Nat.le_add_right _ _
  · exact (rest group mem).trans (Nat.le_add_left _ _)

variable (partition : Partition re groups s)
include partition

theorem Partition.length : groups.length = (re.filterMap RegexItem.blockType).length := by
  induction partition with
  | nil => rfl
  | char c rest ih => exact ih
  | number digits nonempty short rest ih => exact congrArg Nat.succ ih
  | text group rest ih => exact congrArg Nat.succ ih

theorem Partition.length_le : ∀ group ∈ groups, group.length ≤ s.length := by
  induction partition with
  | nil => exact fun _ mem => absurd mem not_mem_nil
  | char c rest ih => exact fun group mem => (ih group mem).trans (Nat.le_succ _)
  | number digits nonempty short rest ih => exact length_le_append _ ih
  | text text rest ih => exact length_le_append _ ih

end

structure IsNumber (group : Bytes) : Prop where
  digits : ∀ c ∈ group, Decimal.IsDigit c
  nonempty : group ≠ []
  short : group.length ≤ 18

theorem Partition.isNumber {re : List RegexItem} {groups : List Bytes} {s : Bytes}
    (partition : Partition re groups s) :
    ∀ pair ∈ (re.filterMap RegexItem.blockType).zip groups, pair.1 = .n → IsNumber pair.2 := by
  induction partition with
  | nil => exact fun _ mem => absurd mem not_mem_nil
  | char c rest ih => exact ih
  | number digits nonempty short rest ih =>
    intro pair mem isNumber
    rcases mem_cons.mp mem with rfl | mem
    · exact ⟨digits, nonempty, short⟩
    · exact ih pair mem isNumber
  | text text rest ih =>
    intro pair mem isNumber
    rcases mem_cons.mp mem with rfl | mem
    · cases isNumber
    · exact ih pair mem isNumber

theorem parseNumber_eq (isNumber : IsNumber group) : parseNumber group = value group := by
  have loop : ∀ (rest : Bytes) (val : Nat), (∀ c ∈ rest, Decimal.IsDigit c) →
      val * 10 ^ rest.length + 10 ^ rest.length ≤ 10 ^ 18 →
      rest.foldl (fun val c => ((val * 10 + (charValue c - 48) : Int) % 2 ^ 64).toNat) val =
        rest.foldl (fun v c => v * 10 + digit c) val := by
    intro rest
    induction rest with
    | nil => exact fun _ _ _ => rfl
    | cons c rest ih =>
      intro val digits small
      obtain ⟨low, high⟩ := digits c mem_cons_self
      have power : 0 < 10 ^ rest.length := Nat.pow_pos (by decide)
      rw [length_cons, pow_succ] at small
      have step : ((val * 10 + (charValue c - 48) : Int) % 2 ^ 64).toNat =
          val * 10 + digit c := by
        have below : val * 10 < 10 ^ 18 := by nlinarith
        rw [charValue, digit]
        omega
      rw [foldl_cons, step]
      refine ih _ (fun d mem => digits d (mem_cons_of_mem _ mem)) ?_
      have digit : digit c ≤ 9 := by unfold digit; omega
      nlinarith
  refine loop group 0 isNumber.digits ?_
  rw [zero_mul, zero_add]
  exact Nat.pow_le_pow_right (by decide) isNumber.short

theorem print_parseNumber (isNumber : IsNumber group)
    (canonical : ¬(group.head? = some zero ∧ 1 < group.length)) :
    print (parseNumber group) = group := by
  rw [parseNumber_eq isNumber]
  refine print_value isNumber.digits isNumber.nonempty fun leading => ?_
  have short : ¬1 < group.length := fun long => canonical ⟨leading, long⟩
  omega

/-! ## The loop over the strings -/

section
variable (boost : RegexMatch) (c : Concatenator)

def isOutlier (s : Bytes) : Bool := (c.groupsOf boost s).isNone

def parsedRows (rows : List Bytes) : List (List Bytes) := rows.filterMap (c.groupsOf boost)

def outlierFlag (s : Bytes) : Nat := if c.isOutlier boost s then 1 else 0

def groupBlocks (parsed : List (List Bytes)) : GroupBlocks :=
  ⟨numberColumns c.filledTypes parsed, textColumns c.filledTypes parsed⟩

end

section
variable {boost : RegexMatch} {c : Concatenator}
variable {groups : List Bytes} {s : Bytes}

theorem partition_of_groupsOf (found : c.groupsOf boost s = some groups) :
    Partition c.re groups s ∧ c.hasLeadingZero groups = false := by
  obtain ⟨matched, plain⟩ := filter_eq_some_iff.mp found
  exact ⟨boost.partition _ _ _ matched, by simpa using plain⟩

theorem addGroups_groupsOf (counted : Counted c) (fits : Fits c) (short : s.length < 2 ^ 16)
    (found : c.groupsOf boost s = some groups) (parsed : List (List Bytes)) :
    addGroups ((c.blockType.zip groups).take c.noBlocks) 0 0 (c.groupBlocks parsed) =
      some (c.groupBlocks (parsed ++ [groups.take c.noBlocks])) := by
  obtain ⟨partition, _⟩ := partition_of_groupsOf found
  have lengths : groups.length = c.blockType.length := by
    rw [partition.length, ← counted.types]
  obtain ⟨smallN, smallS⟩ := counted.small
  have added := addGroups_columns c.filledTypes (groups.take c.noBlocks) parsed [] []
    (by
      rw [counted.length_filledTypes]
      exact length_take_of_le (lengths ▸ counted.noBlocks_le))
    (fun group mem => (partition.length_le group (mem_of_mem_take mem)).trans_lt short)
    (by rw [length_nil, zero_add, fits]; exact smallN)
    (by rw [length_nil, zero_add, counted.count_texts fits]; exact smallS)
  rw [zip, take_zipWith]
  exact added

theorem decomposeRows_eq (boost : RegexMatch) (counted : Counted c) (fits : Fits c)
    (rows : List Bytes) :
    ∀ o parsed outliers outlMask outlCnt stats, (∀ s ∈ rows, s.length < 2 ^ 16) →
      ∃ after : CompressionStatistics,
        c.decomposeRows boost o rows
            ⟨c.groupBlocks parsed, outliers, outlMask, outlCnt, stats⟩ =
          some ⟨c.groupBlocks (parsed ++ (c.parsedRows boost rows).map (take c.noBlocks)),
            outliers ++ rows.filter (c.isOutlier boost),
            outlMask ++ rows.map (c.outlierFlag boost),
            outlCnt + rows.countP (c.isOutlier boost), after⟩ ∧
        after.newNoOutliers % 2 ^ 32 = (stats.newNoOutliers +
          (rows.drop (stats.previousNoObj - o)).countP (c.isOutlier boost)) % 2 ^ 32 := by
  induction rows with
  | nil =>
    intro o parsed outliers outlMask outlCnt stats _
    refine ⟨stats, ?_, ?_⟩
    · simp [decomposeRows, parsedRows]
    · simp
  | cons s rows ih =>
    intro o parsed outliers outlMask outlCnt stats short
    have short' := fun t mem => short t (mem_cons_of_mem _ mem)
    cases found : c.groupsOf boost s with
    | none =>
      have outlier : c.isOutlier boost s = true := by rw [isOutlier, found]; rfl
      obtain ⟨after, done, counts⟩ := ih (o + 1) parsed (outliers ++ [s]) (outlMask ++ [1])
        (outlCnt + 1)
        (if stats.previousNoObj ≤ o then
          { stats with newNoOutliers := (stats.newNoOutliers + 1) % 2 ^ 32 } else stats) short'
      refine ⟨after, ?_, ?_⟩
      · rw [decomposeRows, decomposeRow, found]
        refine done.trans ?_
        simp [parsedRows, found, outlier, outlierFlag, add_comm 1, add_assoc]
      · rw [counts]
        by_cases reached : stats.previousNoObj ≤ o
        · rw [if_pos reached, Nat.sub_eq_zero_of_le reached]
          change ((stats.newNoOutliers + 1) % 2 ^ 32 +
            (rows.drop (stats.previousNoObj - (o + 1))).countP _) % 2 ^ 32 = _
          rw [Nat.sub_eq_zero_of_le (by omega), drop_zero, drop_zero,
            countP_cons_of_pos outlier, Nat.mod_add_mod]
          congr 1
          omega
        · rw [if_neg reached]
          have skipped : stats.previousNoObj - o = stats.previousNoObj - (o + 1) + 1 := by omega
          rw [skipped, drop_succ_cons]
    | some groups =>
      have plain : c.isOutlier boost s = false := by rw [isOutlier, found]; rfl
      obtain ⟨after, done, counts⟩ := ih (o + 1) (parsed ++ [groups.take c.noBlocks]) outliers
        (outlMask ++ [0]) outlCnt stats short'
      refine ⟨after, ?_, ?_⟩
      · rw [decomposeRows, decomposeRow, found]
        simp only [addGroups_groupsOf counted fits (short s mem_cons_self) found]
        refine done.trans ?_
        simp [parsedRows, found, plain, outlierFlag]
      · rw [counts]
        by_cases reached : stats.previousNoObj ≤ o
        · rw [Nat.sub_eq_zero_of_le reached, Nat.sub_eq_zero_of_le (by omega), drop_zero,
            drop_zero, countP_cons_of_neg (by rw [plain]; exact Bool.false_ne_true)]
        · have skipped : stats.previousNoObj - o = stats.previousNoObj - (o + 1) + 1 := by omega
          rw [skipped, drop_succ_cons]

def outlierBlocks (boost : RegexMatch) (c : Concatenator) (rows : List Bytes) : List DataBlock :=
  if 0 < rows.countP (c.isOutlier boost) then
    [.uchar (rows.map (c.outlierFlag boost)), .string (rows.filter (c.isOutlier boost))]
  else []

def parsedBlocks (boost : RegexMatch) (c : Concatenator) (rows : List Bytes) : List DataBlock :=
  columns c.filledTypes ((c.parsedRows boost rows).map (List.take c.noBlocks))

theorem decompose_eq (boost : RegexMatch) (counted : Counted c) (fits : Fits c)
    (input : StringDataBlock) (stats : CompressionStatistics) :
    ∃ after, c.decompose boost input stats =
        some (c.outlierBlocks boost input.rows ++ c.parsedBlocks boost input.rows, after) ∧
      after.newNoOutliers % 2 ^ 32 = (stats.newNoOutliers +
        (input.rows.drop stats.previousNoObj).countP (c.isOutlier boost)) % 2 ^ 32 := by
  have start : c.groupBlocks [] = ⟨replicate c.noBlN [], replicate c.noBlS []⟩ := by
    rw [groupBlocks, numberColumns_nil, textColumns_nil, fits, counted.count_texts fits]
  obtain ⟨after, done, counts⟩ :=
    decomposeRows_eq boost counted fits input.rows 0 [] [] [] 0 stats input.short
  obtain ⟨smallN, smallS⟩ := counted.small
  have pushed := pushBlocks_columns c.filledTypes
    ((c.parsedRows boost input.rows).map (take c.noBlocks)) [] []
    (by rw [length_nil, zero_add, fits]; exact smallN)
    (by rw [length_nil, zero_add, counted.count_texts fits]; exact smallS)
  simp only [length_nil, nil_append] at pushed
  refine ⟨after, ?_, counts⟩
  rw [decompose, ← start, done]
  simp only [bind_eq_bind, bind_some, nil_append, zero_add]
  rw [groupBlocks, ← filledTypes, pushed]
  rfl

end

end Brighthouse.DomainInject.Concatenator
