import Brighthouse.DomainInject.Concatenator

/-!
# The constructor and the composition of one string

The loop of the constructor and the loop of `Compose` read the rule in the same way: the
pieces of the regular expression are those that `Compose` writes, in the same order.
-/

set_option autoImplicit false

namespace Brighthouse.DomainInject.Concatenator

open Library List Option

variable {char next : Byte} {memory : Memory} {s t : Bytes}

theorem ushort_of_lt {n : Nat} (small : n < 2 ^ 16) : ushort n = n := Nat.mod_eq_of_lt small

/-! ## The pieces of a rule -/

def items : Bytes → List RegexItem
  | [] => []
  | [char] => [.char char]
  | char :: next :: rest =>
    if char = percent then
      if next = letterD then .number :: items rest
      else if next = letterS then .text :: items rest
      else if next = percent then .char percent :: items rest
      else .char percent :: items (next :: rest)
    else .char char :: items (next :: rest)

theorem items_char {rest : Bytes}
    (plain : char = percent → next ≠ letterD ∧ next ≠ letterS ∧ next ≠ percent) :
    items (char :: next :: rest) = .char char :: items (next :: rest) := by
  rw [items]
  split
  · rename_i same
    obtain ⟨notD, notS, notPercent⟩ := plain same
    rw [if_neg notD, if_neg notS, if_neg notPercent, same]
  · rfl

def RegexItem.blockType : RegexItem → Option MaskBlockType
  | .char _ => none
  | .number => some .n
  | .text => some .s

/-- The types of the groups and their numbers are those of the expression. -/
structure Counted (c : Concatenator) : Prop where
  types : c.blockType = c.re.filterMap RegexItem.blockType
  numbers : c.noBlN = ushort (c.blockType.count .n)
  texts : c.noBlS = ushort (c.blockType.count .s)

section
variable {c : Concatenator} (counted : Counted c)
include counted

theorem Counted.addChar (char : Byte) : Counted (c.addChar char) := by
  refine ⟨?_, counted.numbers, counted.texts⟩
  simp [Concatenator.addChar, counted.types, RegexItem.blockType]

theorem Counted.addNumber : Counted c.addNumber := by
  refine ⟨?_, ?_, ?_⟩
  · simp [Concatenator.addNumber, counted.types, RegexItem.blockType]
  · simp [Concatenator.addNumber, counted.numbers, ushort]
  · simp [Concatenator.addNumber, counted.texts]

theorem Counted.addText : Counted c.addText := by
  refine ⟨?_, ?_, ?_⟩
  · simp [Concatenator.addText, counted.types, RegexItem.blockType]
  · simp [Concatenator.addText, counted.numbers]
  · simp [Concatenator.addText, counted.texts, ushort]

end

theorem readRule_spec (s : Bytes) (c : Concatenator) (counted : Counted c) :
    Counted (readRule s c) ∧ (readRule s c).re = c.re ++ items s ∧
      (readRule s c).mask = c.mask := by
  fun_induction readRule s c with
  | case1 => exact ⟨counted, (append_nil _).symm, rfl⟩
  | case2 char c => exact ⟨counted.addChar char, rfl, rfl⟩
  | case3 rest c ih =>
    obtain ⟨after, re, mask⟩ := ih counted.addNumber
    exact ⟨after, by rw [re, items]; exact append_assoc _ _ _, mask⟩
  | case4 rest c _ ih =>
    obtain ⟨after, re, mask⟩ := ih counted.addText
    exact ⟨after, by rw [re, items]; exact append_assoc _ _ _, mask⟩
  | case5 rest c _ _ ih =>
    obtain ⟨after, re, mask⟩ := ih (counted.addChar percent)
    exact ⟨after, by rw [re, items]; exact append_assoc _ _ _, mask⟩
  | case6 next rest c notD notS notPercent ih =>
    obtain ⟨after, re, mask⟩ := ih (counted.addChar percent)
    refine ⟨after, ?_, mask⟩
    rw [re, items_char fun _ => ⟨notD, notS, notPercent⟩]
    exact append_assoc _ _ _
  | case7 char next rest c notPercent ih =>
    obtain ⟨after, re, mask⟩ := ih (counted.addChar char)
    refine ⟨after, ?_, mask⟩
    rw [re, items_char fun same => absurd same notPercent]
    exact append_assoc _ _ _

/-! ## Composing one string -/

def groupAt (types : List MaskBlockType) (blocks : List DataBlock) (row j : Nat) :
    Option Bytes := do
  let type ← types[j]?
  let block ← blocks[j]?
  groupText type block row

/-- The string `s` has been put at the place `start` and nothing below it has changed. -/
structure Stored (memory after : Memory) (start : Nat) (s : Bytes) : Prop where
  below : ∀ i, i < start → after i = memory i
  text : after.load start s.length = s

theorem Stored.nil (memory : Memory) (start : Nat) : Stored memory memory start [] :=
  ⟨fun _ _ => rfl, rfl⟩

theorem stored_store (memory : Memory) (start : Nat) (s : Bytes) :
    Stored memory (memory.store start s) start s :=
  ⟨fun _ below => Memory.store_below s below, Memory.load_store memory start s⟩

theorem Stored.append {middle after : Memory} {start : Nat} (first : Stored memory middle start s)
    (second : Stored middle after (start + s.length) t) : Stored memory after start (s ++ t) := by
  refine ⟨fun i below => ?_, ?_⟩
  · rw [second.below i (by omega), first.below i below]
  · rw [length_append, Memory.load_add, second.text]
    congr 1
    rw [Memory.load_congr fun i _ inside => second.below i inside]
    exact first.text

/-- The texts of the groups of a partition are found from block `blockCnt` on. -/
def Found (types : List MaskBlockType) (blocks : List DataBlock) (row blockCnt : Nat)
    (groups : List Bytes) : Prop :=
  ∀ j group, groups[j]? = some group → groupAt types blocks row (blockCnt + j) = some group

section
variable {types : List MaskBlockType} {blocks : List DataBlock} {row shift : Nat}

section
variable {blockCnt : Nat} {group : Bytes} {groups : List Bytes}
  (found : Found types blocks row blockCnt (group :: groups))
include found

theorem Found.head :
    groupAt types blocks row blockCnt = some group := found 0 group rfl

theorem Found.tail : Found types blocks row (blockCnt + 1) groups := by
  intro j text inside
  rw [add_assoc, add_comm 1 j]
  exact found (j + 1) text inside

end

variable {rest : Bytes} {state : Memory × Nat}

theorem composeRow_char {blockCnt : Nat}
    (plain : char = percent → next ≠ letterD ∧ next ≠ letterS ∧ next ≠ percent) :
    composeRow types blocks row shift (char :: next :: rest) blockCnt state =
      composeRow types blocks row shift (next :: rest) blockCnt (put shift [char] state) := by
  rw [composeRow, if_pos, if_neg]
  · exact fun both => (plain both.1).2.2 both.2
  · by_cases same : char = percent
    · exact .inr ⟨(plain same).2.1, (plain same).1⟩
    · exact .inl same

theorem composeRow_percent {blockCnt : Nat} :
    composeRow types blocks row shift (percent :: percent :: rest) blockCnt state =
      composeRow types blocks row shift rest blockCnt (put shift [percent] state) := by
  rw [composeRow, if_pos (.inr (by decide)), if_pos ⟨rfl, rfl⟩]

theorem composeRow_group {blockCnt : Nat} (isGroup : next = letterD ∨ next = letterS) :
    composeRow types blocks row shift (percent :: next :: rest) blockCnt state =
      (groupAt types blocks row blockCnt).bind fun text =>
        composeRow types blocks row shift rest (blockCnt + 1) (put shift text state) := by
  rw [composeRow, if_neg]
  · simp only [groupAt, bind_eq_bind, bind_assoc]
  · rintro (other | ⟨notS, notD⟩)
    · exact other rfl
    · rcases isGroup with isD | isS
      · exact notD isD
      · exact notS isS

/-- The loop over `mask` stores `s` behind the first `len` bytes. -/
def Composes (types : List MaskBlockType) (blocks : List DataBlock) (row shift : Nat)
    (mask : Bytes) (blockCnt : Nat) (s : Bytes) : Prop :=
  ∀ memory len, len + s.length < 2 ^ 16 → ∃ after,
    composeRow types blocks row shift mask blockCnt (memory, len) = some (after, len + s.length) ∧
      Stored memory after (shift + len) s

theorem Composes.step {mask : Bytes} {blockCnt blockCnt' : Nat}
    (composes : Composes types blocks row shift rest blockCnt' t)
    (turn : ∀ state, composeRow types blocks row shift mask blockCnt state =
      composeRow types blocks row shift rest blockCnt' (put shift s state)) :
    Composes types blocks row shift mask blockCnt (s ++ t) := by
  intro memory len small
  rw [length_append] at small
  obtain ⟨after, result, stored⟩ :=
    composes (memory.store (shift + len) s) (len + s.length) (by omega)
  refine ⟨after, ?_, ?_⟩
  · rw [turn, put, ushort_of_lt (by omega), result, length_append, add_assoc]
  · exact (stored_store memory (shift + len) s).append (by rwa [add_assoc])

theorem composes_nil (blockCnt : Nat) : Composes types blocks row shift [] blockCnt [] :=
  fun memory _ _ => ⟨memory, rfl, Stored.nil memory _⟩

theorem composes_partition (mask : Bytes) :
    ∀ groups s blockCnt, Partition (items mask) groups s →
      Found types blocks row blockCnt groups →
      Composes types blocks row shift mask blockCnt s := by
  fun_induction items mask with
  | case1 =>
    intro groups s blockCnt partition _
    cases partition
    exact composes_nil blockCnt
  | case2 char =>
    intro groups s blockCnt partition _
    cases partition with
    | char _ rest =>
      cases rest
      exact Composes.step (s := [char]) (composes_nil blockCnt) fun _ => rfl
  | case3 rest ih =>
    intro groups s blockCnt partition found
    cases partition with
    | number _ _ _ partition =>
      refine (ih _ _ _ partition found.tail).step fun state => ?_
      rw [composeRow_group (.inl rfl), found.head, bind_some]
  | case4 rest _ ih =>
    intro groups s blockCnt partition found
    cases partition with
    | text _ partition =>
      refine (ih _ _ _ partition found.tail).step fun state => ?_
      rw [composeRow_group (.inr rfl), found.head, bind_some]
  | case5 rest _ _ ih =>
    intro groups s blockCnt partition found
    cases partition with
    | char _ partition =>
      exact (ih _ _ _ partition found).step fun state => composeRow_percent
  | case6 next rest notD notS notPercent ih =>
    intro groups s blockCnt partition found
    cases partition with
    | char _ partition =>
      exact (ih _ _ _ partition found).step fun state =>
        composeRow_char fun _ => ⟨notD, notS, notPercent⟩
  | case7 char next rest notPercent ih =>
    intro groups s blockCnt partition found
    cases partition with
    | char _ partition =>
      exact (ih _ _ _ partition found).step fun state =>
        composeRow_char fun same => absurd same notPercent

theorem composeRow_blocks (mask : Bytes) :
    ∀ blockCnt state result,
      composeRow types blocks row shift mask blockCnt state = some result →
      blockCnt ≤ blocks.length →
      blockCnt + ((items mask).filterMap RegexItem.blockType).length ≤ blocks.length := by
  have group : ∀ {next rest blockCnt state result},
      next = letterD ∨ next = letterS →
      composeRow types blocks row shift (percent :: next :: rest) blockCnt state = some result →
      blockCnt < blocks.length ∧
        ∃ after, composeRow types blocks row shift rest (blockCnt + 1) after = some result := by
    intro next rest blockCnt state result isGroup composed
    rw [composeRow_group isGroup] at composed
    obtain ⟨text, found, composed⟩ := bind_eq_some_iff.mp composed
    obtain ⟨type, _, found⟩ := bind_eq_some_iff.mp found
    obtain ⟨block, inside, _⟩ := bind_eq_some_iff.mp found
    exact ⟨(List.getElem?_eq_some_iff.mp inside).1, _, composed⟩
  fun_induction items mask with
  | case1 => exact fun _ _ _ _ enough => enough
  | case2 char => exact fun _ _ _ _ enough => enough
  | case3 rest ih =>
    intro blockCnt state result composed _
    obtain ⟨below, after, composed⟩ := group (.inl rfl) composed
    have enough := ih _ _ _ composed below
    simp only [filterMap_cons, RegexItem.blockType, length_cons]
    omega
  | case4 rest _ ih =>
    intro blockCnt state result composed _
    obtain ⟨below, after, composed⟩ := group (.inr rfl) composed
    have enough := ih _ _ _ composed below
    simp only [filterMap_cons, RegexItem.blockType, length_cons]
    omega
  | case5 rest _ _ ih =>
    intro blockCnt state result composed enough
    exact ih _ _ _ composed enough
  | case6 next rest notD notS notPercent ih =>
    intro blockCnt state result composed enough
    rw [composeRow_char fun _ => ⟨notD, notS, notPercent⟩] at composed
    exact ih _ _ _ composed enough
  | case7 char next rest notPercent ih =>
    intro blockCnt state result composed enough
    rw [composeRow_char fun same => absurd same notPercent] at composed
    exact ih _ _ _ composed enough

end

/-! ## A matcher -/

/-- A search for a partition: `(\d{1,18})` takes as many digits as it can and `(.*?)` as few
characters as it can. -/
def searchGroups : List RegexItem → Bytes → Option (List Bytes)
  | [], s => if s = [] then some [] else none
  | .char c :: re, s => if s.head? = some c then searchGroups re s.tail else none
  | .number :: re, s =>
    (List.range' 1 18).reverse.findSome? fun length =>
      if length ≤ s.length ∧ ∀ c ∈ s.take length, Decimal.IsDigit c then
        (searchGroups re (s.drop length)).map (s.take length :: ·)
      else none
  | .text :: re, s =>
    (List.range (s.length + 1)).findSome? fun length =>
      (searchGroups re (s.drop length)).map (s.take length :: ·)

theorem searchGroups_partition (re : List RegexItem) :
    ∀ s groups, searchGroups re s = some groups → Partition re groups s := by
  induction re with
  | nil =>
    intro s groups found
    rw [searchGroups] at found
    split at found
    · rename_i empty
      cases found
      exact empty ▸ Partition.nil
    · cases found
  | cons item re ih =>
    intro s groups found
    cases item with
    | char c =>
      rw [searchGroups] at found
      split at found
      · rename_i first
        obtain ⟨rest, rfl⟩ := head?_eq_some_iff.mp first
        exact Partition.char c (ih rest groups found)
      · cases found
    | number =>
      obtain ⟨length, tried, found⟩ := exists_of_findSome?_eq_some found
      obtain ⟨positive, most⟩ := mem_range'_1.mp (mem_reverse.mp tried)
      split at found
      · rename_i fits
        obtain ⟨rest, found', rfl⟩ := map_eq_some_iff.mp found
        have taken : (s.take length).length = length := length_take_of_le fits.1
        have partition := Partition.number fits.2 (fun empty => by simp [empty] at taken; omega)
          (by omega) (ih _ _ found')
        rwa [take_append_drop] at partition
      · cases found
    | text =>
      obtain ⟨length, tried, found⟩ := exists_of_findSome?_eq_some found
      obtain ⟨rest, found', rfl⟩ := map_eq_some_iff.mp found
      have partition := Partition.text (s.take length) (ih _ _ found')
      rwa [take_append_drop] at partition

def search : RegexMatch := ⟨searchGroups, searchGroups_partition⟩

end Brighthouse.DomainInject.Concatenator
