import Brighthouse.Core.ColumnBinEncoder
import Brighthouse.Library.Binary64

/-!
# Pack orderers

`PackOrderer` walks over the packs of a table in the orders of one or several columns.  Several
columns take turns and skip the packs in `visited`.  The copy constructor asks its own `visited`,
which is still null, whether there is one to copy.  `NaturallyOrdered` is one pack too early: the
current pack is among those that are passed.
-/

set_option autoImplicit false

namespace Brighthouse.Core

open ColumnBinEncoder (uint64)
open Function

inductive OrderType
  | rangeSimilarity | minAsc | minDesc | maxAsc | maxDesc | covering | notSpecified

/-- What is kept for a column.  The index `-1` is `INIT_VAL` and `-2` is `END`. -/
structure OrderedColumn where
  packs : List Nat
  naturalOrder : Bool
  otype : OrderType
  curndx : Int
  prevndx : Int
  lastlyLeft : Bool

/-- The pointer `visited` is null for one column. -/
structure PackOrderer where
  ncols : Nat
  columns : Nat → OrderedColumn
  curvc : Nat
  dimsize : Int
  visited : Option (Nat → Bool)

namespace OrderedColumn

def nextPack (dimsize : Int) (c : OrderedColumn) : OrderedColumn :=
  let last : Int := c.packs.length - 1
  if c.naturalOrder then
    { c with curndx := if c.curndx < dimsize - 1 ∧ c.curndx ≠ -2 then c.curndx + 1 else -2 }
  else
    match c.otype with
    | .rangeSimilarity =>
      if c.lastlyLeft then
        if uint64 c.prevndx < uint64 last then
          { c with lastlyLeft := false, curndx := c.prevndx + 1, prevndx := c.curndx }
        else { c with curndx := if 0 < c.curndx then c.curndx - 1 else -2 }
      else if 0 < c.prevndx then
        { c with lastlyLeft := true, curndx := c.prevndx - 1, prevndx := c.curndx }
      else { c with curndx := if uint64 c.curndx < uint64 last then c.curndx + 1 else -2 }
    | _ =>
      if c.curndx = -2 then c
      else { c with curndx := if c.curndx < last then c.curndx + 1 else -2 }

def pack (c : OrderedColumn) : Nat :=
  if c.naturalOrder then c.curndx.toNat else c.packs.getD c.curndx.toNat 0

/-- The loop of `++`, for at most so many turns. -/
def nextUnvisited (dimsize : Int) (visited : Option (Nat → Bool)) :
    Nat → OrderedColumn → Option OrderedColumn
  | 0, c => some c
  | turns + 1, c =>
    let c := c.nextPack dimsize
    if c.curndx = -2 then some c
    else visited.bind fun seen =>
      if seen c.pack then nextUnvisited dimsize visited turns c else some c

def rewindCol (c : OrderedColumn) : OrderedColumn :=
  if c.naturalOrder = false ∧ c.packs = [] then { c with curndx := -2 }
  else { c with curndx := -1, prevndx := -1 }

end OrderedColumn

namespace PackOrderer

open OrderedColumn

def increment (turns : Nat) (s : PackOrderer) : Option PackOrderer :=
  if s.ncols = 1 then
    some { s with
      columns := update s.columns s.curvc ((s.columns s.curvc).nextPack s.dimsize) }
  else
    let curvc := (s.curvc + 1) % s.ncols
    ((s.columns curvc).nextUnvisited s.dimsize s.visited turns).map fun c =>
      { s with
        columns := update s.columns curvc c
        curvc
        visited := if c.curndx = -2 then s.visited else s.visited.map (update · c.pack true) }

def rewind (s : PackOrderer) : PackOrderer :=
  { s with
    columns := fun k => (s.columns k).rewindCol
    curvc := 0
    visited := s.visited.map fun _ _ => false }

def copy (p : PackOrderer) : PackOrderer :=
  -- the test is made on the new object, whose pointer is null
  let visited : Option (Nat → Bool) := none
  { p with visited := if visited.isSome then p.visited else visited }

/-- The packs of the next `steps` positions, as far as they are valid. -/
def remaining (turns : Nat) : Nat → PackOrderer → Option (List Nat)
  | 0, _ => some []
  | steps + 1, s => (s.increment turns).bind fun s =>
    let c := s.columns s.curvc
    if 0 ≤ c.curndx then (remaining turns steps s).map (c.pack :: ·) else some []

/-- `Init` sorts the packs of each column, and makes `visited` for several columns. -/
inductive Reachable : PackOrderer → Prop
  | init (ncols : Nat) (columns : Nat → OrderedColumn) (dimsize : Int) (some' : 0 < ncols) :
      Reachable ⟨ncols, columns, 0, dimsize, if ncols = 1 then none else some fun _ => false⟩
  | rewind {s : PackOrderer} : Reachable s → Reachable s.rewind
  | increment {s s' : PackOrderer} (turns : Nat) : Reachable s →
      s.increment turns = some s' → Reachable s'

def AtEnd (s : PackOrderer) : Prop :=
  ((s.columns ((s.curvc + 1) % s.ncols)).nextPack s.dimsize).curndx = -2

variable {s : PackOrderer}

theorem visited_of_reachable (reachable : Reachable s) (several : s.ncols ≠ 1) :
    ∃ seen, s.visited = some seen := by
  induction reachable with
  | init => exact ⟨_, if_neg several⟩
  | rewind _ ih =>
    obtain ⟨seen, isSeen⟩ := ih several
    exact ⟨_, congrArg (Option.map fun _ _ => false) isSeen⟩
  | @increment s s' turns _ moved ih =>
    rw [increment] at moved
    split at moved
    · cases moved
      exact ih several
    · obtain ⟨c, -, rfl⟩ := Option.map_eq_some_iff.mp moved
      obtain ⟨seen, isSeen⟩ := ih several
      rw [isSeen]
      split <;> exact ⟨_, rfl⟩

theorem exists_nextUnvisited (dimsize : Int) (seen : Nat → Bool) (turns : Nat) :
    ∀ c : OrderedColumn, ∃ c', c.nextUnvisited dimsize (some seen) turns = some c' := by
  induction turns with
  | zero => exact fun c => ⟨c, rfl⟩
  | succ turns ih =>
    intro c
    rw [nextUnvisited]
    dsimp only [Option.bind_some]
    split
    · exact ⟨_, rfl⟩
    · split
      · exact ih _
      · exact ⟨_, rfl⟩

theorem remaining_copy (single : s.ncols = 1) (turns steps : Nat) :
    s.copy.remaining turns steps = s.remaining turns steps := by
  induction steps generalizing s with
  | zero => rfl
  | succ steps ih =>
    rw [remaining, remaining, increment, increment, if_pos single,
      if_pos (show s.copy.ncols = 1 from single)]
    exact if_congr Iff.rfl (congrArg _ (@ih ⟨s.ncols, _, s.curvc, s.dimsize, s.visited⟩ single)) rfl

section
variable (several : s.ncols ≠ 1) (turns : Nat)
include several

theorem remaining_of_atEnd (atEnd : s.AtEnd) (steps : Nat) :
    s.remaining (turns + 1) (steps + 1) = some [] := by
  unfold AtEnd at atEnd
  simp [remaining, increment, several, nextUnvisited, atEnd]

theorem increment_copy (goesOn : ¬s.AtEnd) : s.copy.increment (turns + 1) = none := by
  unfold AtEnd at goesOn
  simp [increment, copy, several, nextUnvisited, goesOn]

end

/-- The copy of an orderer of several columns follows the null pointer, unless there is no pack. -/
theorem remaining_copy_iff (reachable : Reachable s) (turns : Nat) :
    (∀ steps, s.copy.remaining (turns + 1) steps = s.remaining (turns + 1) steps) ↔
      s.ncols = 1 ∨ s.AtEnd := by
  by_cases single : s.ncols = 1
  · exact iff_of_true (remaining_copy single _) (.inl single)
  · rw [or_iff_right single]
    constructor
    · intro same
      by_contra goesOn
      obtain ⟨seen, isSeen⟩ := visited_of_reachable reachable single
      obtain ⟨c, found⟩ := exists_nextUnvisited s.dimsize seen (turns + 1)
        (s.columns ((s.curvc + 1) % s.ncols))
      have first := same 1
      rw [remaining, increment_copy single turns goesOn] at first
      simp [remaining, increment, single, isSeen, found] at first
      split at first <;> cases first
    · intro atEnd steps
      cases steps with
      | zero => rfl
      | succ steps =>
        rw [remaining_of_atEnd single turns atEnd]
        exact remaining_of_atEnd (s := s.copy) single turns atEnd steps

def textColumns (ncols : Nat) : PackOrderer :=
  ⟨ncols, fun _ => ⟨[], true, .minAsc, -1, -1, true⟩, 0, 2,
    if ncols = 1 then none else some fun _ => false⟩

/-- The copy of an orderer that stands on the first of two packs goes on to the second. -/
theorem copy_of_one_column : ∃ s, (textColumns 1).increment 1 = some s ∧
    s.remaining 1 3 = some [1] ∧ s.copy.remaining 1 3 = s.remaining 1 3 :=
  ⟨_, rfl, by decide, (remaining_copy_iff (.increment 1 (.init 1 _ 2 Nat.one_pos) rfl) 0).mpr
    (.inl rfl) 3⟩

theorem copy_of_two_columns : Reachable (textColumns 2) ∧
    (textColumns 2).remaining 3 3 = some [0, 1] ∧ (textColumns 2).copy.remaining 3 3 = none :=
  ⟨.init 2 _ 2 Nat.two_pos, by decide, by decide⟩

end PackOrderer

namespace OrderedColumn

open Library.Binary64 List

/-! ## The signal of the natural order -/

/-- How many packs keep the order of the column. -/
def packsOrderedUpTo (size : Nat) (percentage : ℚ) : Nat :=
  min (truncate (round53 (size * round53 (percentage / 100)))).toNat 1000

/-- The end of `InitOneColumn`, where the packs are in the order of the column. -/
def resort (upTo : Nat) (c : OrderedColumn) : OrderedColumn :=
  { c with packs := c.packs.take upTo ++ (c.packs.drop upTo).insertionSort (· ≤ ·) }

def walked (dimsize : Int) (c : OrderedColumn) (passed : Nat) : OrderedColumn :=
  (nextPack dimsize)^[passed] c.rewindCol

def naturallyOrdered (packsOrderedUpTo packsPassed : Nat) : Bool := packsOrderedUpTo ≤ packsPassed

/-- From a position with `NaturallyOrdered` the packs ascend; `NextPack` has counted the pack of
the position as passed.  `Rewind` alone gives no position. -/
def SignalsRight (dimsize : Int) (c : OrderedColumn) (upTo : Nat) : Prop :=
  ∀ i, 0 ≤ (c.walked dimsize (i + 1)).curndx → naturallyOrdered upTo (i + 1) →
    ∀ j k, i ≤ j → j < k → 0 ≤ (c.walked dimsize (k + 1)).curndx →
      (c.walked dimsize (j + 1)).pack < (c.walked dimsize (k + 1)).pack

variable {dimsize : Int} {c : OrderedColumn}

theorem walked_succ (n : Nat) : c.walked dimsize (n + 1) = (c.walked dimsize n).nextPack dimsize :=
  iterate_succ_apply' _ _ _

theorem walked_same (n : Nat) : (c.walked dimsize n).packs = c.packs ∧
    (c.walked dimsize n).naturalOrder = c.naturalOrder ∧ (c.walked dimsize n).otype = c.otype := by
  induction n with
  | zero =>
    simp only [walked, rewindCol]
    split <;> simp
  | succ n ih =>
    rw [walked_succ, nextPack]
    repeat' split
    all_goals exact ih

/-- `prevndx` is a mark, and no index, where there are no packs. -/
theorem walked_rangeSimilarity (sorted : c.naturalOrder = false)
    (similar : c.otype = .rangeSimilarity)
    (mark : c.packs = [] → c.prevndx = -1 ∨ c.prevndx = -2) (n : Nat) :
    ((c.walked dimsize n).curndx = -1 ∨ (c.walked dimsize n).curndx = -2) ∧
      ((c.walked dimsize n).prevndx = -1 ∨ (c.walked dimsize n).prevndx = -2) := by
  induction n with
  | zero =>
    simp only [walked, rewindCol]
    split
    · exact ⟨.inr rfl, mark (by tauto)⟩
    · exact ⟨.inl rfl, .inl rfl⟩
  | succ n ih =>
    have same := @walked_same dimsize c n
    have top : ∀ x, ¬uint64 (-1) < uint64 x := fun x => by
      simp only [uint64, Library.Word64.toU64]
      omega
    rw [walked_succ, nextPack, same.2.1, same.2.2]
    obtain ⟨cur | cur, prev | prev⟩ := ih
    all_goals
      simp only [cur, prev, top]
      repeat' split
      all_goals simp_all

def order (dimsize : Int) (c : OrderedColumn) : List Nat :=
  if c.naturalOrder then range dimsize.toNat else c.packs

section
variable (ascends : c.naturalOrder = true ∨ c.otype ≠ .rangeSimilarity)
include ascends

theorem walked_curndx (n : Nat) : (c.walked dimsize (n + 1)).curndx =
    if n < (c.order dimsize).length then (n : Int) else -2 := by
  have step : ∀ n, -2 ≤ (c.walked dimsize n).curndx → (c.walked dimsize (n + 1)).curndx =
      if (c.walked dimsize n).curndx + 1 < (c.order dimsize).length ∧
        (c.walked dimsize n).curndx ≠ -2 then (c.walked dimsize n).curndx + 1 else -2 := by
    intro n low
    obtain ⟨isPacks, isNatural, isType⟩ := @walked_same dimsize c n
    rw [walked_succ, nextPack, isPacks, isNatural, order]
    by_cases natural : c.naturalOrder = true
    · rw [if_pos natural, if_pos natural, length_range]
      exact if_congr (by omega) rfl rfl
    · repeat' split
      all_goals first | omega | simp_all
  induction n with
  | zero =>
    rw [step 0]
    · by_cases empty : c.naturalOrder = false ∧ c.packs = []
      · simp [walked, rewindCol, empty, order]
      · simp [walked, rewindCol, empty]
    · simp only [walked, rewindCol]
      split <;> simp
  | succ n ih =>
    rw [step _ (by rw [ih]; split <;> omega)]
    repeat' split
    all_goals omega

theorem signalsRight_iff {upTo : Nat} : c.SignalsRight dimsize upTo ↔
    ((c.order dimsize).drop (upTo - 1)).Pairwise (· < ·) := by
  have valid : ∀ n, 0 ≤ (c.walked dimsize (n + 1)).curndx ↔ n < (c.order dimsize).length := by
    intro n
    rw [walked_curndx ascends]
    split <;> omega
  have isPack : ∀ n (lt : n < (c.order dimsize).length),
      (c.walked dimsize (n + 1)).pack = (c.order dimsize)[n] := by
    intro n lt
    have same := @walked_same dimsize c (n + 1)
    rw [pack, walked_curndx ascends, if_pos lt, same.1, same.2.1]
    by_cases natural : c.naturalOrder = true
    · simp [order, natural]
    · simp only [order, natural] at lt ⊢
      exact (getElem_eq_getD 0).symm
  rw [pairwise_iff_getElem]
  constructor
  · intro right j k ltJ ltK lt
    rw [length_drop] at ltJ ltK
    rw [getElem_drop, getElem_drop, ← isPack, ← isPack]
    exact right (upTo - 1 + j) ((valid _).mpr (by omega)) (decide_eq_true (by omega)) _ _ le_rfl
      (by omega)
      ((valid _).mpr (by omega))
  · intro ascending i _ signal j k le lt inside
    replace signal := of_decide_eq_true signal
    rw [valid] at inside
    have less := ascending (j - (upTo - 1)) (k - (upTo - 1)) (by rw [length_drop]; omega)
      (by rw [length_drop]; omega) (by omega)
    rw [getElem_drop, getElem_drop, ← isPack, ← isPack] at less
    rwa [Nat.add_sub_cancel' (by omega), Nat.add_sub_cancel' (by omega)] at less

end

theorem pairwise_resort_iff (nodup : c.packs.Nodup) (upTo : Nat) :
    ((c.resort upTo).packs.drop (upTo - 1)).Pairwise (· < ·) ↔
      ∀ last ∈ (c.packs.take upTo).getLast?, ∀ pack ∈ c.packs.drop upTo, last < pack := by
  have sorted : ((c.packs.drop upTo).insertionSort (· ≤ ·)).Pairwise (· < ·) := by
    refine (pairwise_insertionSort _ _).imp₂ (fun _ _ => lt_of_le_of_ne) ?_
    exact (perm_insertionSort _ _).nodup_iff.mpr (nodup.sublist (drop_sublist _ _))
  rw [resort]
  rcases eq_nil_or_concat (c.packs.take upTo) with none | ⟨front, last, isFront⟩
  · rw [none]
    exact iff_of_true (sorted.sublist (drop_sublist _ _)) nofun
  · have length := congrArg length isFront
    rw [length_take, length_concat] at length
    by_cases short : c.packs.length < upTo
    · have all : c.packs.drop upTo = [] := drop_eq_nil_of_le short.le
      rw [all]
      refine iff_of_true ?_ fun _ _ => nofun
      rw [drop_eq_nil_of_le]
      · exact .nil
      · simp
        omega
    · rw [isFront, concat_eq_append, append_assoc, drop_left' (by omega), singleton_append,
        pairwise_cons, and_iff_left sorted]
      simp

/-- The last pack of the reordered beginning already counts as passed. -/
theorem signalsRight_resort_iff (nodup : c.packs.Nodup)
    (mark : c.packs = [] → c.prevndx = -1 ∨ c.prevndx = -2) (dimsize : Int) (upTo : Nat) :
    (c.resort upTo).SignalsRight dimsize upTo ↔
      c.naturalOrder = true ∨ c.otype = .rangeSimilarity ∨
        ∀ last ∈ (c.packs.take upTo).getLast?, ∀ pack ∈ c.packs.drop upTo, last < pack := by
  by_cases natural : c.naturalOrder = true
  · rw [signalsRight_iff (c := c.resort upTo) (.inl natural), order, if_pos (by exact natural)]
    exact iff_of_true (pairwise_lt_range.sublist (drop_sublist _ _)) (.inl natural)
  by_cases similar : c.otype = .rangeSimilarity
  · refine iff_of_true (fun i valid => absurd valid ?_) (.inr (.inl similar))
    have same : (c.resort upTo).packs.Perm c.packs := by
      have perm := (perm_insertionSort (· ≤ ·) (c.packs.drop upTo)).append_left (c.packs.take upTo)
      rwa [take_append_drop] at perm
    have marks := @walked_rangeSimilarity dimsize (c.resort upTo)
      (Bool.eq_false_of_not_eq_true natural) similar
      (fun empty => mark (empty ▸ same).symm.eq_nil) (i + 1)
    omega
  · rw [signalsRight_iff (c := c.resort upTo) (.inr similar), order, if_neg (by exact natural),
      or_iff_right natural, or_iff_right similar]
    exact pairwise_resort_iff nodup upTo

/-- The packs of a column by their maxima, the greatest first. -/
def byMaximum (packs : List Nat) : OrderedColumn := ⟨packs, false, .maxDesc, -1, -1, true⟩

theorem signalsRight_first_pack : packsOrderedUpTo 20 5 = 1 ∧
    ((byMaximum (range 20)).resort 1).SignalsRight 20 1 :=
  ⟨by decide +kernel, (signalsRight_resort_iff (by decide) (fun _ => .inl rfl) 20 1).mpr
    (.inr (.inr (by decide)))⟩

theorem signals_wrong_last_pack : packsOrderedUpTo 20 5 = 1 ∧
    ¬((byMaximum (19 :: range 19)).resort 1).SignalsRight 20 1 := by
  refine ⟨by decide +kernel, fun right => ?_⟩
  exact absurd (right 0 (by decide +kernel) rfl 0 1 le_rfl one_pos (by decide +kernel))
    (by decide +kernel)

end OrderedColumn

end Brighthouse.Core
