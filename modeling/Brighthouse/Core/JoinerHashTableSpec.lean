import Brighthouse.Core.JoinerHashTable
import Brighthouse.Library.Probing

/-!
# The hash table of a join as a multiset

A key of a table with tuple columns gets a row for each insertion.  The multiplier of a row
tells how far the next copy of its key may jump: all rows of the jump are taken.  A jump
therefore never passes an empty row, the first copy counts the insertions, and no empty
row lies between two copies.  A table without tuple columns has one row for each key.
-/

set_option autoImplicit false

namespace Brighthouse.Core

open Library Library.Probing List Function Option Nat

namespace JoinerHashTable

/-! ## Sizes -/

/-- Every step goes through the whole table. -/
structure WellSized (noRows : Nat) : Prop where
  large : 1 < noRows
  coprime : ∀ p ∈ primeSteps, Nat.Coprime p noRows

theorem primeSteps_prime : ∀ p ∈ primeSteps, Nat.Prime p := by
  simp only [primeSteps]
  norm_num

theorem not_dvd_power {p : Nat} (isStep : p ∈ primeSteps) (n : Nat) :
    ¬p ∣ minPrimeNotInTable * 2 ^ n := by
  have prime := primeSteps_prime p isStep
  have odd : ∀ p ∈ primeSteps, ¬p ∣ 2 ∧ ¬p ∣ minPrimeNotInTable := by decide
  intro divides
  rcases prime.dvd_mul.mp divides with first | second
  · exact (odd p isStep).2 first
  · exact (odd p isStep).1 (prime.dvd_of_dvd_pow second)

theorem avoidSteps_not_dvd {q n : Nat} (turns : Nat) (le : q ≤ 2 ^ n) (soon : 2 ^ n < q + turns) :
    ∀ p ∈ primeSteps, ¬p ∣ avoidSteps turns (minPrimeNotInTable * q) := by
  induction turns generalizing q with
  | zero => omega
  | succ turns ih =>
    rw [avoidSteps]
    by_cases divided : primeSteps.any (minPrimeNotInTable * q % · == 0)
    · rw [if_pos divided, ← mul_succ]
      have differs : q ≠ 2 ^ n := by
        rintro rfl
        obtain ⟨p, isStep, zero⟩ := any_eq_true.mp divided
        exact not_dvd_power isStep n (dvd_of_mod_eq_zero (beq_iff_eq.mp zero))
      exact ih (by omega) (by omega)
    · rw [if_neg divided]
      intro p isStep divides
      refine divided (any_eq_true.mpr ⟨p, isStep, beq_iff_eq.mpr ?_⟩)
      exact mod_eq_zero_of_dvd divides

theorem le_avoidSteps (turns noRows : Nat) : noRows ≤ avoidSteps turns noRows := by
  induction turns generalizing noRows with
  | zero => exact le_refl _
  | succ turns ih =>
    rw [avoidSteps]
    split
    · exact le_trans (le_add_right _ _) (ih _)
    · exact le_refl _

theorem exists_power_between {q : Nat} (pos : 0 < q) : ∃ n, q ≤ 2 ^ n ∧ 2 ^ n < q + q := by
  have low : 2 ^ log2 q ≤ q := log2_self_le pos.ne'
  have high : q < 2 ^ (log2 q + 1) := lt_log2_self
  rcases lt_or_eq_of_le low with less | same
  · exact ⟨log2 q + 1, by rw [pow_succ]; omega, by rw [pow_succ]; omega⟩
  · exact ⟨log2 q, same.ge, by omega⟩

theorem verticalSize_wellSized (noRows : Nat) : WellSized (verticalSize noRows) := by
  obtain ⟨q, pos, multiple⟩ : ∃ q, 0 < q ∧ (if noRows < minPrimeNotInTable then minPrimeNotInTable
      else (noRows / minPrimeNotInTable + 1) * minPrimeNotInTable) = minPrimeNotInTable * q := by
    split
    · exact ⟨1, one_pos, rfl⟩
    · exact ⟨_, succ_pos _, mul_comm _ _⟩
  rw [verticalSize, multiple]
  have large : minPrimeNotInTable * q = 277 * q := rfl
  constructor
  · have := le_avoidSteps (minPrimeNotInTable * q) (minPrimeNotInTable * q)
    omega
  · intro p isStep
    obtain ⟨n, low, high⟩ := exists_power_between pos
    exact ((primeSteps_prime p isStep).coprime_iff_not_dvd).mpr
      (avoidSteps_not_dvd (minPrimeNotInTable * q) low (by omega) p isStep)

theorem iterateStep_mem (key : Bytes) : iterateStep key ∈ primeSteps := by
  have small : crcCode key % primeSteps.length < primeSteps.length := mod_lt _ (by decide)
  rw [iterateStep, getD_eq_getElem?_getD, getElem?_eq_getElem small]
  exact getElem_mem small

def layout {noRows : Nat} (sized : WellSized noRows) : Layout Bytes where
  size := noRows
  home := fun key => crcCode key % noRows
  step := iterateStep
  home_lt := fun _ => Nat.mod_lt _ (Nat.zero_lt_of_lt sized.large)
  coprime := fun key => sized.coprime _ (iterateStep_mem key)

abbrev WellSized.row {noRows : Nat} (sized : WellSized noRows) (key : Bytes) (j : Nat) : Nat :=
  (layout sized).row key j

theorem advance_eq (noRows row distance : Nat) :
    advance noRows row distance = (row + distance) % noRows := by
  rw [advance]
  split
  · rfl
  · rw [mod_eq_of_lt (by omega)]

section
variable {noRows : Nat} (sized : WellSized noRows)

theorem advance_row (key : Bytes) (j n : Nat) :
    advance noRows (sized.row key j) (iterateStep key * n) =
      sized.row key (j + n) := by
  rw [advance_eq]
  exact ((layout sized).row_add key j n).symm

theorem advance_row_one (key : Bytes) (j : Nat) :
    advance noRows (sized.row key j) (iterateStep key) =
      sized.row key (j + 1) := by
  have one := advance_row sized key j 1
  rwa [mul_one] at one

theorem row_ne_start (key : Bytes) {j : Nat} (pos : 0 < j) (inside : j < noRows) :
    sized.row key j ≠ sized.row key 0 := by
  intro same
  have zero := (layout sized).row_inj key (i := 0) ((zero_add noRows).symm ▸ inside)
    (zero_le j) same.symm
  omega

end

/-! ## What a row holds -/

def view (h : JoinerHashTable) (row : Nat) : Option Bytes :=
  if (h.t row).multiplier = 0 then none else some (h.t row).key

variable {row : Nat}

theorem view_eq_none_iff {h : JoinerHashTable} : h.view row = none ↔ (h.t row).multiplier = 0 := by
  rw [view]
  split <;> simp [*]

theorem view_eq_some_iff {h : JoinerHashTable} {key : Bytes} :
    h.view row = some key ↔ (h.t row).multiplier ≠ 0 ∧ (h.t row).key = key := by
  rw [view]
  split <;> simp [*]

theorem view_congr {h h' : JoinerHashTable} (same : h'.t row = h.t row) :
    h'.view row = h.view row := by
  rw [view, view, same]

def setup (h : JoinerHashTable) : Bool × Nat × Nat × Nat :=
  (h.forCountOnly, h.keyBufWidth, h.noRows, h.rowsLimit)

section
variable (h : JoinerHashTable) (n : Nat)
include h n

theorem noteConflicts_frame : (h.noteConflicts n).setup = h.setup ∧ (h.noteConflicts n).t = h.t ∧
    (h.noteConflicts n).inputBuffer = h.inputBuffer ∧
    (h.noteConflicts n).noOfOccupied = h.noOfOccupied := by
  rw [noteConflicts]
  split <;> exact ⟨rfl, rfl, rfl, rfl⟩

end

theorem noRows_of_setup {h h' : JoinerHashTable} (same : h'.setup = h.setup) :
    h'.noRows = h.noRows := congrArg (fun setup => setup.2.2.1) same

theorem forCountOnly_of_setup {h h' : JoinerHashTable} (same : h'.setup = h.setup) :
    h'.forCountOnly = h.forCountOnly := congrArg (fun setup => setup.1) same

theorem t_countOnce_self (h : JoinerHashTable) (row : Nat) :
    (h.countOnce row).t row = ⟨(h.t row).key, (h.t row).multiplier + 1⟩ :=
  update_self ..

theorem t_countOnce_of_ne (h : JoinerHashTable) {other : Nat} (differs : other ≠ row) :
    (h.countOnce row).t other = h.t other :=
  update_of_ne differs ..

/-! ## One insertion into a table with tuple columns -/

section
variable {noRows : Nat} (sized : WellSized noRows)

/-- What an insertion of `key` does from step `j` of its walk to its end at step `e`. -/
structure Grown (h h' : JoinerHashTable) (key : Bytes) (j e : Nat) : Prop where
  setup : h'.setup = h.setup
  occupied : h'.noOfOccupied = h.noOfOccupied + 1
  new : h'.t ((layout sized).row key e) = ⟨key, 1⟩
  keys : ∀ r ≠ (layout sized).row key e, (h'.t r).key = (h.t r).key
  multipliers : ∀ r ≠ (layout sized).row key e,
    (h'.t r).multiplier = (h.t r).multiplier ∨
      ∃ i, j ≤ i ∧ i < e ∧ r = (layout sized).row key i ∧ h.view r = some key ∧
        (h'.t r).multiplier = (h.t r).multiplier + 1
  /-- The first copy that is passed counts. -/
  first : ∀ i, j ≤ i → i < e → h.view ((layout sized).row key i) = some key →
    (∀ i', j ≤ i' → i' < i → h.view ((layout sized).row key i') ≠ some key) →
    (h'.t ((layout sized).row key i)).multiplier =
      (h.t ((layout sized).row key i)).multiplier + 1

theorem grown_occupy {h : JoinerHashTable} {key : Bytes} (buffer : h.inputBuffer = key) (e : Nat) :
    Grown sized h (h.occupy (sized.row key e)) key e e where
  setup := rfl
  occupied := rfl
  new := by
    rw [← buffer]
    exact update_self ..
  keys := fun r differs => congrArg JoinRow.key (update_of_ne differs ..)
  multipliers := fun r differs =>
    .inl (congrArg JoinRow.multiplier (update_of_ne differs ..))
  first := fun i low high => absurd low (not_le.mpr high)

variable {sized}
variable {e i j : Nat} {h h' : JoinerHashTable} {key : Bytes}

theorem Grown.of_other (other : h.view (sized.row key j) ≠ some key)
    (grown : Grown sized h h' key (j + 1) e) : Grown sized h h' key j e where
  setup := grown.setup
  occupied := grown.occupied
  new := grown.new
  keys := grown.keys
  multipliers := by
    intro r differs
    rcases grown.multipliers r differs with same | ⟨i, low, rest⟩
    · exact .inl same
    · exact .inr ⟨i, by omega, rest⟩
  first := by
    intro i low high here before
    have past : j + 1 ≤ i := by
      rcases lt_or_eq_of_le low with less | rfl
      · exact less
      · exact absurd here other
    exact grown.first i past high here fun i' low' => before i' (by omega)

theorem row_ne_of_lt (less : j < i) (inside : i < noRows) :
    sized.row key i ≠ sized.row key j := by
  intro same
  have equal := (layout sized).row_inj key (Nat.lt_add_left j inside) less.le same.symm
  omega

theorem index_eq (small : i < noRows) (small' : j < noRows)
    (same : sized.row key i = sized.row key j) : i = j := by
  rcases lt_trichotomy i j with less | equal | more
  · exact absurd same.symm (row_ne_of_lt less small')
  · exact equal
  · exact absurd same (row_ne_of_lt more small)

theorem Grown.of_copy {h₁ : JoinerHashTable} {n : Nat}
    (isCopy : h.view (sized.row key j) = some key) (pos : 0 < n) (le : j + n ≤ e)
    (inside : e < noRows) (setup : h₁.setup = h.setup) (occupied : h₁.noOfOccupied = h.noOfOccupied)
    (counted : h₁.t (sized.row key j) =
      ⟨(h.t (sized.row key j)).key, (h.t (sized.row key j)).multiplier + 1⟩)
    (others : ∀ r ≠ sized.row key j, h₁.t r = h.t r)
    (grown : Grown sized h₁ h' key (j + n) e) : Grown sized h h' key j e := by
  have notEnd : sized.row key j ≠ sized.row key e :=
    (row_ne_of_lt (by omega) inside).symm
  -- the rest of the walk does not touch the copy just counted
  have kept : (h'.t (sized.row key j)).multiplier =
      (h.t (sized.row key j)).multiplier + 1 := by
    rcases grown.multipliers _ notEnd with same | ⟨i, low, high, row, -⟩
    · rw [same, counted]
    · exact absurd row.symm (row_ne_of_lt (by omega) (by omega))
  refine ⟨grown.setup.trans setup, by rw [grown.occupied, occupied], grown.new, ?_, ?_, ?_⟩
  · intro r differs
    rw [grown.keys r differs]
    by_cases here : r = sized.row key j
    · rw [here, counted]
    · rw [others r here]
  · intro r differs
    by_cases here : r = sized.row key j
    · subst here
      exact .inr ⟨j, le_refl _, by omega, rfl, isCopy, kept⟩
    · rcases grown.multipliers r differs with same | ⟨i, low, high, row, copy, counted'⟩
      · rw [others r here] at same
        exact .inl same
      · rw [view_congr (others r here)] at copy
        rw [others r here] at counted'
        exact .inr ⟨i, by omega, high, row, copy, counted'⟩
  · intro i low high here before
    rcases lt_or_eq_of_le low with less | rfl
    · exact absurd isCopy (before j (le_refl _) less)
    · exact kept

theorem addLoop_grown (inside : e < noRows) (turns : Nat) :
    ∀ j h, h.noRows = noRows → h.inputBuffer = key →
      h.forCountOnly = false → j ≤ e → e < j + turns →
      h.view (sized.row key e) = none →
      (∀ i, j ≤ i → i < e → h.view (sized.row key i) ≠ none) →
      (∀ i, j ≤ i → i < e → h.view (sized.row key i) = some key →
        i + (h.t (sized.row key i)).multiplier ≤ e) →
      ∃ h', addLoop (iterateStep key) (sized.row key 0) turns
          (sized.row key j) h = some (some (sized.row key e), h') ∧
        Grown sized h h' key j e := by
  induction turns with
  | zero =>
    intro j h _ _ _ le enough
    omega
  | succ turns ih =>
    intro j h size buffer tuples le enough empty taken jumps
    rcases lt_or_eq_of_le le with less | rfl
    · have occupied : (h.t (sized.row key j)).multiplier ≠ 0 :=
        fun zero => taken j (le_refl _) less (view_eq_none_iff.mpr zero)
      by_cases isKey : (h.t (sized.row key j)).key = h.inputBuffer
      · have copy : h.view (sized.row key j) = some key :=
          view_eq_some_iff.mpr ⟨occupied, isKey.trans buffer⟩
        have jump := jumps j (le_refl _) less copy
        obtain ⟨n, multiplier⟩ : ∃ n, (h.t (sized.row key j)).multiplier = n := ⟨_, rfl⟩
        rw [multiplier] at jump occupied
        -- the table after this copy is counted
        obtain ⟨h₁, counted⟩ : ∃ h₁, (h.countOnce (sized.row key j)).noteConflicts
          (n + 1) = h₁ := ⟨_, rfl⟩
        have setup : h₁.setup = h.setup := by
          rw [← counted, (noteConflicts_frame ..).1]
          rfl
        have others : ∀ r ≠ sized.row key j, h₁.t r = h.t r := by
          intro r differs
          rw [← counted, (noteConflicts_frame ..).2.1, t_countOnce_of_ne h differs]
        have ahead : ∀ i, j + n ≤ i → i ≤ e →
            h₁.t (sized.row key i) = h.t (sized.row key i) :=
          fun i low high => others _ (row_ne_of_lt (by omega) (by omega))
        obtain ⟨h', result, grown⟩ := ih (j + n) h₁ ((noRows_of_setup setup).trans size)
          (by rw [← counted, (noteConflicts_frame ..).2.2.1]; exact buffer)
          ((forCountOnly_of_setup setup).trans tuples) jump (by omega)
          (by rw [view_congr (ahead e jump (le_refl _))]; exact empty)
          (fun i low high => by
            rw [view_congr (ahead i low high.le)]
            exact taken i (by omega) high)
          (fun i low high here => by
            rw [view_congr (ahead i low high.le)] at here
            rw [ahead i low high.le]
            exact jumps i (by omega) high here)
        refine ⟨h', ?_, grown.of_copy copy (by omega) jump inside setup ?_ ?_ others⟩
        · rw [addLoop, multiplier]
          dsimp only
          rw [if_pos occupied, if_pos isKey, counted, noRows_of_setup setup, size,
            advance_row sized, if_neg (row_ne_start sized key (by omega) (by omega))]
          have notCounting : (h.countOnce (sized.row key j)).forCountOnly ≠ true := by
            show h.forCountOnly ≠ true
            rw [tuples]
            exact Bool.false_ne_true
          rw [if_neg notCounting]
          exact result
        · rw [← counted, (noteConflicts_frame ..).2.2.2]
          rfl
        · rw [← counted, (noteConflicts_frame ..).2.1, t_countOnce_self]
      · have other : h.view (sized.row key j) ≠ some key :=
          fun here => isKey ((view_eq_some_iff.mp here).2.trans buffer.symm)
        obtain ⟨h', result, grown⟩ := ih (j + 1) h size buffer tuples less (by omega) empty
          (fun i low => taken i (by omega)) (fun i low => jumps i (by omega))
        refine ⟨h', ?_, grown.of_other other⟩
        rw [addLoop]
        rw [if_pos occupied, if_neg isKey, size, advance_row_one sized,
          if_neg (row_ne_start sized key (by omega) (by omega))]
        exact result
    · refine ⟨_, ?_, grown_occupy sized buffer j⟩
      rw [addLoop]
      rw [if_neg (not_not.mpr (view_eq_none_iff.mp empty))]

end

/-! ## Tables with tuple columns -/

def rowsOf (insertions : List (Bytes × Nat)) (key : Bytes) : List Nat :=
  (insertions.filter (·.1 = key)).map Prod.snd

theorem mem_rowsOf {insertions : List (Bytes × Nat)} {key : Bytes} :
    row ∈ rowsOf insertions key ↔ (key, row) ∈ insertions := by
  simp [rowsOf]

theorem rowsOf_cons_self (insertions : List (Bytes × Nat)) (key : Bytes) (row : Nat) :
    rowsOf ((key, row) :: insertions) key = row :: rowsOf insertions key := by
  simp [rowsOf]

theorem rowsOf_cons_of_ne (insertions : List (Bytes × Nat)) {key other : Bytes} (row : Nat)
    (differs : other ≠ key) : rowsOf ((other, row) :: insertions) key = rowsOf insertions key := by
  simp [rowsOf, differs]

section
variable {noRows : Nat} (sized : WellSized noRows)

/-- The table after the insertions given, the last one first. -/
structure Chained (h : JoinerHashTable) (insertions : List (Bytes × Nat)) : Prop where
  tuples : h.forCountOnly = false
  size : h.noRows = noRows
  occupied : h.noOfOccupied = insertions.length
  nodup : (insertions.map Prod.snd).Nodup
  inside : ∀ key row, (key, row) ∈ insertions → row < noRows
  held : ∀ row < noRows, ∀ key, h.view row = some key ↔ (key, row) ∈ insertions
  /-- A key stands before the first empty row of its walk. -/
  walk : ∀ key row, (key, row) ∈ insertions →
    ∃ j < noRows, row = (layout sized).row key j ∧
      ∀ i < j, h.view ((layout sized).row key i) ≠ none
  /-- A jump from a copy passes only rows that are taken. -/
  jumps : ∀ key, ∀ j < noRows, h.view ((layout sized).row key j) = some key →
    ∀ n < (h.t ((layout sized).row key j)).multiplier,
      h.view ((layout sized).row key (j + n)) ≠ none
  first : ∀ key, ∀ j < noRows, h.view ((layout sized).row key j) = some key →
    (∀ i < j, h.view ((layout sized).row key i) ≠ some key) →
    (h.t ((layout sized).row key j)).multiplier = (rowsOf insertions key).length

variable {sized} {h : JoinerHashTable} {insertions : List (Bytes × Nat)}

theorem Chained.putKey (chained : Chained sized h insertions) (key : Bytes) :
    Chained sized (h.putKey key) insertions :=
  { chained with }

variable (sized) in
theorem exists_first_empty {view : Nat → Option Bytes} {row : Nat} (inside : row < noRows)
    (empty : view row = none) (key : Bytes) :
    ∃ e < noRows, view (sized.row key e) = none ∧
      ∀ i < e, view (sized.row key i) ≠ none := by
  obtain ⟨j, small, rfl⟩ := (layout sized).covers key inside
  have stops : ∃ i, view (sized.row key i) = none := ⟨j, empty⟩
  refine ⟨Nat.find stops, ?_, Nat.find_spec stops, fun i less => Nat.find_min stops less⟩
  exact (Nat.find_min' stops empty).trans_lt small

theorem Chained.exists_empty (chained : Chained sized h insertions)
    (room : insertions.length < noRows) : ∃ row < noRows, h.view row = none := by
  by_contra full
  push Not at full
  have all : range noRows ⊆ insertions.map Prod.snd := by
    intro row mem
    have inside := mem_range.mp mem
    obtain ⟨key, here⟩ := ne_none_iff_exists'.mp (full row inside)
    exact mem_map.mpr ⟨(key, row), (chained.held row inside key).mp here, rfl⟩
  have rows := (subperm_of_subset nodup_range all).length_le
  rw [length_range, length_map] at rows
  omega

section
variable {h' : JoinerHashTable} {key : Bytes} {j e : Nat} (grown : Grown sized h h' key j e)
include grown

theorem Grown.view_eq {row : Nat} (differs : row ≠ sized.row key e) :
    h'.view row = h.view row := by
  rw [view, view, grown.keys row differs]
  rcases grown.multipliers row differs with same | ⟨i, -, -, -, here, more⟩
  · rw [same]
  · rw [if_neg (by omega), if_neg (view_eq_some_iff.mp here).1]

theorem Grown.view_end : h'.view (sized.row key e) = some key := by
  rw [view, grown.new]
  rfl

theorem Grown.taken {row : Nat} (taken : h.view row ≠ none) : h'.view row ≠ none := by
  by_cases here : row = sized.row key e
  · rw [here, grown.view_end]
    exact some_ne_none key
  · rwa [grown.view_eq here]

end

section
variable {h' : JoinerHashTable} {key : Bytes} {e : Nat}

section
variable (chained : Chained sized h insertions)
include chained

theorem Chained.fresh (empty : h.view (sized.row key e) = none) (other : Bytes) :
    (other, sized.row key e) ∉ insertions := by
  intro mem
  have here := (chained.held _ ((layout sized).row_lt key e) other).mpr mem
  rw [empty] at here
  cases here

theorem Chained.index_lt (empty : h.view (sized.row key e) = none) {j : Nat}
    (small : j < noRows) (here : h.view (sized.row key j) = some key) : j < e := by
  have old := (chained.held _ ((layout sized).row_lt key j) key).mp here
  obtain ⟨i, smaller, isRow, taken⟩ := chained.walk key _ old
  obtain rfl := index_eq small smaller isRow
  rcases lt_trichotomy j e with less | same | more
  · exact less
  · rw [same, empty] at here
    cases here
  · exact absurd empty (taken e more)

theorem Chained.jumps_grown (inside : e < noRows)
    (before : ∀ i < e, h.view (sized.row key i) ≠ none)
    (jumps : ∀ i < e, h.view (sized.row key i) = some key →
      i + (h.t (sized.row key i)).multiplier ≤ e)
    (grown : Grown sized h h' key 0 e) {other : Bytes} {j : Nat} (small : j < noRows)
    (here : h'.view (sized.row other j) = some other) {n : Nat}
    (less : n < (h'.t (sized.row other j)).multiplier) :
    h'.view (sized.row other (j + n)) ≠ none := by
  by_cases isEnd : sized.row other j = sized.row key e
  · rw [isEnd, grown.new] at less
    have zero : n = 0 := lt_one_iff.mp less
    rw [zero, add_zero, here]
    exact some_ne_none other
  · rw [grown.view_eq isEnd] at here
    rcases grown.multipliers _ isEnd with same | ⟨i, -, high, row, isKey, more⟩
    · rw [same] at less
      exact grown.taken (chained.jumps other j small here n less)
    · -- a copy of the inserted key: its jump now reaches one row further
      rw [here] at isKey
      cases isKey
      obtain rfl := index_eq small (by omega) row
      have reach := jumps j high here
      rcases lt_or_ge n (h.t (sized.row key j)).multiplier with old | new
      · exact grown.taken (chained.jumps key j small here n old)
      · rcases lt_or_eq_of_le (show j + n ≤ e by omega) with lt | same
        · exact grown.taken (before _ lt)
        · rw [same, grown.view_end]
          exact some_ne_none key

section
variable (inside : e < noRows) (empty : h.view ((layout sized).row key e) = none)
include inside empty

theorem Chained.absent_of_first (grown : Grown sized h h' key 0 e)
    (before : ∀ i < e, h'.view (sized.row key i) ≠ some key) :
    rowsOf insertions key = [] := by
  refine eq_nil_iff_forall_not_mem.mpr fun row mem => ?_
  have old := mem_rowsOf.mp mem
  obtain ⟨i, small, rfl, -⟩ := chained.walk key row old
  have copy := (chained.held _ ((layout sized).row_lt key i) key).mpr old
  have less := chained.index_lt empty small copy
  refine before i less ?_
  rw [grown.view_eq (row_ne_of_lt less inside).symm, copy]

theorem Chained.first_grown (grown : Grown sized h h' key 0 e) {other : Bytes} {j : Nat}
    (small : j < noRows) (here : h'.view (sized.row other j) = some other)
    (before : ∀ i < j, h'.view (sized.row other i) ≠ some other) :
    (h'.t (sized.row other j)).multiplier =
      (rowsOf ((key, sized.row key e) :: insertions) other).length := by
  by_cases isEnd : sized.row other j = sized.row key e
  · rw [isEnd, grown.view_end] at here
    cases here
    obtain rfl := index_eq small inside isEnd
    rw [grown.new, rowsOf_cons_self, chained.absent_of_first inside empty grown before]
    rfl
  · rw [grown.view_eq isEnd] at here
    have firstCopy : ∀ i < j, h.view (sized.row other i) ≠ some other := by
      intro i less copy
      refine before i less ?_
      rwa [grown.view_eq]
      intro isRow
      rw [isRow, empty] at copy
      cases copy
    have counted := chained.first other j small here firstCopy
    by_cases same : key = other
    · subst same
      have less := chained.index_lt empty small here
      rw [grown.first j (zero_le _) less here fun i _ => firstCopy i, counted,
        rowsOf_cons_self, length_cons]
    · rw [rowsOf_cons_of_ne _ _ same, ← counted]
      rcases grown.multipliers _ isEnd with unchanged | ⟨-, -, -, -, isKey, -⟩
      · exact unchanged
      · rw [here] at isKey
        exact absurd (some.inj isKey).symm same

theorem Chained.grown (before : ∀ i < e, h.view (sized.row key i) ≠ none)
    (jumps : ∀ i < e, h.view (sized.row key i) = some key →
      i + (h.t (sized.row key i)).multiplier ≤ e) (grown : Grown sized h h' key 0 e) :
    Chained sized h' ((key, sized.row key e) :: insertions) where
  tuples := (forCountOnly_of_setup grown.setup).trans chained.tuples
  size := (noRows_of_setup grown.setup).trans chained.size
  occupied := by rw [grown.occupied, chained.occupied, length_cons]
  nodup := by
    refine nodup_cons.mpr ⟨fun mem => ?_, chained.nodup⟩
    obtain ⟨⟨other, row⟩, isIn, rfl⟩ := mem_map.mp mem
    exact chained.fresh empty other isIn
  inside := by
    intro other row mem
    rcases mem_cons.mp mem with same | old
    · cases same
      exact (layout sized).row_lt key e
    · exact chained.inside other row old
  held := by
    intro row small other
    by_cases here : row = sized.row key e
    · subst here
      rw [grown.view_end, mem_cons, some.injEq]
      refine ⟨fun same => .inl (by rw [same]), fun mem => ?_⟩
      rcases mem with same | old
      · exact (congrArg Prod.fst same).symm
      · exact absurd old (chained.fresh empty other)
    · rw [grown.view_eq here, chained.held row small other, mem_cons]
      exact ⟨Or.inr, fun mem => mem.resolve_left fun same => here (congrArg Prod.snd same)⟩
  walk := by
    intro other row mem
    rcases mem_cons.mp mem with same | old
    · cases same
      exact ⟨e, inside, rfl, fun i less => grown.taken (before i less)⟩
    · obtain ⟨j, small, isRow, before'⟩ := chained.walk other row old
      exact ⟨j, small, isRow, fun i less => grown.taken (before' i less)⟩
  jumps := fun _ _ small here _ less =>
    chained.jumps_grown inside before jumps grown small here less
  first := fun _ _ small here before' =>
    chained.first_grown inside empty grown small here before'

end

end

end

theorem Chained.insert (chained : Chained sized h insertions) (key : Bytes)
    (buffer : h.inputBuffer = key) (room : insertions.length < noRows) :
    ∃ row h', addLoop (iterateStep key) (crcCode key % noRows) noRows (crcCode key % noRows) h =
        some (some row, h') ∧ h'.setup = h.setup ∧
      Chained sized h' ((key, row) :: insertions) := by
  obtain ⟨row, inside, isEmpty⟩ := chained.exists_empty room
  obtain ⟨e, small, empty, before⟩ := exists_first_empty sized inside isEmpty key
  have jumps : ∀ i < e, h.view (sized.row key i) = some key →
      i + (h.t (sized.row key i)).multiplier ≤ e := by
    intro i less here
    by_contra far
    have passed := chained.jumps key i (by omega) here (e - i)
      (show _ < (h.t (sized.row key i)).multiplier by omega)
    rw [Nat.add_sub_cancel' less.le] at passed
    exact passed empty
  obtain ⟨h', result, grown⟩ := addLoop_grown small noRows 0 h chained.size buffer chained.tuples
    (zero_le _) (by omega) empty (fun i _ => before i) (fun i _ => jumps i)
  rw [WellSized.row, (layout sized).row_zero] at result
  exact ⟨_, h', result, grown.setup, chained.grown small empty before jumps grown⟩

end

end JoinerHashTable

end Brighthouse.Core
