import Mathlib

/-!
# Open addressing with a step for each key

A key is looked for at its home row and then `step` rows further on, around the table,
until a row is empty or holds the key.  Steps are prime to the size of the table, so a
key's walk passes every row.  What the rows hold is given by a view of the table, so that
a program may store its keys in any form.
-/

set_option autoImplicit false

namespace Brighthouse.Library.Probing

open Function Nat List Finset

/-- Where the rows of each key are. -/
structure Layout (κ : Type) where
  size : Nat
  home : κ → Nat
  step : κ → Nat
  home_lt : ∀ k, home k < size
  coprime : ∀ k, Nat.Coprime (step k) size

section
variable {κ : Type}

def Layout.row (layout : Layout κ) (k : κ) (j : Nat) : Nat :=
  (layout.home k + j * layout.step k) % layout.size

def Blocked (view : Nat → Option κ) (k : κ) (row : Nat) : Prop :=
  view row ≠ none ∧ view row ≠ some k

variable [DecidableEq κ]

instance (view : Nat → Option κ) (k : κ) (row : Nat) : Decidable (Blocked view k row) :=
  inferInstanceAs (Decidable (_ ∧ _))

/-- The first row from `row` on that does not block the key. -/
def search (view : Nat → Option κ) (next : Nat → Nat) (k : κ) : Nat → Nat → Option Nat
  | 0, _ => none
  | turns + 1, row => if Blocked view k row then search view next k turns (next row) else some row

end

/-! ## Walks -/

section
variable {κ : Type} (layout : Layout κ)

section
variable (k : κ)
include k

theorem Layout.size_pos : 0 < layout.size := (zero_le _).trans_lt (layout.home_lt k)

theorem Layout.row_lt (j : Nat) : layout.row k j < layout.size := mod_lt _ (layout.size_pos k)

@[simp]
theorem Layout.row_zero : layout.row k 0 = layout.home k := by
  rw [row, zero_mul, add_zero, mod_eq_of_lt (layout.home_lt k)]

theorem Layout.row_succ (j : Nat) :
    layout.row k (j + 1) = (layout.row k j + layout.step k) % layout.size := by
  rw [row, row, mod_add_mod, add_mul, one_mul, add_assoc]

theorem Layout.row_add (j n : Nat) :
    layout.row k (j + n) = (layout.row k j + layout.step k * n) % layout.size := by
  rw [row, row, mod_add_mod, add_mul, mul_comm n, add_assoc]

theorem Layout.row_add_size (j : Nat) : layout.row k (j + layout.size) = layout.row k j := by
  rw [layout.row_add, add_mul_mod_self_right, mod_eq_of_lt (layout.row_lt k j)]

theorem Layout.row_inj {i j : Nat} (close : j < i + layout.size) (le : i ≤ j)
    (same : layout.row k i = layout.row k j) : i = j := by
  have congruent : Nat.ModEq layout.size (i * layout.step k) (j * layout.step k) :=
    Nat.ModEq.add_left_cancel' (layout.home k) same
  have divides : layout.size ∣ j - i := by
    refine (modEq_iff_dvd' le).mp ?_
    exact Nat.ModEq.cancel_right_of_coprime (coprime_comm.mp (layout.coprime k)) congruent
  have small : j - i < layout.size := by omega
  have zero := eq_zero_of_dvd_of_lt divides small
  omega

theorem Layout.covers {r : Nat} (inside : r < layout.size) :
    ∃ j < layout.size, layout.row k j = r := by
  have home := layout.home_lt k
  obtain ⟨j, small, reaches⟩ := exists_mul_mod_eq_of_coprime
    (r + (layout.size - layout.home k)) (layout.coprime k) (layout.size_pos k).ne'
  refine ⟨j, small, ?_⟩
  have sum : layout.home k + (r + (layout.size - layout.home k)) = r + layout.size := by omega
  rw [row, mul_comm, add_mod, reaches, ← add_mod, sum, add_mod_right,
    mod_eq_of_lt inside]

section
variable {α : Type} {f : Nat → Nat → α}

/-- A loop that takes a step of the walk in every turn. -/
theorem Layout.loop_row (j d turns : Nat)
    (goesOn : ∀ i turns, j ≤ i → i < j + d →
      f (turns + 1) (layout.row k i) = f turns (layout.row k (i + 1))) :
    f (turns + d) (layout.row k j) = f turns (layout.row k (j + d)) := by
  induction d generalizing turns with
  | zero => rfl
  | succ d ih =>
    have before := ih (turns + 1) fun i turns low high => goesOn i turns low (by omega)
    rw [show turns + (d + 1) = turns + 1 + d by omega, before]
    exact goesOn (j + d) turns (by omega) (by omega)

theorem Layout.loop_reaches {n : Nat} (inside : n < layout.size)
    (goesOn : ∀ i < n, ∀ turns,
      f (turns + 1) (layout.row k i) = f turns (layout.row k (i + 1))) :
    ∃ turns, f layout.size (layout.row k 0) = f (turns + 1) (layout.row k n) := by
  have walked := layout.loop_row k (f := f) 0 n (layout.size - n - 1 + 1)
    fun i turns _ less => goesOn i (by omega) turns
  rw [show layout.size - n - 1 + 1 + n = layout.size by omega, zero_add] at walked
  exact ⟨_, walked⟩

end

end

end

section
variable {κ : Type} [DecidableEq κ] {layout : Layout κ} {view : Nat → Option κ}

theorem search_row {next : Nat → Nat} {k : κ}
    (steps : ∀ j, next (layout.row k j) = layout.row k (j + 1)) {n : Nat}
    (free : ¬Blocked view k (layout.row k n)) (before : ∀ i < n, Blocked view k (layout.row k i))
    (turns : Nat) (j : Nat) (le : j ≤ n) (enough : n < j + turns) :
    search view next k turns (layout.row k j) = some (layout.row k n) := by
  induction turns generalizing j with
  | zero => omega
  | succ turns ih =>
    rw [search]
    rcases lt_or_eq_of_le le with less | rfl
    · rw [if_pos (before j less), steps]
      exact ih (j + 1) less (by omega)
    · rw [if_neg free]

end

/-! ## Tables -/

/-- The table holds exactly the keys given, each before the first empty row of its walk. -/
structure Holds {κ : Type} (layout : Layout κ) (view : Nat → Option κ) (keys : List κ) :
    Prop where
  stored : ∀ r < layout.size, ∀ k, view r = some k →
    k ∈ keys ∧ ∃ j, r = layout.row k j ∧ ∀ i < j, Blocked view k (layout.row k i)
  present : ∀ k ∈ keys, ∃ r < layout.size, view r = some k

theorem holds_nil {κ : Type} (layout : Layout κ) : Holds layout (fun _ => none) [] where
  stored := fun _ _ _ here => by cases here
  present := fun _ absent => by cases absent

section
variable {κ : Type} {layout : Layout κ} {view : Nat → Option κ} {keys : List κ}
  (holds : Holds layout view keys)
include holds

theorem Holds.row_unique {r r' : Nat} {k : κ}
    (inside : r < layout.size) (inside' : r' < layout.size) (here : view r = some k)
    (here' : view r' = some k) : r = r' := by
  obtain ⟨-, j, rfl, before⟩ := holds.stored r inside k here
  obtain ⟨-, j', rfl, before'⟩ := holds.stored r' inside' k here'
  rcases lt_trichotomy j j' with less | rfl | more
  · exact absurd here (before' j less).2
  · rfl
  · exact absurd here' (before j' more).2

theorem Holds.exists_empty [DecidableEq κ]
    (room : keys.length < layout.size) : ∃ r < layout.size, view r = none := by
  by_contra full
  push Not at full
  have key : ∀ r < layout.size, ∃ k ∈ keys, view r = some k := by
    intro r inside
    obtain ⟨k, here⟩ := Option.ne_none_iff_exists'.mp (full r inside)
    exact ⟨k, (holds.stored r inside k here).1, here⟩
  -- different rows hold different keys
  have maps : ∀ o ∈ (Finset.range layout.size).image view, o ∈ keys.toFinset.image some := by
    intro o mem
    obtain ⟨r, inside, rfl⟩ := mem_image.mp mem
    obtain ⟨k, isKey, here⟩ := key r (Finset.mem_range.mp inside)
    exact mem_image.mpr ⟨k, mem_toFinset.mpr isKey, here.symm⟩
  have injective : Set.InjOn view (range layout.size) := by
    intro r inside r' inside' same
    have small := Finset.mem_range.mp (Finset.mem_coe.mp inside)
    have small' := Finset.mem_range.mp (Finset.mem_coe.mp inside')
    obtain ⟨k, -, here⟩ := key r small
    exact holds.row_unique small small' here (same.symm.trans here)
  have rows : layout.size ≤ keys.length := by
    calc layout.size = ((Finset.range layout.size).image view).card := by
          rw [Finset.card_image_of_injOn injective, Finset.card_range]
      _ ≤ (keys.toFinset.image some).card := card_le_card maps
      _ ≤ keys.toFinset.card := card_image_le
      _ ≤ keys.length := keys.toFinset_card_le
  omega

theorem Holds.of_mem_iff {others : List κ}
    (same : ∀ k, k ∈ keys ↔ k ∈ others) : Holds layout view others where
  stored := fun r inside k here =>
    ⟨(same k).mp (holds.stored r inside k here).1, (holds.stored r inside k here).2⟩
  present := fun k mem => holds.present k ((same k).mpr mem)

variable [DecidableEq κ]

theorem Holds.search (room : keys.length < layout.size) (k : κ)
    {next : Nat → Nat} (steps : ∀ j, next (layout.row k j) = layout.row k (j + 1)) {turns : Nat}
    (enough : layout.size ≤ turns) :
    ∃ n, (∀ i < n, Blocked view k (layout.row k i)) ∧
      search view next k turns (layout.home k) = some (layout.row k n) ∧
      view (layout.row k n) = if k ∈ keys then some k else none := by
  obtain ⟨r, inside, empty⟩ := holds.exists_empty room
  obtain ⟨m, small, reaches⟩ := layout.covers k inside
  have stops : ∃ j, ¬Blocked view k (layout.row k j) :=
    ⟨m, fun blocked => blocked.1 (by rw [reaches, empty])⟩
  have free := Nat.find_spec stops
  have before : ∀ i < Nat.find stops, Blocked view k (layout.row k i) :=
    fun i less => not_not.mp (Nat.find_min stops less)
  have soon : Nat.find stops ≤ m := Nat.find_min' stops fun blocked =>
    blocked.1 (by rw [reaches, empty])
  refine ⟨Nat.find stops, before, ?_, ?_⟩
  · rw [← layout.row_zero]
    exact search_row steps free before turns 0 (zero_le _) (by omega)
  · have ends : view (layout.row k (Nat.find stops)) = none ∨
        view (layout.row k (Nat.find stops)) = some k := by
      by_contra neither
      push Not at neither
      exact free neither
    by_cases mem : k ∈ keys
    · rw [if_pos mem]
      refine ends.resolve_left fun isEmpty => ?_
      -- the key stands on its walk with no empty row before it
      obtain ⟨r', inside', here⟩ := holds.present k mem
      obtain ⟨-, j, rfl, before'⟩ := holds.stored r' inside' k here
      rcases Nat.lt_trichotomy j (Nat.find stops) with less | same | more
      · exact (before j less).2 here
      · rw [← same, here] at isEmpty
        cases isEmpty
      · exact (before' _ more).1 isEmpty
    · rw [if_neg mem]
      refine ends.resolve_right fun here => ?_
      exact mem (holds.stored _ (layout.row_lt k _) k here).1

theorem Holds.insert {k : κ} {n : Nat} (before : ∀ i < n, Blocked view k (layout.row k i))
    (found : view (layout.row k n) = if k ∈ keys then some k else none) :
    Holds layout (update view (layout.row k n) (some k)) (k :: keys) := by
  -- the row written to was empty unless it held the key
  have fresh : ∀ {k'} {r}, Blocked view k' r → r = layout.row k n → k ≠ k' := by
    rintro k' r blocked rfl rfl
    rw [Blocked, found] at blocked
    split at blocked
    · exact blocked.2 rfl
    · exact blocked.1 rfl
  have keeps : ∀ {k'} {r}, Blocked view k' r →
      Blocked (update view (layout.row k n) (some k)) k' r := by
    intro k' r blocked
    unfold Blocked
    by_cases here : r = layout.row k n
    · rw [here, update_self]
      exact ⟨by simp, fun same => fresh blocked here (Option.some.inj same)⟩
    · rwa [update_of_ne here]
  refine ⟨fun r inside k' here => ?_, fun k' mem => ?_⟩
  · by_cases isRow : r = layout.row k n
    · rw [isRow, update_self] at here
      cases here
      exact ⟨mem_cons_self, n, isRow, fun i less => keeps (before i less)⟩
    · rw [update_of_ne isRow] at here
      obtain ⟨mem, j, place, before'⟩ := holds.stored r inside k' here
      exact ⟨mem_cons_of_mem _ mem, j, place, fun i less => keeps (before' i less)⟩
  · by_cases same : k' = k
    · exact ⟨_, layout.row_lt k n, by rw [update_self, same]⟩
    · obtain ⟨r, inside, here⟩ := holds.present k' ((mem_cons.mp mem).resolve_left same)
      refine ⟨r, inside, ?_⟩
      rw [update_of_ne, here]
      rintro rfl
      rw [found] at here
      split at here
      · exact same (Option.some.inj here).symm
      · cases here

end

end Brighthouse.Library.Probing
