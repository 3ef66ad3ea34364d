import Brighthouse.Library.Probing

/-!
# A hash set of 64-bit values

Functional model of `Hash64` (`core/bintools.h`).  Rows of the table that hold `0` are
empty, and the value `0` has a flag of its own.  The endless loops of `Find` and
`Insert` get a number of turns here, and return `none` when it is used up; the size of
the table is always enough.
-/

set_option autoImplicit false

namespace Brighthouse.Core

open Library.Probing List Function Nat

variable {bits : Nat} {values : List (BitVec 64)}

structure Hash64 where
  t : Nat → BitVec 64
  addressMask : Nat
  zeroInserted : Bool

namespace Hash64

def stepsMask : BitVec 64 := 0x1F#64

def steps : List Nat :=
  [1, 5, 7, 11, 13, 17, 19, 23, 29, 31, 37, 41, 43, 47, 53, 59,
   71, 73, 79, 83, 89, 97, 101, 103, 107, 109, 113, 127, 131, 137, 139, 149]

/-- `for(size = 4; size < set_size + 2; size <<= 1);` -/
def double (setSize : Nat) : Nat → Nat → Nat
  | 0, size => size
  | turns + 1, size => if size < setSize + 2 then double setSize turns (size <<< 1) else size

def new (setSize : Nat) : Hash64 where
  t := fun _ => 0#64
  addressMask := double setSize setSize 4 <<< 1 - 1
  zeroInserted := false

/-- The constructor: `size` is an `int`, and where it would overflow there is no table. -/
def construct (setSize : Nat) : Option Hash64 :=
  if double setSize setSize 4 <<< 1 < 2 ^ 31 then some (new setSize) else none

def copy (sec : Hash64) : Hash64 :=
  { sec with t := fun i => if i < sec.addressMask + 1 then sec.t i else 0#64 }

def findAddress (addressMask : Nat) (n : BitVec 64) : Nat :=
  let n := n ^^^ n <<< 17
  let n := n + n.sshiftRight 8
  let n := n ^^^ n <<< 13
  let n := n + n.sshiftRight 42
  let n := n ^^^ n <<< 33
  let n := n + n.sshiftRight 25
  n.toNat &&& addressMask

def hashStep (n : BitVec 64) : Nat :=
  let n := n ^^^ n <<< 14
  let n := n + n.sshiftRight 23
  let n := n + n.sshiftRight 33
  steps.getD (n &&& stepsMask).toNat 1

def nextRow (addressMask s i : Nat) : Nat := (i + s) &&& addressMask

def findLoop (h : Hash64) (n : BitVec 64) (s : Nat) : Nat → Nat → Option Bool
  | 0, _ => none
  | turns + 1, i =>
    let i := nextRow h.addressMask s i
    if h.t i = n then some true
    else if h.t i = 0#64 then some false
    else findLoop h n s turns i

variable (h : Hash64)

def find (n : BitVec 64) : Option Bool :=
  if n = 0#64 then some h.zeroInserted
  else
    let i := findAddress h.addressMask n
    if h.t i = n then some true
    else if h.t i = 0#64 then some false
    else findLoop h n (hashStep n) (h.addressMask + 1) i

def store (i : Nat) (n : BitVec 64) : Hash64 :=
  { h with t := Function.update h.t i n }

def insertLoop (h : Hash64) (n : BitVec 64) (s : Nat) : Nat → Nat → Option Hash64
  | 0, _ => none
  | turns + 1, i =>
    let i := nextRow h.addressMask s i
    if h.t i = 0#64 then some (h.store i n)
    else if h.t i = n then some h
    else insertLoop h n s turns i

def insert (n : BitVec 64) : Option Hash64 :=
  if n = 0#64 then some { h with zeroInserted := true }
  else
    let i := findAddress h.addressMask n
    if h.t i = 0#64 then some (h.store i n)
    else if h.t i = n then some h
    else insertLoop h n (hashStep n) (h.addressMask + 1) i

def insertAll : Hash64 → List (BitVec 64) → Option Hash64
  | h, [] => some h
  | h, n :: rest => do
      let h ← h.insert n
      insertAll h rest

/-! ## The loops are searches -/

def view (t : Nat → BitVec 64) (r : Nat) : Option (BitVec 64) :=
  if t r = 0#64 then none else some (t r)

section
variable {t : Nat → BitVec 64} {r : Nat} {n : BitVec 64}

theorem view_eq_none_iff : view t r = none ↔ t r = 0#64 := by
  unfold view
  split
  · next empty => simp [empty]
  · next filled => simp [filled]

theorem view_eq_some_iff (nonZero : n ≠ 0#64) : view t r = some n ↔ t r = n := by
  unfold view
  split
  · next empty => simp [empty, symm nonZero]
  · simp

theorem blocked_iff (nonZero : n ≠ 0#64) : Blocked (view t) n r ↔ t r ≠ 0#64 ∧ t r ≠ n := by
  rw [Blocked, Ne, Ne, view_eq_none_iff, view_eq_some_iff nonZero]

theorem view_update (nonZero : n ≠ 0#64) : view (update t r n) = update (view t) r (some n) := by
  funext i
  by_cases here : i = r
  · subst here
    rw [update_self, view_eq_some_iff nonZero, update_self]
  · rw [update_of_ne here, view, view, update_of_ne here]

end

/-- The search that both loops make, from row `i` on. -/
def rowFrom (n : BitVec 64) (turns i : Nat) : Option Nat :=
  search (view h.t) (nextRow h.addressMask (hashStep n)) n turns i

def answerAt (n : BitVec 64) (r : Nat) : Bool := h.t r == n

def storeAt (n : BitVec 64) (r : Nat) : Hash64 :=
  if h.t r = 0#64 then h.store r n else h

section
variable (h : Hash64) {n : BitVec 64} (nonZero : n ≠ 0#64)
include nonZero

theorem rowFrom_find (turns i : Nat) :
    (rowFrom h n (turns + 1) i).map (h.answerAt n) =
      if h.t i = n then some true
      else if h.t i = 0#64 then some false
      else (rowFrom h n turns (nextRow h.addressMask (hashStep n) i)).map (h.answerAt n) := by
  unfold rowFrom
  rw [search]
  by_cases same : h.t i = n
  · rw [if_neg (by simp [blocked_iff nonZero, same])]
    simp [answerAt, same]
  · by_cases empty : h.t i = 0#64
    · rw [if_pos empty, if_neg (by simp [blocked_iff nonZero, empty])]
      simp [answerAt, same]
    · rw [if_neg same, if_neg empty, if_pos ((blocked_iff nonZero).mpr ⟨empty, same⟩)]

theorem rowFrom_insert (turns i : Nat) :
    (rowFrom h n (turns + 1) i).map (h.storeAt n) =
      if h.t i = 0#64 then some (h.store i n)
      else if h.t i = n then some h
      else (rowFrom h n turns (nextRow h.addressMask (hashStep n) i)).map (h.storeAt n) := by
  unfold rowFrom
  rw [search]
  by_cases empty : h.t i = 0#64
  · rw [if_neg (by simp [blocked_iff nonZero, empty])]
    simp [storeAt, empty]
  · by_cases same : h.t i = n
    · rw [if_pos same, if_neg (by simp [blocked_iff nonZero, same])]
      simp [storeAt, empty]
    · rw [if_neg empty, if_neg same, if_pos ((blocked_iff nonZero).mpr ⟨empty, same⟩)]

theorem findLoop_eq (turns i : Nat) :
    findLoop h n (hashStep n) turns i =
      (rowFrom h n turns (nextRow h.addressMask (hashStep n) i)).map (h.answerAt n) := by
  induction turns generalizing i with
  | zero => rfl
  | succ turns ih =>
    rw [rowFrom_find h nonZero, findLoop]
    simp only [ih]

theorem insertLoop_eq (turns i : Nat) :
    insertLoop h n (hashStep n) turns i =
      (rowFrom h n turns (nextRow h.addressMask (hashStep n) i)).map (h.storeAt n) := by
  induction turns generalizing i with
  | zero => rfl
  | succ turns ih =>
    rw [rowFrom_insert h nonZero, insertLoop]
    simp only [ih]

theorem find_eq : h.find n =
    (rowFrom h n (h.addressMask + 2) (findAddress h.addressMask n)).map (h.answerAt n) := by
  rw [rowFrom_find h nonZero, find, if_neg nonZero]
  simp only [findLoop_eq h nonZero]

theorem insert_eq : h.insert n =
    (rowFrom h n (h.addressMask + 2) (findAddress h.addressMask n)).map (h.storeAt n) := by
  rw [rowFrom_insert h nonZero, insert, if_neg nonZero]
  simp only [insertLoop_eq h nonZero]

end

/-! ## The set that a table holds -/

theorem odd_hashStep (n : BitVec 64) : Nat.Coprime (hashStep n) 2 := by
  have all : ∀ i, Nat.Coprime (steps.getD i 1) 2 := by
    intro i
    by_cases inside : i < steps.length
    · have each : ∀ i < steps.length, Nat.Coprime (steps.getD i 1) 2 := by decide
      exact each i inside
    · rw [getD_eq_getElem?_getD, getElem?_eq_none (not_lt.mp inside)]
      exact coprime_one_left 2
  exact all _

/-- Tables have `2 ^ bits` rows. -/
def layout (bits : Nat) : Layout (BitVec 64) where
  size := 2 ^ bits
  home := findAddress (2 ^ bits - 1)
  step := hashStep
  home_lt := fun n => by
    have le : findAddress (2 ^ bits - 1) n ≤ 2 ^ bits - 1 := Nat.and_le_right
    have pos := Nat.two_pow_pos bits
    omega
  coprime := fun n => (odd_hashStep n).pow_right bits

theorem nextRow_row (bits : Nat) (n : BitVec 64) (j : Nat) :
    nextRow (2 ^ bits - 1) (hashStep n) ((layout bits).row n j) = (layout bits).row n (j + 1) := by
  rw [nextRow, and_two_pow_sub_one_eq_mod, Layout.row_succ]
  rfl

structure Represents (h : Hash64) (bits : Nat) (values : List (BitVec 64)) : Prop where
  mask : h.addressMask = 2 ^ bits - 1
  holds : Holds (layout bits) (view h.t) (values.filter (· ≠ 0#64))
  zero : h.zeroInserted = decide (0#64 ∈ values)

section
variable {h : Hash64} (represents : Represents h bits values) (room : values.length < 2 ^ bits)
include represents room

theorem Represents.search {n : BitVec 64} (nonZero : n ≠ 0#64) :
    ∃ j, (∀ i < j, Blocked (view h.t) n ((layout bits).row n i)) ∧
      rowFrom h n (h.addressMask + 2) (findAddress h.addressMask n) =
        some ((layout bits).row n j) ∧
      view h.t ((layout bits).row n j) = if n ∈ values then some n else none := by
  have fewer : (values.filter (· ≠ 0#64)).length < (layout bits).size :=
    (length_filter_le _ _).trans_lt room
  have turns : (layout bits).size ≤ h.addressMask + 2 := by
    have size : (layout bits).size = 2 ^ bits := rfl
    rw [represents.mask]
    omega
  obtain ⟨j, before, found, here⟩ := represents.holds.search fewer n (nextRow_row bits n) turns
  refine ⟨j, before, ?_, ?_⟩
  · rw [rowFrom, represents.mask] at *
    exact found
  · rw [here]
    exact if_congr (by simp [nonZero]) rfl rfl

theorem Represents.find (n : BitVec 64) : h.find n = some (decide (n ∈ values)) := by
  by_cases isZero : n = 0#64
  · rw [Hash64.find, if_pos isZero, represents.zero, isZero]
  · obtain ⟨j, -, found, here⟩ := represents.search room isZero
    rw [find_eq h isZero, found, Option.map_some, answerAt]
    congr 1
    rw [Bool.eq_iff_iff, beq_iff_eq, ← view_eq_some_iff isZero, here]
    split <;> simp [*]

theorem Represents.insert (n : BitVec 64) :
    ∃ h', h.insert n = some h' ∧ Represents h' bits (n :: values) := by
  by_cases isZero : n = 0#64
  · subst isZero
    refine ⟨{ h with zeroInserted := true }, rfl, represents.mask, ?_, by simp⟩
    exact represents.holds
  · obtain ⟨j, before, found, here⟩ := represents.search room isZero
    refine ⟨h.storeAt n ((layout bits).row n j), by rw [insert_eq h isZero, found]; rfl, ?_⟩
    have inserted := represents.holds.insert before (n := j) (by simpa [isZero] using here)
    have table : view (h.storeAt n ((layout bits).row n j)).t =
        update (view h.t) ((layout bits).row n j) (some n) := by
      unfold storeAt
      split
      · rw [store, view_update isZero]
      · next filled =>
          have same : view h.t ((layout bits).row n j) = some n := by
            rw [here, if_pos]
            by_contra absent
            rw [if_neg absent, view_eq_none_iff] at here
            exact filled here
          rw [← same, update_eq_self]
    refine ⟨?_, ?_, ?_⟩
    · unfold storeAt
      split <;> exact represents.mask
    · rw [table]
      simpa [isZero] using inserted
    · have flag : (h.storeAt n ((layout bits).row n j)).zeroInserted = h.zeroInserted := by
        unfold storeAt
        split <;> rfl
      rw [flag, represents.zero]
      simp [Ne.symm isZero]

end

theorem Represents.insertAll (more : List (BitVec 64)) :
    ∀ {h values}, Represents h bits values →
      values.length + more.length < 2 ^ bits →
      ∃ h', h.insertAll more = some h' ∧ Represents h' bits (more.reverse ++ values) := by
  induction more with
  | nil =>
    intro h values represents _
    exact ⟨h, rfl, represents⟩
  | cons n more ih =>
    intro h values represents room
    rw [length_cons] at room
    obtain ⟨next, inserted, representsNext⟩ := represents.insert (by omega) n
    obtain ⟨last, rest, representsLast⟩ := ih representsNext (by rw [length_cons]; omega)
    refine ⟨last, ?_, ?_⟩
    · rw [Hash64.insertAll, inserted]
      exact rest
    · rwa [reverse_cons, append_assoc]

theorem double_spec (setSize turns : Nat) :
    ∀ k, setSize + 2 ≤ 2 ^ (k + turns) →
      ∃ bits, double setSize turns (2 ^ k) = 2 ^ bits ∧ setSize + 2 ≤ 2 ^ bits ∧
        (bits = k ∨ 2 ^ bits < 2 * (setSize + 2)) := by
  induction turns with
  | zero =>
    intro k enough
    exact ⟨k, rfl, enough, .inl rfl⟩
  | succ turns ih =>
    intro k enough
    rw [double]
    split
    · next small =>
        have next : 2 ^ k <<< 1 = 2 ^ (k + 1) := by rw [shiftLeft_eq, ← pow_add]
        rw [next]
        obtain ⟨bits, size, large, least⟩ := ih (k + 1) (by rwa [add_right_comm])
        refine ⟨bits, size, large, .inr ?_⟩
        obtain rfl | least := least
        · rw [pow_succ]
          omega
        · exact least
    · next large => exact ⟨k, rfl, not_lt.mp large, .inl rfl⟩

theorem double_new (setSize : Nat) :
    ∃ bits, double setSize setSize 4 <<< 1 = 2 ^ (bits + 1) ∧ setSize + 2 ≤ 2 ^ bits ∧
      (bits = 2 ∨ 2 ^ bits < 2 * (setSize + 2)) := by
  have enough : setSize + 2 ≤ 2 ^ (2 + setSize) := by
    have grows := Nat.lt_two_pow_self (n := setSize)
    rw [pow_add]
    omega
  obtain ⟨bits, size, large, least⟩ := double_spec setSize setSize 2 enough
  exact ⟨bits, by rw [show 4 = 2 ^ 2 from rfl, size, shiftLeft_eq, ← pow_add], large, least⟩

/-- Larger tables would need `2 ^ 31` rows. -/
theorem construct_eq (setSize : Nat) :
    construct setSize = if setSize ≤ 536870910 then some (new setSize) else none := by
  obtain ⟨bits, size, large, least⟩ := double_new setSize
  rw [construct, size]
  refine if_congr ?_ rfl rfl
  rw [Nat.pow_lt_pow_iff_right one_lt_two]
  constructor
  · intro few
    have le : 2 ^ bits ≤ 2 ^ 29 := Nat.pow_le_pow_right two_pos (by omega)
    omega
  · intro small
    obtain rfl | least := least
    · decide
    · have lt : 2 ^ bits < 2 ^ 30 := by omega
      rw [Nat.pow_lt_pow_iff_right one_lt_two] at lt
      omega

theorem represents_new (setSize : Nat) :
    ∃ bits, Represents (new setSize) bits [] ∧ setSize < 2 ^ bits := by
  obtain ⟨bits, twice, large, -⟩ := double_new setSize
  refine ⟨bits + 1, ⟨by rw [new, twice], ?_, rfl⟩, by rw [pow_succ]; omega⟩
  exact holds_nil _

theorem find_insertAll {setSize : Nat} (few : values.length ≤ setSize) :
    ∃ h, (new setSize).insertAll values = some h ∧
      ∀ n, h.find n = some (decide (n ∈ values)) := by
  obtain ⟨bits, start, room⟩ := represents_new setSize
  obtain ⟨h, inserted, represents⟩ := start.insertAll values (by rw [length_nil]; omega)
  refine ⟨h, inserted, fun n => ?_⟩
  rw [represents.find (by simp; omega)]
  simp

/-! ## Copies -/

theorem copy_t (h : Hash64) {i : Nat} (inside : i ≤ h.addressMask) : h.copy.t i = h.t i :=
  if_pos (lt_succ_of_le inside)

theorem findLoop_copy (h : Hash64) (n : BitVec 64) (s turns i : Nat) :
    h.copy.findLoop n s turns i = h.findLoop n s turns i := by
  induction turns generalizing i with
  | zero => rfl
  | succ turns ih =>
    have same : h.copy.t (nextRow h.addressMask s i) = h.t (nextRow h.addressMask s i) :=
      h.copy_t and_le_right
    simp only [findLoop, ih]
    rw [show h.copy.addressMask = h.addressMask from rfl, same]

theorem find_copy (h : Hash64) (n : BitVec 64) : h.copy.find n = h.find n := by
  have same : h.copy.t (findAddress h.addressMask n) = h.t (findAddress h.addressMask n) :=
    h.copy_t and_le_right
  simp only [find, findLoop_copy]
  rw [show h.copy.addressMask = h.addressMask from rfl, same]
  rfl

/-- A table made for `setSize` values: with at most so many insertions, each of them ends, and
each search ends and finds exactly what was inserted, also in a copy. -/
def IsSet (setSize : Nat) : Prop :=
  ∀ values : List (BitVec 64), values.length ≤ setSize →
    ∃ made h, construct setSize = some made ∧ made.insertAll values = some h ∧
      ∀ n, h.find n = some (decide (n ∈ values)) ∧ h.copy.find n = some (decide (n ∈ values))

theorem hash64_isSet_iff (setSize : Nat) : IsSet setSize ↔ setSize ≤ 536870910 := by
  constructor
  · intro isSet
    obtain ⟨made, -, isMade, -⟩ := isSet [] (Nat.zero_le _)
    rw [construct_eq, Option.ite_none_right_eq_some] at isMade
    exact isMade.1
  · intro small values few
    obtain ⟨h, inserted, finds⟩ := find_insertAll few
    exact ⟨new setSize, h, by rw [construct_eq, if_pos small], inserted,
      fun n => ⟨finds n, (h.find_copy n).trans (finds n)⟩⟩

theorem construct_too_large : construct 536870911 = none ∧ ¬IsSet 536870911 := by
  have none : construct 536870911 = none := by rw [construct_eq, if_neg (by decide)]
  refine ⟨none, fun isSet => ?_⟩
  obtain ⟨made, -, isMade, -⟩ := isSet [] (Nat.zero_le _)
  rw [none] at isMade
  cases isMade

end Hash64

end Brighthouse.Core
