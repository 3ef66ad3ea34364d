import Mathlib

/-!
# Iterators as a column sees them

What `MIUpdatingIterator` documents for the code that evaluates a condition on one dimension:
the tuples come in packrows, and for every tuple there is a row of the dimension's table or,
in an outer join, a null row.
-/

set_option autoImplicit false

namespace Brighthouse.Core

open List

/-- `pack` is `GetCurPackrow(dim)`, with no value for -1, and `nullsPossible` is
`NullsPossibleInPack(dim)`.  The rows that are not null belong to the pack. -/
structure Packrow where
  pack : Option Nat
  nullsPossible : Bool
  rows : List (Option Nat)
  nonempty : rows ≠ []
  inPack : ∀ row, some row ∈ rows → pack = some (row / 65536)

/-- `ahead` begins with the current packrow, of which `seen` tuples have been passed.  The
tuples are numbered; `resets` are the numbers of those that were excluded, the last one
first. -/
structure PackrowWalk where
  number : Nat
  seen : Nat
  ahead : List Packrow
  resets : List Nat

namespace PackrowWalk

variable (w : PackrowWalk)

def isValid : Bool := !w.ahead.isEmpty

def packrowStarted : Bool := w.seen == 0

def rows (w : PackrowWalk) : List (Option Nat) :=
  match w.ahead with
  | [] => []
  | p :: _ => p.rows

def getCurPackrow : Option Nat :=
  match w.ahead with
  | [] => none
  | p :: _ => p.pack

def nullsPossibleInPack : Bool :=
  match w.ahead with
  | [] => false
  | p :: _ => p.nullsPossible

def curPos : Option Nat := (w.rows[w.seen]?).join

/-- `GetCurInpack(dim)`; the last 16 bits of `NULL_VALUE_64` are 1. -/
def getCurInpack : Nat := w.curPos.getD 1 % 65536

def increment : PackrowWalk :=
  if w.seen + 1 < w.rows.length then { w with number := w.number + 1, seen := w.seen + 1 }
  else { w with number := w.number + 1, seen := 0, ahead := w.ahead.tail }

def nextPackrow : PackrowWalk :=
  if w.isValid then
    { w with number := w.number + (w.rows.length - w.seen), seen := 0, ahead := w.ahead.tail }
  else w

def resetCurrent : PackrowWalk := { w with resets := w.number :: w.resets }

def resetCurrentPack : PackrowWalk :=
  { w with resets := List.range' (w.number - w.seen) w.rows.length ++ w.resets }

def goesOn : Bool := w.isValid && !w.packrowStarted

/-- `do { if(drop) mit.ResetCurrent(); ++mit; } while(mit.IsValid() && !mit.PackrowStarted());`
with at most `turns` turns -/
def walk (drop : PackrowWalk → Bool) : Nat → PackrowWalk → PackrowWalk
  | 0, w => w
  | turns + 1, w =>
    let next := (if drop w then w.resetCurrent else w).increment
    if next.goesOn then walk drop turns next else next

def walkPackrow (drop : PackrowWalk → Bool) : PackrowWalk :=
  w.walk drop (w.rows.length - w.seen)

/-! ## Positions -/

/-- The walk is at tuple `s` of packrow `p`, whose first tuple has the number `start`. -/
structure At (w : PackrowWalk) (p : Packrow) (later : List Packrow) (start s : Nat) : Prop where
  ahead : w.ahead = p :: later
  seen : w.seen = s
  inside : s < p.rows.length
  number : w.number = start + s

/-- The walk has gone through a packrow and come to the packrows after it. -/
structure Passed (w : PackrowWalk) (later : List Packrow) (number : Nat) : Prop where
  ahead : w.ahead = later
  seen : w.seen = 0
  number : w.number = number

/-- The tuples that were excluded between `w` and `w'`. -/
def Resets (w w' : PackrowWalk) (hit : Nat → Prop) : Prop :=
  ∃ new, w'.resets = new ++ w.resets ∧ ∀ k, k ∈ new ↔ hit k

variable {w w1 w2 : PackrowWalk} {p : Packrow} {later : List Packrow} {start s : Nat}
  {hit hit' : Nat → Prop}

theorem Resets.refl (same : w1.resets = w.resets) : Resets w w1 fun _ => False :=
  ⟨[], same, fun _ => ⟨fun inside => absurd inside not_mem_nil, False.elim⟩⟩

theorem Resets.trans (first : Resets w w1 hit) (second : Resets w1 w2 hit') :
    Resets w w2 fun k => hit k ∨ hit' k := by
  obtain ⟨new, isNew, mem⟩ := first
  obtain ⟨new', isNew', mem'⟩ := second
  refine ⟨new' ++ new, by rw [isNew', isNew, append_assoc], fun k => ?_⟩
  rw [mem_append, mem, mem', or_comm]

theorem Resets.congr (resets : Resets w w1 hit) (same : ∀ k, hit k ↔ hit' k) :
    Resets w w1 hit' := by
  obtain ⟨new, isNew, mem⟩ := resets
  exact ⟨new, isNew, fun k => (mem k).trans (same k)⟩

theorem Resets.unique (resets : Resets w w1 hit) (resets' : Resets w w1 hit') (k : Nat) :
    hit k ↔ hit' k := by
  obtain ⟨new, isNew, mem⟩ := resets
  obtain ⟨new', isNew', mem'⟩ := resets'
  rw [← mem, ← mem', append_cancel_right (isNew.symm.trans isNew')]

section
variable (here : w.At p later start s)
include here

theorem At.rows_eq : w.rows = p.rows := by
  rw [rows, here.ahead]

theorem At.isValid : w.isValid = true := by
  rw [PackrowWalk.isValid, here.ahead]
  rfl

theorem At.curPos_eq {r : Option Nat} (isRow : p.rows[s]? = some r) : w.curPos = r := by
  rw [curPos, here.rows_eq, here.seen, isRow]
  rfl

theorem At.row : ∃ r, p.rows[s]? = some r := ⟨_, getElem?_eq_getElem here.inside⟩

theorem At.resetIf (drop : Bool) :
    (if drop then w.resetCurrent else w).At p later start s ∧
      Resets w (if drop then w.resetCurrent else w) fun k => k = start + s ∧ drop = true := by
  cases drop with
  | false =>
    exact ⟨here, (Resets.refl rfl).congr fun k => by simp⟩
  | true =>
    refine ⟨⟨here.ahead, here.seen, here.inside, here.number⟩, [w.number], rfl, fun k => ?_⟩
    rw [mem_singleton, here.number]
    exact (and_iff_left rfl).symm

theorem At.increment :
    w.increment.resets = w.resets ∧
      (s + 1 < p.rows.length ∧ w.increment.At p later start (s + 1) ∧ w.increment.goesOn = true ∨
        s + 1 = p.rows.length ∧ w.increment.Passed later (start + p.rows.length) ∧
          w.increment.goesOn = false) := by
  rw [PackrowWalk.increment, here.rows_eq, here.seen]
  by_cases more : s + 1 < p.rows.length
  · rw [if_pos more]
    have next : At { w with number := w.number + 1, seen := s + 1 } p later start (s + 1) :=
      ⟨here.ahead, rfl, more, congrArg (· + 1) here.number⟩
    refine ⟨rfl, .inl ⟨more, next, ?_⟩⟩
    rw [goesOn, next.isValid]
    rfl
  · have last : s + 1 = p.rows.length := by have inside := here.inside; omega
    rw [if_neg more, here.ahead, here.number]
    exact ⟨rfl, .inr ⟨last, ⟨rfl, rfl, by dsimp only; omega⟩, Bool.and_false _⟩⟩

theorem At.nextPackrow :
    w.nextPackrow.Passed later (start + p.rows.length) ∧ Resets w w.nextPackrow fun _ => False := by
  have inside := here.inside
  rw [PackrowWalk.nextPackrow, if_pos here.isValid, here.rows_eq, here.seen]
  exact ⟨⟨by rw [here.ahead]; rfl, rfl, by dsimp only; rw [here.number]; omega⟩, .refl rfl⟩

theorem At.resetCurrentPack :
    w.resetCurrentPack.At p later start s ∧
      Resets w w.resetCurrentPack fun k => start ≤ k ∧ k < start + p.rows.length := by
  refine ⟨⟨here.ahead, here.seen, here.inside, here.number⟩, _, rfl, fun k => ?_⟩
  rw [mem_range'_1, here.rows_eq, here.seen, here.number, Nat.add_sub_cancel]

end

/-! ## Loops -/

/-- Tuple `k` is one of the tuples of the packrow from `s` on that the loop drops. -/
def Drops (p : Packrow) (start s : Nat) (drops : Option Nat → Prop) (k : Nat) : Prop :=
  ∃ i r, s ≤ i ∧ k = start + i ∧ p.rows[i]? = some r ∧ drops r

/-- The loop decides by the rows of the packrow. -/
def Judges (drop : PackrowWalk → Bool) (p : Packrow) (later : List Packrow) (start : Nat)
    (drops : Option Nat → Prop) : Prop :=
  ∀ w i r, w.At p later start i → p.rows[i]? = some r →
    (drop w = true ↔ drops r)

theorem drops_step {drops : Option Nat → Prop} {r : Option Nat} (isRow : p.rows[s]? = some r)
    (k : Nat) :
    (k = start + s ∧ drops r) ∨ Drops p start (s + 1) drops k ↔ Drops p start s drops k := by
  constructor
  · rintro (⟨rfl, dropped⟩ | ⟨i, r', low, rfl, isRow', dropped⟩)
    · exact ⟨s, r, Nat.le_refl s, rfl, isRow, dropped⟩
    · exact ⟨i, r', by omega, rfl, isRow', dropped⟩
  · rintro ⟨i, r', low, rfl, isRow', dropped⟩
    rcases Nat.eq_or_lt_of_le low with rfl | after
    · rw [isRow] at isRow'
      obtain rfl := Option.some.inj isRow'
      exact .inl ⟨rfl, dropped⟩
    · exact .inr ⟨i, r', after, rfl, isRow', dropped⟩

theorem drops_last {drops : Option Nat → Prop} (last : p.rows.length ≤ s) (k : Nat) :
    ¬Drops p start s drops k := by
  rintro ⟨i, r, low, _, isRow, _⟩
  have inside := (List.getElem?_eq_some_iff.mp isRow).1
  omega

section
variable {drop : PackrowWalk → Bool} {drops : Option Nat → Prop}
  (judges : Judges drop p later start drops)
include judges

theorem At.walk {turns : Nat} (here : w.At p later start s) (enough : p.rows.length - s ≤ turns) :
    (w.walk drop turns).Passed later (start + p.rows.length) ∧
      Resets w (w.walk drop turns) (Drops p start s drops) := by
  induction turns generalizing w s with
  | zero =>
    have inside := here.inside
    omega
  | succ turns ih =>
    obtain ⟨r, isRow⟩ := here.row
    obtain ⟨marked, first⟩ := here.resetIf (drop w)
    have decided := judges w s r here isRow
    rw [PackrowWalk.walk]
    obtain ⟨same, ⟨more, next, goesOn⟩ | ⟨last, passed, ends⟩⟩ := marked.increment
    · rw [if_pos goesOn]
      obtain ⟨passed, rest⟩ := ih next (by omega)
      refine ⟨passed, ((first.trans (.refl same)).trans rest).congr fun k => ?_⟩
      rw [or_false, decided, drops_step isRow]
    · rw [ends]
      refine ⟨passed, (first.trans (.refl same)).congr fun k => ?_⟩
      rw [or_false, decided, ← drops_step isRow, or_iff_left (drops_last (by omega) k)]

theorem At.walkPackrow (here : w.At p later start s) :
    (w.walkPackrow drop).Passed later (start + p.rows.length) ∧
      Resets w (w.walkPackrow drop) (Drops p start s drops) :=
  here.walk judges (Nat.le_of_eq (by rw [here.rows_eq, here.seen]))

end

end PackrowWalk

end Brighthouse.Core
