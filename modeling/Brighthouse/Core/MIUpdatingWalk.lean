import Brighthouse.Core.MIIteratorEnumerates
import Brighthouse.Core.MIUpdatingIterator

/-!
# Walks of an updating iterator

A walk calls `++`, `NextPackrow`, `ResetCurrent` and `ResetCurrentPack`.  `Walker` follows a
walk through the packrows of the odometer.  It numbers the tuples in the order in which the
iterator visits them.
-/

set_option autoImplicit false

namespace Brighthouse.Core

open Library.Odometer MIIterator GroupContract List Option

inductive WalkOp where
  | increment
  | nextPackrow
  | resetCurrent
  | resetCurrentPack
  deriving DecidableEq

variable {σ τ : Type} [GroupIterator σ τ]

namespace MIUpdatingIterator

def step (u : MIUpdatingIterator σ τ) : WalkOp → MIUpdatingIterator σ τ
  | .increment => u.increment
  | .nextPackrow => u.nextPackrow
  | .resetCurrent => u.resetCurrent
  | .resetCurrentPack => u.resetCurrentPack

def run (u : MIUpdatingIterator σ τ) (ops : List WalkOp) : MIUpdatingIterator σ τ :=
  ops.foldl step u

/-- The walk stays inside of the multiindex, and packrows are removed at their first tuple. -/
def Allowed : MIUpdatingIterator σ τ → List WalkOp → Prop
  | _, [] => True
  | u, op :: ops =>
    u.mit.valid = true ∧ (op = .resetCurrentPack → u.mit.packrowStarted = true) ∧
      (u.step op).Allowed ops

/-- The walk removes `t`: it was current at a `ResetCurrent` or belonged to the current packrow
at a `ResetCurrentPack`. -/
def Removes (packrows : List (List (List τ))) :
    MIUpdatingIterator σ τ → List WalkOp → List τ → Prop
  | _, [], _ => False
  | u, op :: ops, t =>
    (op = .resetCurrent ∧ u.mit.curPos = t.map some) ∨
      (op = .resetCurrentPack ∧
        ∃ row ∈ packrows, t ∈ row ∧ ∃ c ∈ row, u.mit.curPos = c.map some) ∨
      Removes packrows (u.step op) ops t

end MIUpdatingIterator

/-! ## Walkers -/

/-- `packStart` is the number of the first tuple of the packrow that was last entered by `++`
or `Rewind`. -/
structure Walker (τ : Type) where
  places : List (Place τ)
  pos : Nat
  packStart : Nat

namespace Walker

def step (w : Walker τ) : WalkOp → Option (Walker τ)
  | .increment =>
    match stepInside w.places with
    | some places => some { w with places := places, pos := w.pos + 1 }
    | none =>
      (stepPacks (w.places.map Place.restarted)).map fun places =>
        ⟨places, w.pos + 1, w.pos + 1⟩
  | .nextPackrow =>
    (stepPacks w.places).map fun places =>
      { w with places := places, pos := w.pos + (tuplesLeft w.places).length }
  | .resetCurrent | .resetCurrentPack => some w

def Marks (w : Walker τ) (op : WalkOp) (k : Nat) : Prop :=
  (op = .resetCurrent ∧ k = w.pos) ∨
    (op = .resetCurrentPack ∧ w.pos ≤ k ∧ k < w.pos + (tuplesLeft w.places).length)

/-- The tuples of earlier packrows that `ResetCurrentPack` removes as well: `NextPackrow` has
not set `multi_filter_pack_start`. -/
def Stale (w : Walker τ) (op : WalkOp) (k : Nat) : Prop :=
  op = .resetCurrentPack ∧ w.packStart ≤ k ∧ k < w.pos

/-- Some call of the walk hits tuple `k`. -/
def Along (hits : Walker τ → WalkOp → Nat → Prop) : Option (Walker τ) → List WalkOp → Nat → Prop
  | some w, op :: ops, k => hits w op k ∨ Along hits (w.step op) ops k
  | _, _, _ => False

/-- The groups behind the one that `NextPackrow` moves are at the beginning of their packs. -/
def Aligned : List (Place τ) → Prop
  | [] => True
  | p :: places => if p.later.isEmpty then Aligned places else ∀ q ∈ places, q.left = q.pack

/-- Every `NextPackrow` of the walk comes to the first tuple of a packrow. -/
def AlignedAlong : Option (Walker τ) → List WalkOp → Prop
  | some w, op :: ops => (op = .nextPackrow → Aligned w.places) ∧ AlignedAlong (w.step op) ops
  | _, _ => True

theorem stepPacks_restarted (places : List (Place τ)) :
    stepPacks (places.map Place.restarted) = (stepPacks places).map (map Place.restarted) := by
  induction places with
  | nil => rfl
  | cons p places ih =>
    obtain ⟨packs, pack, left, later⟩ := p
    cases later with
    | cons next later => rfl
    | nil =>
      rw [map_cons, stepPacks, stepPacks]
      rw [ih, Option.map_map, Option.map_map]
      cases packs <;> rfl

theorem whole_of_aligned {places next : List (Place τ)} (nonempty : ∀ p ∈ places, p.packs ≠ [])
    (aligned : Aligned places) (step : stepPacks places = some next) :
    ∀ q ∈ next, q.left = q.pack := by
  induction places generalizing next with
  | nil => exact nomatch step
  | cons p places ih =>
    obtain ⟨packs, pack, left, later⟩ := p
    cases later with
    | cons first later =>
      obtain rfl := some.inj step
      rintro q (_ | ⟨_, inside⟩)
      · rfl
      · exact aligned q inside
    | nil =>
      obtain ⟨rest, moved, rfl⟩ := map_eq_some_iff.mp step
      rintro q (_ | ⟨_, inside⟩)
      · obtain ⟨first, others, rfl⟩ := exists_cons_of_ne_nil (nonempty _ mem_cons_self)
        rfl
      · exact ih (fun p inside => nonempty p (mem_cons_of_mem _ inside)) aligned moved q inside

/-! ## Where a walker is -/

def later (w : Walker τ) : List (List (List τ)) :=
  ((stepPacks (w.places.map Place.restarted)).map packrowsLeft).getD []

/-- The walker has passed `before` and, in the current packrow, `seen`. -/
structure Located (packrows : List (List (List τ))) (w : Walker τ) (before : List (List (List τ)))
    (seen : List (List τ)) : Prop where
  split : packrows = before ++ (seen ++ tuplesLeft w.places) :: w.later.map choices
  pos : w.pos = before.flatten.length + seen.length

variable {packrows before : List (List (List τ))} {seen : List (List τ)} {w : Walker τ}

section
variable (located : w.Located packrows before seen)
include located

theorem Located.flatten_eq :
    packrows.flatten = (before.flatten ++ seen) ++
    (tuplesLeft w.places ++ (w.later.map choices).flatten) := by
  rw [located.split, flatten_append, flatten_cons, append_assoc, append_assoc]

theorem Located.pos_eq : w.pos = (before.flatten ++ seen).length := by
  rw [located.pos, length_append]

theorem Located.bound : w.pos + (tuplesLeft w.places).length ≤ packrows.flatten.length := by
  rw [located.flatten_eq, located.pos_eq]
  simp only [length_append]
  omega

theorem Located.getElem {i : Nat} (inside : i < (tuplesLeft w.places).length) :
    packrows.flatten[w.pos + i]? = (tuplesLeft w.places)[i]? := by
  rw [located.flatten_eq, located.pos_eq, getElem?_append_right (Nat.le_add_right _ _),
    Nat.add_sub_cancel_left, getElem?_append_left inside]

end

end Walker

/-! ## The iterator and the walker -/

/-- The iterator is where the walker is, and so are its counters. -/
structure Tracks (contract : GroupContract σ τ) (packrows : List (List (List τ)))
    (u : MIUpdatingIterator σ τ) (w : Walker τ) : Prop where
  counts : contract.Counts u.mit u.mit.nextPackStarted w.places
  located : ∃ before seen, w.Located packrows before seen ∧
    (u.mit.nextPackStarted = true → seen = [])
  known : ∀ packrow ∈ w.later, Known packrow
  pos : u.multiFilterPos = w.pos
  packStart : u.multiFilterPackStart = w.packStart
  started : w.packStart ≤ w.pos

namespace Tracks

variable {contract : GroupContract σ τ} {packrows : List (List (List τ))}
  {u : MIUpdatingIterator σ τ} {w : Walker τ}

theorem nonempty (tracks : Tracks contract packrows u w) : ∀ p ∈ w.places, p.packs ≠ [] :=
  packs_ne_nil_of_at tracks.counts.cursors

theorem of_entered {before : List (List (List τ))} (entered : contract.Entered u.mit w.places)
    (known : ∀ packrow ∈ packrowsLeft w.places, Known packrow)
    (split : packrows = before ++ (packrowsLeft w.places).map choices)
    (isPos : w.pos = before.flatten.length) (pos : u.multiFilterPos = w.pos)
    (packStart : u.multiFilterPackStart = w.packStart) (started : w.packStart ≤ w.pos) :
    Tracks contract packrows u w where
  counts := by
    rw [entered.started]
    refine entered.counts (known _ ?_)
    rw [entered.packrowsLeft_eq]
    exact mem_cons_self
  located := by
    refine ⟨before, [], ⟨?_, isPos⟩, fun _ => rfl⟩
    rw [split, packrowsLeft_eq_cons (packs_ne_nil_of_at entered.cursors), map_cons, nil_append,
      tuplesLeft_started entered.whole, Walker.later, restarted_of_whole entered.whole]
  known := by
    intro packrow inside
    refine known packrow ?_
    rw [entered.packrowsLeft_eq]
    rw [Walker.later, restarted_of_whole entered.whole] at inside
    exact mem_cons_of_mem _ inside
  pos := pos
  packStart := packStart
  started := started

theorem later_of_step {next : List (Place τ)}
    (step : stepPacks (w.places.map Place.restarted) = some next) :
    w.later = packrowsLeft next := by
  rw [Walker.later, step]
  rfl

section
variable (tracks : Tracks contract packrows u w)
include tracks

variable {next : List (Place τ)}

theorem increment_inside (step : stepInside w.places = some next) :
    Tracks contract packrows u.increment { w with places := next, pos := w.pos + 1 } := by
  obtain ⟨before, seen, located, _⟩ := tracks.located
  have counts := tracks.counts.increment_inside step
  obtain ⟨t, here⟩ : ∃ t, tuplesLeft w.places = t :: tuplesLeft next :=
    ⟨_, by rw [tracks.counts.tuplesLeft_eq, step]; rfl⟩
  have later : Walker.later { w with places := next, pos := w.pos + 1 } = w.later := by
    rw [Walker.later, Walker.later, stepInside_restarted step]
  exact
    { counts := counts.started.symm ▸ counts
      located := by
        refine ⟨before, seen ++ [t], ⟨?_, ?_⟩, fun started => ?_⟩
        · rw [later, located.split, here, append_assoc]
          rfl
        · rw [located.pos, length_append]
          rfl
        · exact absurd (counts.started.symm.trans started) Bool.false_ne_true
      known := later ▸ tracks.known
      pos := congrArg (· + 1) tracks.pos
      packStart := (if_neg (by rw [counts.started]; exact Bool.false_ne_true)).trans
        tracks.packStart
      started := Nat.le_succ_of_le tracks.started }

theorem split_later :
    ∃ before, packrows = before ++ w.later.map choices ∧
      before.flatten.length = w.pos + (tuplesLeft w.places).length := by
  obtain ⟨before, seen, located, _⟩ := tracks.located
  refine ⟨before ++ [seen ++ tuplesLeft w.places], ?_, ?_⟩
  · rw [located.split, append_assoc]
    rfl
  · rw [located.pos, flatten_append, flatten_singleton]
    simp only [length_append]
    omega

theorem increment_packrow (last : stepInside w.places = none)
    (step : stepPacks (w.places.map Place.restarted) = some next) :
    Tracks contract packrows u.increment ⟨next, w.pos + 1, w.pos + 1⟩ := by
  obtain ⟨before, split, size⟩ := tracks.split_later
  have entered := tracks.counts.increment_packrow last step
  have later := later_of_step step
  have one : (tuplesLeft w.places).length = 1 := by
    rw [tracks.counts.tuplesLeft_eq, last]
    rfl
  refine of_entered entered (later ▸ tracks.known) (later ▸ split) (by rw [size, one])
    (congrArg (· + 1) tracks.pos) ?_ le_rfl
  refine (if_pos entered.started).trans ?_
  exact congrArg (· + 1) tracks.pos

theorem increment_end (last : stepInside w.places = none)
    (step : stepPacks (w.places.map Place.restarted) = none) : u.increment.mit.valid = false :=
  tracks.counts.increment_end last step

theorem nextPackrow_more (aligned : Walker.Aligned w.places)
    (step : stepPacks w.places = some next) :
    Tracks contract packrows u.nextPackrow
      { w with places := next, pos := w.pos + (tuplesLeft w.places).length } := by
  obtain ⟨before, split, size⟩ := tracks.split_later
  have whole := Walker.whole_of_aligned tracks.nonempty aligned step
  have entered := tracks.counts.toAtPlaces.nextPackrow_more step whole
  have later : w.later = packrowsLeft next := by
    refine later_of_step ?_
    rw [Walker.stepPacks_restarted, step, map_some, restarted_of_whole whole]
  refine of_entered entered (later ▸ tracks.known) (later ▸ split) size.symm ?_ tracks.packStart
    (Nat.le_add_right_of_le tracks.started)
  show u.multiFilterPos + u.mit.packSizeLeft = _
  rw [tracks.pos, tracks.counts.size, Int.natCast_add]

theorem nextPackrow_end (step : stepPacks w.places = none) : u.nextPackrow.mit.valid = false :=
  tracks.counts.toAtPlaces.nextPackrow_end step

theorem step {op : WalkOp} (aligned : op = .nextPackrow → Walker.Aligned w.places) :
    (w.step op = none ∧ (u.step op).mit.valid = false) ∨
      ∃ next, w.step op = some next ∧ Tracks contract packrows (u.step op) next := by
  cases op with
  | increment =>
    rw [Walker.step]
    cases inside : stepInside w.places with
    | some next => exact .inr ⟨_, rfl, tracks.increment_inside inside⟩
    | none =>
      cases packs : stepPacks (w.places.map Place.restarted) with
      | some next => exact .inr ⟨_, rfl, tracks.increment_packrow inside packs⟩
      | none => exact .inl ⟨rfl, tracks.increment_end inside packs⟩
  | nextPackrow =>
    rw [Walker.step]
    cases packs : stepPacks w.places with
    | some next => exact .inr ⟨_, rfl, tracks.nextPackrow_more (aligned rfl) packs⟩
    | none => exact .inl ⟨rfl, tracks.nextPackrow_end packs⟩
  | resetCurrent | resetCurrentPack =>
    exact .inr ⟨w, rfl, { tracks with }⟩

end

end Tracks

end Brighthouse.Core
