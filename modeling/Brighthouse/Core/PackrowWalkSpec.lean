import Brighthouse.Core.MIUpdatingIteratorSpec
import Brighthouse.Core.PackrowWalk

/-!
# The iterator behind a walk over packrows

`PackrowWalk` goes through the tuples as `MIUpdatingIterator` does, and its resets are those
that the walk asks for: the tuples of earlier packrows that `ResetCurrentPack` clears as well
are left out.
-/

set_option autoImplicit false

namespace Brighthouse.Core

open Library.Odometer GroupContract Walker List

def PackrowWalk.step (p : PackrowWalk) : WalkOp → PackrowWalk
  | .increment => p.increment
  | .nextPackrow => p.nextPackrow
  | .resetCurrent => p.resetCurrent
  | .resetCurrentPack => p.resetCurrentPack

variable {σ τ : Type} [GroupIterator σ τ] {contract : GroupContract σ τ}
  {packrows : List (List (List τ))} {rowOf : List τ → Option Nat} {u : MIUpdatingIterator σ τ}
  {w : Walker τ} {p : PackrowWalk}

/-- The walk over packrows is at the tuple of the iterator; `rowOf` is the row of a tuple in
the dimension of the column. -/
structure Follows (contract : GroupContract σ τ) (packrows : List (List (List τ)))
    (rowOf : List τ → Option Nat) (u : MIUpdatingIterator σ τ) (w : Walker τ) (p : PackrowWalk) :
    Prop extends Tracks contract packrows u w where
  number : p.number = w.pos
  ahead : ∃ seen, p.seen = seen.length ∧ (u.mit.nextPackStarted = true → seen = []) ∧
    p.ahead.map Packrow.rows =
      ((seen ++ tuplesLeft w.places) :: w.later.map choices).map (map rowOf)

namespace Follows

/-- Where a packrow begins. -/
theorem of_whole (tracks : Tracks contract packrows u w)
    (whole : ∀ q ∈ w.places, q.left = q.pack) (number : p.number = w.pos) (seen : p.seen = 0)
    (rows : p.ahead.map Packrow.rows = ((packrowsLeft w.places).map choices).map (map rowOf)) :
    Follows contract packrows rowOf u w p where
  toTracks := tracks
  number := number
  ahead := by
    refine ⟨[], seen, fun _ => rfl, ?_⟩
    rw [rows, packrowsLeft_eq_cons tracks.nonempty, nil_append, tuplesLeft_started whole,
      Walker.later, restarted_of_whole whole]
    rfl

section
variable (follows : Follows contract packrows rowOf u w p)
include follows

theorem rows_tail : p.ahead.tail.map Packrow.rows = (w.later.map choices).map (map rowOf) := by
  obtain ⟨seen, -, -, rows⟩ := follows.ahead
  rw [map_tail, rows, map_cons, tail_cons]

theorem rows_length : p.isValid = true ∧
    p.rows.length = p.seen + (tuplesLeft w.places).length := by
  obtain ⟨seen, isSeen, -, rows⟩ := follows.ahead
  rw [PackrowWalk.isValid, PackrowWalk.rows, isSeen]
  cases isAhead : p.ahead with
  | nil => simp [isAhead] at rows
  | cons first rest =>
    rw [isAhead] at rows
    exact ⟨rfl, by simpa using congrArg length (cons.inj rows).1⟩

theorem increment_inside {next : List (Place τ)} (step : stepInside w.places = some next) :
    Follows contract packrows rowOf u.increment { w with places := next, pos := w.pos + 1 }
      p.increment := by
  have tracks := follows.toTracks.increment_inside step
  obtain ⟨t, here⟩ : ∃ t, tuplesLeft w.places = t :: tuplesLeft next :=
    ⟨_, by rw [follows.counts.tuplesLeft_eq, step]; rfl⟩
  have size := follows.rows_length.2
  have more := tuplesLeft_pos tracks.counts.cursors
  rw [here, length_cons] at size
  rw [PackrowWalk.increment, if_pos (by dsimp only at more; omega)]
  obtain ⟨seen, isSeen, -, rows⟩ := follows.ahead
  refine ⟨tracks, congrArg (· + 1) follows.number, seen ++ [t], by simp [isSeen],
    fun started => ?_, ?_⟩
  · have inside := (follows.counts.increment_inside step).started
    exact absurd (inside.symm.trans started) Bool.false_ne_true
  · rw [Walker.later, stepInside_restarted step, append_assoc, singleton_append, ← here]
    exact rows

theorem step {op : WalkOp} {next : Walker τ} (aligned : op = .nextPackrow → Aligned w.places)
    (moves : w.step op = some next) :
    Follows contract packrows rowOf (u.step op) next (p.step op) := by
  obtain ⟨valid, size⟩ := follows.rows_length
  have number := follows.number
  cases op with
  | increment =>
    rw [Walker.step] at moves
    cases inside : stepInside w.places with
    | some places =>
      rw [inside] at moves
      cases moves
      exact follows.increment_inside inside
    | none =>
      rw [inside] at moves
      obtain ⟨places, packs, rfl⟩ := Option.map_eq_some_iff.mp moves
      have one : (tuplesLeft w.places).length = 1 := by
        rw [follows.counts.tuplesLeft_eq, inside]
        rfl
      have moved : p.increment = ⟨p.number + 1, 0, p.ahead.tail, p.resets⟩ := if_neg (by omega)
      rw [PackrowWalk.step, moved, number]
      refine of_whole (follows.toTracks.increment_packrow inside packs)
        (follows.counts.increment_packrow inside packs).whole rfl rfl ?_
      rw [follows.rows_tail, Tracks.later_of_step packs]
  | nextPackrow =>
    have moved : p.nextPackrow = ⟨p.number + (p.rows.length - p.seen), 0, p.ahead.tail, p.resets⟩ :=
      if_pos valid
    obtain ⟨places, packs, rfl⟩ := Option.map_eq_some_iff.mp moves
    have whole := whole_of_aligned follows.nonempty (aligned rfl) packs
    have restarted : stepPacks (w.places.map Place.restarted) = some places := by
      rw [stepPacks_restarted, packs, Option.map_some, restarted_of_whole whole]
    rw [PackrowWalk.step, moved, number, size, Nat.add_sub_cancel_left]
    refine of_whole (follows.toTracks.nextPackrow_more (aligned rfl) packs) whole rfl rfl ?_
    rw [follows.rows_tail, Tracks.later_of_step restarted]
  | resetCurrent | resetCurrentPack =>
    cases moves
    exact { follows with }

theorem mem_resets_step {op : WalkOp}
    (first : op = .resetCurrentPack → u.mit.packrowStarted = true) (k : Nat) :
    k ∈ (p.step op).resets ↔ k ∈ p.resets ∨ w.Marks op k := by
  cases op with
  | increment =>
    rw [PackrowWalk.step, PackrowWalk.increment]
    split <;> simp [Marks]
  | nextPackrow =>
    rw [PackrowWalk.step, PackrowWalk.nextPackrow]
    split <;> simp [Marks]
  | resetCurrent =>
    simp [PackrowWalk.step, PackrowWalk.resetCurrent, Marks, follows.number, or_comm]
  | resetCurrentPack =>
    obtain ⟨seen, isSeen, atStart, -⟩ := follows.ahead
    obtain rfl := atStart (first rfl)
    have size := follows.rows_length.2
    rw [isSeen, length_nil, Nat.zero_add] at size
    simp [PackrowWalk.step, PackrowWalk.resetCurrentPack, Marks, isSeen, size, follows.number,
      or_comm]

end

variable {ops : List WalkOp}

theorem mem_resets_run (follows : Follows contract packrows rowOf u w p)
    (allowed : u.Allowed ops) (aligned : AlignedAlong (some w) ops) (k : Nat) :
    k ∈ (ops.foldl PackrowWalk.step p).resets ↔ k ∈ p.resets ∨ Along Marks (some w) ops k := by
  induction ops generalizing u w p with
  | nil => exact (or_iff_left id).symm
  | cons op ops ih =>
    obtain ⟨valid, first, rest⟩ := allowed
    rw [foldl_cons, Along, ← or_assoc, ← follows.mem_resets_step first]
    rcases follows.toTracks.step aligned.1 with ⟨ended, invalid⟩ | ⟨next, moved, -⟩
    · cases ops with
      | nil => rw [ended]; exact (or_iff_left id).symm
      | cons op' ops => exact absurd (rest.1.symm.trans invalid) (by simp)
    · have aligned1 := aligned.2
      rw [moved] at aligned1 ⊢
      exact ih (follows.step aligned.1 moved) rest aligned1

/-- The filter of the iterator loses the tuples that the walk over packrows resets, and those
that are stale. -/
theorem pending_run {bits : Nat → Bool} (follows : Follows contract packrows rowOf u w p)
    (pending : u.multiDimFilter.Pending packrows.flatten.length bits) (fresh : p.resets = [])
    (allowed : u.Allowed ops) (aligned : AlignedAlong (some w) ops) :
    ∃ bits', (u.run ops).multiDimFilter.Pending packrows.flatten.length bits' ∧
      ∀ k, bits' k = false ↔ bits k = false ∨ k ∈ (ops.foldl PackrowWalk.step p).resets ∨
        Along Stale (some w) ops k := by
  obtain ⟨bits', pending', cleared, -⟩ := follows.toTracks.pending_run pending allowed aligned
  refine ⟨bits', pending', fun k => ?_⟩
  rw [cleared, along_clears, follows.mem_resets_run allowed aligned k, fresh]
  simp

end Follows

end Brighthouse.Core
