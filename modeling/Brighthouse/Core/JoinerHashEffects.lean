import Brighthouse.Core.FilterPending
import Brighthouse.Core.JoinerHash
import Brighthouse.Core.JoinerHashTableSearch

/-!
# What the steps of a hash join do

While the matched side is scanned, the hash table stays as it is.  A step commits tuples,
and resets rows of the table or matched rows in the outer filter.  `Applied` records the
three lists; the lists of consecutive steps are appended.
-/

set_option autoImplicit false

namespace Brighthouse.Core

open Library Library.BitCount JoinerHash JoinerHashTable

/-! ## Searches -/

theorem hashRows_of_getRows {calls : Nat} :
    ∀ {rows h},
      getRows calls h = some (rows.map some ++ [none]) →
      hashRows calls h = some rows := by
  induction calls with
  | zero =>
    intro rows h answers
    cases rows <;> cases answers
  | succ calls ih =>
    intro rows h answers
    rw [getRows] at answers
    rw [hashRows]
    cases next : h.getNextRow with
    | none =>
      rw [next] at answers
      cases answers
    | some outcome =>
      obtain ⟨first, h'⟩ := outcome
      rw [next] at answers
      obtain ⟨rest, later, list⟩ := Option.map_eq_some_iff.mp answers
      cases rows with
      | nil =>
        obtain rfl : first = none := (List.cons.inj list).1
        rfl
      | cons row rows =>
        obtain ⟨rfl, rfl⟩ := List.cons.inj list
        dsimp only
        rw [ih later]
        rfl

theorem lookup_of_search {h found : JoinerHashTable} {key : Bytes} {multiplier : Nat}
    {rows : List Nat} (search : (h.putKey key).initCurrentRowToGet = some (multiplier, found))
    (answers : getRows (multiplier + 1) found = some (rows.map some ++ [none])) :
    h.lookup key = some (multiplier, rows) := by
  rw [lookup, search]
  dsimp only
  rw [hashRows_of_getRows answers]
  rfl

/-! ## Effects -/

section
variable {τ μ : Type} (j : JoinerHash τ μ)

structure Applied (s s' : JoinState τ μ) (committed : List (Option τ × Option μ))
    (tableRows matchedRows : List Nat) : Prop where
  jhash : s'.jhash = s.jhash
  put : s'.put = s.put
  tuples : s'.tuples = s.tuples
  newMind : s'.newMind.Perm (committed ++ s.newMind)
  traversed : j.watch = .traversed → ∀ {rows bits}, s.outerFilter.Shows rows bits →
    (∀ r ∈ tableRows, r < rows) →
    s'.outerFilter.Shows rows (fun r => bits r && decide (r ∉ tableRows))
  matched : j.watch = .matched → ∀ {rows bits}, s.outerFilter.Pending rows bits →
    (∀ r ∈ matchedRows, r < rows) →
    s'.outerFilter.Pending rows (fun r => bits r && decide (r ∉ matchedRows))

variable {j} {s s₁ s₂ : JoinState τ μ} {committed committed' : List (Option τ × Option μ)}
  {tableRows tableRows' matchedRows matchedRows' : List Nat}

theorem Applied.refl (s : JoinState τ μ) : Applied j s s [] [] [] where
  jhash := rfl
  put := rfl
  tuples := rfl
  newMind := List.Perm.refl _
  traversed := fun _ _ _ shown _ => shown.congr fun r _ => by simp
  matched := fun _ _ _ pending _ => pending.congr fun r _ => by simp

theorem and_not_mem_append (bit : Bool) (r : Nat) (rows rows' : List Nat) :
    (bit && decide (r ∉ rows) && decide (r ∉ rows')) = (bit && decide (r ∉ rows ++ rows')) := by
  rw [Bool.and_assoc, ← Bool.decide_and]
  simp only [List.mem_append, not_or]

theorem Applied.trans (first : Applied j s s₁ committed tableRows matchedRows)
    (second : Applied j s₁ s₂ committed' tableRows' matchedRows') :
    Applied j s s₂ (committed ++ committed') (tableRows ++ tableRows')
      (matchedRows ++ matchedRows') where
  jhash := second.jhash.trans first.jhash
  put := second.put.trans first.put
  tuples := second.tuples.trans first.tuples
  newMind := by
    refine second.newMind.trans ((first.newMind.append_left _).trans ?_)
    rw [← List.append_assoc]
    exact List.perm_append_comm.append_right _
  traversed := by
    intro watched rows bits shown inside
    have inside' := List.forall_mem_append.mp inside
    refine (second.traversed watched (first.traversed watched shown inside'.1) inside'.2).congr ?_
    exact fun r _ => and_not_mem_append _ _ _ _
  matched := by
    intro watched rows bits pending inside
    have inside' := List.forall_mem_append.mp inside
    refine (second.matched watched (first.matched watched pending inside'.1) inside'.2).congr ?_
    exact fun r _ => and_not_mem_append _ _ _ _

theorem Applied.congr (applied : Applied j s s₁ committed tableRows matchedRows)
    (tuples : committed.Perm committed') (table : ∀ r, r ∈ tableRows ↔ r ∈ tableRows')
    (matched : ∀ r, r ∈ matchedRows ↔ r ∈ matchedRows') :
    Applied j s s₁ committed' tableRows' matchedRows' where
  jhash := applied.jhash
  put := applied.put
  tuples := applied.tuples
  newMind := applied.newMind.trans (tuples.append_right _)
  traversed := by
    intro watched rows bits shown inside
    refine (applied.traversed watched shown fun r mem => inside r ((table r).mp mem)).congr ?_
    intro r _
    simp only [table r]
  matched := by
    intro watched rows bits pending inside
    refine (applied.matched watched pending fun r mem =>
      inside r ((matched r).mp mem)).congr ?_
    intro r _
    simp only [matched r]

theorem Applied.foldl {turn : JoinState τ μ → Nat → JoinState τ μ} (tuples : Nat → Option τ)
    {committed : Nat → List (Option τ × Option μ)} {tableRows matchedRows : Nat → List Nat}
    (each : ∀ s r, s.tuples = tuples →
      Applied j s (turn s r) (committed r) (tableRows r) (matchedRows r)) (rows : List Nat) :
    ∀ s, s.tuples = tuples → Applied j s (rows.foldl turn s) (rows.flatMap committed)
      (rows.flatMap tableRows) (rows.flatMap matchedRows) := by
  induction rows with
  | nil => exact fun s _ => refl s
  | cons r rows ih =>
    intro s same
    have first := each s r same
    exact first.trans (ih _ (first.tuples.trans same))

theorem not_mem_singleton_eq_fill (bits : Nat → Bool) (i r : Nat) :
    (bits r && decide (r ∉ [i])) = fill bits i (i + 1) false r := by
  rw [fill_one]
  by_cases same : r = i
  · simp [same]
  · simp [same]

theorem applied_resetTraversed (s : JoinState τ μ) (r : Nat) :
    Applied j s (j.resetTraversed s r) [] [r] [] := by
  rw [resetTraversed]
  split
  · rename_i watched
    have isTraversed := of_decide_eq_true watched
    refine ⟨rfl, rfl, rfl, List.Perm.refl _, ?_, ?_⟩
    · intro _ rows bits shown inside
      refine (shown.reset (inside r List.mem_cons_self)).congr fun n _ => ?_
      exact (not_mem_singleton_eq_fill bits r n).symm
    · intro isMatched
      rw [isTraversed] at isMatched
      cases isMatched
  · rename_i unwatched
    have notTraversed : j.watch ≠ .traversed := fun same => unwatched (decide_eq_true same)
    exact { Applied.refl s with traversed := fun watched => absurd watched notTraversed }

theorem applied_resetMatched (s : JoinState τ μ) (i : Nat) :
    Applied j s (j.resetMatched s i) [] [] [i] := by
  rw [resetMatched]
  split
  · rename_i watched
    have isMatched := of_decide_eq_true watched
    refine ⟨rfl, rfl, rfl, List.Perm.refl _, ?_, ?_⟩
    · intro isTraversed
      rw [isMatched] at isTraversed
      cases isTraversed
    · intro _ rows bits pending inside
      refine (pending.resetDelayed (inside i List.mem_cons_self)).congr fun n _ => ?_
      exact (not_mem_singleton_eq_fill bits i n).symm
  · rename_i unwatched
    have notMatched : j.watch ≠ .matched := fun same => unwatched (decide_eq_true same)
    exact { Applied.refl s with matched := fun watched => absurd watched notMatched }

/-- The tuples that are committed: none of them if only null rows are wanted. -/
def JoinerHash.kept (j : JoinerHash τ μ) (tuples : List (Option τ × Option μ)) :
    List (Option τ × Option μ) :=
  if j.outerNullsOnly then [] else tuples

theorem kept_append (tuples tuples' : List (Option τ × Option μ)) :
    j.kept (tuples ++ tuples') = j.kept tuples ++ j.kept tuples' := by
  rw [kept, kept, kept]
  split <;> rfl

theorem applied_submitJoinedTuple (m : μ) (s : JoinState τ μ) (r : Nat) :
    Applied j s (j.submitJoinedTuple m s r) (j.kept [(s.tuples r, some m)]) [r] [] := by
  have reset := applied_resetTraversed (j := j) s r
  have submitted : j.submitJoinedTuple m s r =
      if j.outerNullsOnly then j.resetTraversed s r
      else (j.resetTraversed s r).commitTuple (s.tuples r, some m) := by
    rw [← reset.tuples]
    rfl
  rw [submitted, kept]
  split
  · exact reset
  · exact { reset with newMind := reset.newMind.cons _ }

end

end Brighthouse.Core
