import Brighthouse.Core.MIIterator
import Brighthouse.Library.Odometer

/-!
# One step of an iterator of a multiindex

`GroupContract` says what an iterator of a multiindex relies on in the iterators of its
groups: each of them walks through the packs of its group.  The iterator of the multiindex
then moves as the odometer over these packs.
-/

set_option autoImplicit false

namespace Brighthouse.Core

open Library.Odometer GroupIterator List

/-- `Of packs it`: the group of `it` consists of `packs`.  `Stands it p`: the iterator is at
the place `p`. -/
structure GroupContract (σ τ : Type) [GroupIterator σ τ] where
  Of : List (List τ) → σ → Prop
  Stands : σ → Place τ → Prop
  isFilter : σ → Bool
  isValid_of_stands {it p} : Stands it p → isValid it = true
  current_of_stands {it p} : Stands it p → p.left.head? = some (current it)
  getPackSizeLeft_of_stands {it p} :
    Stands it p → getPackSizeLeft it = p.left.length
  packs_ne_nil {it p} : Stands it p → p.packs ≠ []
  rewind_nil {it} : Of [] it → isValid (rewind it) = false
  rewind_cons {it pack later} :
    Of (pack :: later) it → Stands (rewind it) ⟨pack :: later, pack, pack, later⟩
  nextInsidePack_more {it packs later pack left x y} :
    Stands it ⟨packs, pack, x :: y :: left, later⟩ →
      (nextInsidePack it).1 = true ∧ Stands (nextInsidePack it).2 ⟨packs, pack, y :: left, later⟩
  nextInsidePack_last {it packs later pack x} :
    Stands it ⟨packs, pack, [x], later⟩ →
      (nextInsidePack it).1 = false ∧ Stands (nextInsidePack it).2 ⟨packs, pack, pack, later⟩
  nextPackrow_more {it packs later pack left next} :
    Stands it ⟨packs, pack, left, next :: later⟩ →
      Stands (nextPackrow it) ⟨packs, next, next, later⟩
  nextPackrow_last {it packs pack left} :
    Stands it ⟨packs, pack, left, []⟩ →
      isValid (nextPackrow it) = false ∧ Of packs (nextPackrow it)
  increment_more {it packs later pack left x y} :
    isFilter it = true → Stands it ⟨packs, pack, x :: y :: left, later⟩ →
      Stands (increment it) ⟨packs, pack, y :: left, later⟩
  increment_pack {it packs later pack next x} :
    isFilter it = true → Stands it ⟨packs, pack, [x], next :: later⟩ →
      Stands (increment it) ⟨packs, next, next, later⟩
  increment_last {it packs pack x} :
    isFilter it = true → Stands it ⟨packs, pack, [x], []⟩ → isValid (increment it) = false
  of_increment {it packs} : Of packs it → Of packs (increment it)
  of_rewind {it packs} : Of packs it → Of packs (rewind it)
  of_nextInsidePack {it packs} : Of packs it → Of packs (nextInsidePack it).2
  of_nextPackrow {it packs} : Of packs it → Of packs (nextPackrow it)
  isFilter_rewind (it : σ) : isFilter (rewind it) = isFilter it
  isFilter_nextPackrow (it : σ) : isFilter (nextPackrow it) = isFilter it
  isFilter_increment (it : σ) : isFilter (increment it) = isFilter it

variable {σ τ : Type} [GroupIterator σ τ]

/-! ## Sizes of packrows -/

def safeProduct (sizes : List Nat) : Int :=
  sizes.foldl (fun size (n : Nat) => safeMultiplication size n) 1

theorem safeMultiplication_null (y : Int) : safeMultiplication nullValue64 y = nullValue64 :=
  if_pos (Or.inl rfl)

theorem foldl_safeMultiplication {sizes : List Nat} (fits : ∀ n ∈ sizes, n < 2 ^ 63) {size : Nat}
    (small : size < 2 ^ 63)
    (known : sizes.foldl (fun size (n : Nat) => safeMultiplication size n) (size : Int) ≠
      nullValue64) :
    sizes.foldl (fun size (n : Nat) => safeMultiplication size n) (size : Int) =
      (size * sizes.prod : Nat) := by
  induction sizes generalizing size with
  | nil => simp
  | cons n sizes ih =>
    have smallN := fits n mem_cons_self
    rw [foldl_cons] at known ⊢
    by_cases overflows : Overflows size n
    · rw [safeMultiplication_natCast small smallN, if_pos overflows,
        foldl_fixed' fun n : Nat => safeMultiplication_null n] at known
      exact absurd rfl known
    · rw [safeMultiplication_natCast small smallN, if_neg overflows] at known ⊢
      rw [ih (fun n inside => fits n (mem_cons_of_mem _ inside))
        (mul_lt_of_not_overflows overflows) known, prod_cons, mul_assoc]

theorem safeProduct_eq {sizes : List Nat} (fits : ∀ n ∈ sizes, n < 2 ^ 63)
    (known : safeProduct sizes ≠ nullValue64) : safeProduct sizes = (sizes.prod : Nat) := by
  have product := foldl_safeMultiplication fits (by decide : 1 < 2 ^ 63) known
  rwa [one_mul] at product

/-! ## The loops over the groups -/

namespace GroupContract

variable (contract : GroupContract σ τ)

def At (c : GroupCursor σ τ) (p : Place τ) : Prop :=
  contract.Stands c.it p ∧ c.curPos = some (current c.it)

variable {contract}
variable {cs : List (GroupCursor σ τ)} {ps : List (Place τ)}

theorem at_fill {it : σ} {p : Place τ} (stands : contract.Stands it p) :
    contract.At (fillCurrentPos it) p :=
  ⟨stands, rfl⟩

section
variable (at_ps : List.Forall₂ contract.At cs ps)
include at_ps

theorem packs_ne_nil_of_at : ∀ p ∈ ps, p.packs ≠ [] := by
  induction at_ps with
  | nil => exact fun p inside => absurd inside not_mem_nil
  | cons here _ ih =>
    rintro p (_ | ⟨_, inside⟩)
    · exact contract.packs_ne_nil here.1
    · exact ih p inside

theorem shown_of_at : Shown (cs.map fun c => current c.it) (ps.map Place.inner) := by
  rw [Shown, forall₂_map_left_iff, forall₂_map_right_iff]
  exact at_ps.imp fun c p here => contract.current_of_stands here.1

theorem curPos_of_at : cs.map GroupCursor.curPos = (cs.map fun c => current c.it).map some := by
  induction at_ps with
  | nil => rfl
  | cons here _ ih => rw [map_cons, here.2, ih]; rfl

theorem packrowSize_of_at :
    MIIterator.packrowSize cs = safeProduct (ps.map fun p => p.left.length) := by
  rw [MIIterator.packrowSize, safeProduct]
  generalize (1 : Int) = size
  induction at_ps generalizing size with
  | nil => rfl
  | cons here _ ih =>
    rw [map_cons, foldl_cons, foldl_cons, contract.getPackSizeLeft_of_stands here.1, ih]

end

variable {groups : List (List (List τ))}

theorem rewindGroups_of_nil (of : Forall₂ contract.Of groups (cs.map GroupCursor.it))
    (empty : [] ∈ groups) : (rewindGroups cs).1 = false := by
  induction cs generalizing groups with
  | nil =>
    cases of
    exact absurd empty not_mem_nil
  | cons c cs ih =>
    cases of with
    | @cons packs _ groups _ here others =>
      rw [rewindGroups]
      cases packs with
      | nil => simp [contract.rewind_nil here]
      | cons pack later =>
        have inOthers := mem_of_ne_of_mem (cons_ne_nil pack later).symm empty
        simp [contract.isValid_of_stands (contract.rewind_cons here), ih others inOthers]

def startPlace (packs : List (List τ)) : Place τ := (Place.mk packs [] [] []).rewound

theorem rewindGroups_of_ne_nil (of : Forall₂ contract.Of groups (cs.map GroupCursor.it))
    (nonempty : [] ∉ groups) :
    (rewindGroups cs).1 = true ∧
      Forall₂ contract.At (rewindGroups cs).2 (groups.map startPlace) := by
  induction cs generalizing groups with
  | nil =>
    cases of
    exact ⟨rfl, .nil⟩
  | cons c cs ih =>
    cases of with
    | @cons packs _ groups _ here others =>
      rw [mem_cons, not_or] at nonempty
      obtain ⟨head, tail⟩ := nonempty
      obtain ⟨pack, later, rfl⟩ := exists_cons_of_ne_nil (symm head)
      have first := contract.rewind_cons here
      obtain ⟨valid, rest⟩ := ih others tail
      rw [rewindGroups, contract.isValid_of_stands first]
      exact ⟨valid, .cons (at_fill first) rest⟩

theorem nextInsidePacks_of_at (at_ps : Forall₂ contract.At cs ps) :
    (nextInsidePacks cs).1 = (stepInside ps).isSome ∧
      Forall₂ contract.At (nextInsidePacks cs).2
        ((stepInside ps).getD (ps.map Place.restarted)) := by
  induction at_ps with
  | nil => exact ⟨rfl, .nil⟩
  | @cons c p cs ps here others ih =>
    obtain ⟨flag, rest⟩ := ih
    obtain ⟨packs, pack, left, later⟩ := p
    rw [nextInsidePacks]
    rcases left with _ | ⟨x, _ | ⟨y, left⟩⟩
    · exact absurd (contract.current_of_stands here.1) (by simp)
    · obtain ⟨wrapped, first⟩ := contract.nextInsidePack_last here.1
      have step : stepInside (⟨packs, pack, [x], later⟩ :: ps) =
          (stepInside ps).map (⟨packs, pack, pack, later⟩ :: ·) := rfl
      rw [wrapped, step]
      cases inside : stepInside ps with
      | none =>
        rw [inside] at flag rest
        exact ⟨flag, .cons (at_fill first) rest⟩
      | some qs =>
        rw [inside] at flag rest
        exact ⟨flag, .cons (at_fill first) rest⟩
    · obtain ⟨inside, moved⟩ := contract.nextInsidePack_more here.1
      rw [inside]
      exact ⟨rfl, .cons (at_fill moved) others⟩

theorem nextPackrows_of_at (rewindLast : Bool) (at_ps : Forall₂ contract.At cs ps) :
    (nextPackrows rewindLast cs).1 = (stepPacks ps).isSome ∧
      ∀ qs, stepPacks ps = some qs → Forall₂ contract.At (nextPackrows rewindLast cs).2 qs := by
  induction at_ps with
  | nil => exact ⟨rfl, fun qs none => nomatch none⟩
  | @cons c p cs ps here others ih =>
    obtain ⟨flag, rest⟩ := ih
    obtain ⟨packs, pack, left, later⟩ := p
    rw [nextPackrows]
    cases later with
    | cons next later =>
      have moved := contract.nextPackrow_more here.1
      rw [contract.isValid_of_stands moved]
      refine ⟨rfl, fun qs same => ?_⟩
      obtain rfl := Option.some.inj same
      exact .cons (at_fill moved) others
    | nil =>
      obtain ⟨pack0, later0, rfl⟩ := exists_cons_of_ne_nil (contract.packs_ne_nil here.1)
      obtain ⟨ended, of⟩ := contract.nextPackrow_last here.1
      have again := contract.rewind_cons of
      have step : stepPacks (⟨pack0 :: later0, pack, left, []⟩ :: ps) =
          (stepPacks ps).map (⟨pack0 :: later0, pack0, pack0, later0⟩ :: ·) := rfl
      rw [ended, step, Option.isSome_map]
      by_cases lastGroup : cs.isEmpty && !rewindLast
      · obtain ⟨isLast, _⟩ := Bool.and_eq_true_iff.mp lastGroup
        obtain rfl := isEmpty_iff.mp isLast
        cases others
        rw [if_pos lastGroup]
        exact ⟨rfl, fun qs none => nomatch none⟩
      · rw [if_neg lastGroup]
        dsimp only
        rw [contract.isValid_of_stands again]
        refine ⟨flag, fun qs same => ?_⟩
        obtain ⟨others', step', rfl⟩ := Option.map_eq_some_iff.mp same
        exact .cons (at_fill again) (rest others' step')

end GroupContract

end Brighthouse.Core
