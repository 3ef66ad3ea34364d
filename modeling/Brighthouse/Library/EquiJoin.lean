import Mathlib

/-!
# Joins of two lists

The pairs of partners of two lists, and the members of either list that have no partner.
The lists are compared up to order, so that they can be put together from parts.
-/

set_option autoImplicit false

namespace Brighthouse.Library.EquiJoin

open List

variable {α β : Type} (partner : α → β → Bool)

def joined (as : List α) (bs : List β) : List (α × β) :=
  bs.flatMap fun b => (as.filter (partner · b)).map (·, b)

def unmatchedLeft (as : List α) (bs : List β) : List α := as.filter fun a => !bs.any (partner a)

def unmatchedRight (as : List α) (bs : List β) : List β := bs.filter fun b => !as.any (partner · b)

variable {partner} {as as' : List α} {bs : List β}

theorem any_congr_mem {γ : Type} {l : List γ} {p q : γ → Bool} (same : ∀ x ∈ l, p x = q x) :
    l.any p = l.any q := by
  rw [Bool.eq_iff_iff, any_eq_true, any_eq_true]
  exact exists_congr fun x => and_congr_right fun mem => by rw [same x mem]

theorem joined_congr {partner' : α → β → Bool}
    (same : ∀ a ∈ as, ∀ b ∈ bs, partner a b = partner' a b) :
    joined partner as bs = joined partner' as bs :=
  flatMap_congr fun b mem => congrArg (map (·, b)) (filter_congr fun a isIn => same a isIn b mem)

theorem unmatchedLeft_congr {partner' : α → β → Bool}
    (same : ∀ a ∈ as, ∀ b ∈ bs, partner a b = partner' a b) :
    unmatchedLeft partner as bs = unmatchedLeft partner' as bs :=
  filter_congr fun a isIn => by rw [any_congr_mem (same a isIn)]

theorem unmatchedRight_congr {partner' : α → β → Bool}
    (same : ∀ a ∈ as, ∀ b ∈ bs, partner a b = partner' a b) :
    unmatchedRight partner as bs = unmatchedRight partner' as bs :=
  filter_congr fun b mem => by rw [any_congr_mem fun a isIn => same a isIn b mem]

theorem joined_append_left :
    (joined partner (as ++ as') bs).Perm (joined partner as bs ++ joined partner as' bs) := by
  have split : joined partner (as ++ as') bs =
      bs.flatMap fun b => ((as.filter (partner · b)).map (·, b) ++
        (as'.filter (partner · b)).map (·, b)) := by
    simp only [joined, filter_append, map_append]
  rw [split]
  exact (flatMap_append_perm bs _ _).symm

@[simp]
theorem joined_nil_left : joined partner [] bs = [] := by
  rw [joined, flatMap_eq_nil_iff]
  intro b _
  rfl

@[simp]
theorem joined_nil_right : joined partner as [] = [] := rfl

theorem joined_cons_right (b : β) :
    joined partner as (b :: bs) = (as.filter (partner · b)).map (·, b) ++ joined partner as bs :=
  flatMap_cons

theorem joined_perm_left (perm : as.Perm as') :
    (joined partner as bs).Perm (joined partner as' bs) :=
  List.Perm.flatMap_left bs fun b _ => (perm.filter (partner · b)).map (·, b)

theorem joined_singleton_left (a : α) :
    joined partner [a] bs = (bs.filter (partner a)).map (a, ·) := by
  induction bs with
  | nil => rfl
  | cons b bs ih =>
    rw [joined_cons_right, ih]
    cases here : partner a b with
    | true => simp [here]
    | false => simp [here]

theorem joined_swap :
    ((joined partner as bs).map Prod.swap).Perm (joined (fun b a => partner a b) bs as) := by
  induction as with
  | nil => simp
  | cons a as ih =>
    have first : (joined partner [a] bs).map Prod.swap =
        (bs.filter (partner a)).map (·, a) := by
      rw [joined_singleton_left, map_map]
      rfl
    have parts : (joined partner (a :: as) bs).Perm
        (joined partner [a] bs ++ joined partner as bs) :=
      @joined_append_left α β partner [a] as bs
    refine (parts.map Prod.swap).trans ?_
    rw [map_append, first]
    exact ih.append_left _

theorem pairs_perm (as : List α) (bs : List β) :
    (as.flatMap fun a => bs.map (a, ·)).Perm (bs.flatMap fun b => as.map (·, b)) := by
  have all : ∀ {γ : Type} (l : List γ), l.filter (fun _ => true) = l :=
    fun l => filter_eq_self.mpr fun _ _ => rfl
  have swapped := (@joined_swap β α (fun _ _ => true) bs as).symm
  simp only [joined, all, map_flatMap, map_map] at swapped
  exact swapped.symm

theorem joined_map {α' β' : Type} (f : α' → α) (g : β' → β) (as : List α') (bs : List β') :
    joined partner (as.map f) (bs.map g) =
      (joined (fun a b => partner (f a) (g b)) as bs).map (Prod.map f g) := by
  rw [joined, joined, flatMap_map, map_flatMap]
  refine flatMap_congr fun b _ => ?_
  rw [filter_map, map_map, map_map]
  rfl

theorem joined_filter_left {q : α → Bool}
    (alone : ∀ a ∈ as, q a = false → ∀ b ∈ bs, partner a b = false) :
    joined partner (as.filter q) bs = joined partner as bs := by
  refine flatMap_congr fun b mem => ?_
  rw [filter_filter]
  refine congrArg (map (·, b)) (filter_congr fun a isIn => ?_)
  cases chosen : q a with
  | true => rw [Bool.and_true]
  | false => rw [Bool.and_false, alone a isIn chosen b mem]

theorem unmatchedLeft_perm (perm : as.Perm as') :
    (unmatchedLeft partner as bs).Perm (unmatchedLeft partner as' bs) :=
  perm.filter _

theorem unmatchedLeft_append :
    unmatchedLeft partner (as ++ as') bs =
      unmatchedLeft partner as bs ++ unmatchedLeft partner as' bs :=
  filter_append ..

theorem unmatchedRight_cons (b : β) :
    unmatchedRight partner as (b :: bs) =
      if as.any (partner · b) then unmatchedRight partner as bs
      else b :: unmatchedRight partner as bs := by
  rw [unmatchedRight, filter_cons]
  cases as.any (partner · b) <;> rfl

end Brighthouse.Library.EquiJoin
