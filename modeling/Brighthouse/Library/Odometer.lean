import Mathlib

/-!
# Odometers over packs

A group is a list of packs, a pack is a list of elements.  Several groups are walked
together pack by pack: all combinations of the elements of one choice of packs come
before those of the next choice, and the first group always moves fastest.  A `Place`
is the position of one group in such a walk.
-/

set_option autoImplicit false

namespace Brighthouse.Library.Odometer

open List

variable {α : Type}

/-! ## Choices -/

/-- All choices of one element of each list; the first list moves fastest. -/
def choices : List (List α) → List (List α)
  | [] => [[]]
  | wheel :: wheels => (choices wheels).flatMap fun rest => wheel.map (· :: rest)

theorem length_choices (wheels : List (List α)) :
    (choices wheels).length = (wheels.map length).prod := by
  induction wheels with
  | nil => rfl
  | cons wheel wheels ih =>
    have turned : ∀ rest : List α, (wheel.map (· :: rest)).length = wheel.length :=
      fun rest => length_map _
    rw [choices, length_flatMap, map_cons, prod_cons, ← ih]
    simp only [turned, map_const', sum_replicate, nsmul_eq_mul, Nat.cast_id, mul_comm]

variable {wheels : List (List α)}

theorem choices_of_mem_nil (empty : [] ∈ wheels) : choices wheels = [] := by
  induction wheels with
  | nil => exact absurd empty not_mem_nil
  | cons wheel wheels ih =>
    rw [choices]
    rcases mem_cons.mp empty with rfl | inside
    · simp
    · rw [ih inside, flatMap_nil]

variable {choice : List α}

theorem mem_choices : choice ∈ choices wheels ↔ List.Forall₂ (· ∈ ·) choice wheels := by
  induction wheels generalizing choice with
  | nil => simp [choices]
  | cons wheel wheels ih =>
    simp only [choices, mem_flatMap, mem_map, ih]
    constructor
    · rintro ⟨rest, chosen, x, inside, rfl⟩
      exact .cons inside chosen
    · intro chosen
      obtain ⟨x, rest, inside, others, rfl⟩ := forall₂_cons_right_iff.mp chosen
      exact ⟨rest, others, x, inside, rfl⟩

theorem nodup_choices (distinct : ∀ wheel ∈ wheels, wheel.Nodup) : (choices wheels).Nodup := by
  induction wheels with
  | nil => exact nodup_singleton _
  | cons wheel wheels ih =>
    have rests := ih fun other inside => distinct other (mem_cons_of_mem _ inside)
    rw [choices, nodup_flatMap]
    refine ⟨fun rest _ => (distinct wheel mem_cons_self).map fun x y same =>
      (cons.inj same).1, rests.imp fun other choice inOne inTwo => ?_⟩
    obtain ⟨x, _, rfl⟩ := mem_map.mp inOne
    obtain ⟨y, _, same⟩ := mem_map.mp inTwo
    exact other (cons.inj same).2.symm

theorem flatMap_comm_perm {β γ : Type} (xs : List α) (ys : List β) (f : α → β → List γ) :
    (xs.flatMap fun x => ys.flatMap fun y => f x y).Perm
      (ys.flatMap fun y => xs.flatMap fun x => f x y) := by
  induction xs with
  | nil => simp
  | cons x xs ih =>
    exact (ih.append_left _).trans (flatMap_append_perm ys _ _)

/-- Choosing packs first and then elements of the chosen packs gives the choices of
elements of all packs, in another order. -/
theorem choices_packs_perm (groups : List (List (List α))) :
    ((choices groups).flatMap choices).Perm (choices (groups.map flatten)) := by
  induction groups with
  | nil => exact .refl _
  | cons packs groups ih =>
    have inner : ∀ rest : List (List α),
        (packs.flatMap fun pack => choices (pack :: rest)).Perm
          ((choices rest).flatMap fun tail => packs.flatten.map (· :: tail)) := by
      intro rest
      simp only [map_flatten]
      exact flatMap_comm_perm packs (choices rest) fun pack tail => pack.map (· :: tail)
    have split : (choices (packs :: groups)).flatMap choices =
        (choices groups).flatMap fun rest => packs.flatMap fun pack => choices (pack :: rest) := by
      rw [choices, flatMap_assoc]
      simp only [flatMap_map]
    rw [split, map_cons]
    refine (List.Perm.flatMap_left _ fun rest _ => inner rest).trans ?_
    rw [← flatMap_assoc]
    exact ih.flatMap_right _

/-! ## Dials

A dial is a wheel with the part of it that is still ahead; its first element is the one
the dial shows. -/

def ahead : List (List α × List α) → List (List α)
  | [] => [[]]
  | (wheel, left) :: dials =>
    match ahead dials with
    | [] => []
    | rest :: later => left.map (· :: rest) ++ later.flatMap fun rest => wheel.map (· :: rest)

/-- The first dial moves on; a dial at its end starts again and moves the next one. -/
def turn : List (List α × List α) → Option (List (List α × List α))
  | [] => none
  | (wheel, left) :: dials =>
    match left with
    | _ :: next :: left => some ((wheel, next :: left) :: dials)
    | _ => (turn dials).map ((wheel, wheel) :: ·)

def Shown (choice : List α) (dials : List (List α × List α)) : Prop :=
  List.Forall₂ (fun x dial => dial.2.head? = some x) choice dials

theorem ahead_cons_whole (wheel : List α) (dials : List (List α × List α)) :
    ahead ((wheel, wheel) :: dials) =
      (ahead dials).flatMap fun rest => wheel.map (· :: rest) := by
  rw [ahead]
  cases ahead dials <;> rfl

theorem ahead_whole (wheels : List (List α)) :
    ahead (wheels.map fun wheel => (wheel, wheel)) = choices wheels := by
  induction wheels with
  | nil => rfl
  | cons wheel wheels ih => rw [map_cons, ahead_cons_whole, ih, choices]

theorem ahead_eq_cons {dials : List (List α × List α)} (shown : Shown choice dials) :
    ahead dials = choice :: ((turn dials).map ahead).getD [] := by
  induction shown with
  | nil => rfl
  | @cons x dial choice dials head shown ih =>
    obtain ⟨wheel, left⟩ := dial
    cases left with
    | nil => cases head
    | cons y left =>
      obtain rfl : y = x := Option.some.inj head
      rw [ahead, ih]
      cases left with
      | cons next left =>
        rw [turn, Option.map_some, ahead, ih]
        rfl
      | nil =>
        have wrapped : turn ((wheel, [y]) :: dials) =
            (turn dials).map ((wheel, wheel) :: ·) := rfl
        rw [wrapped]
        cases turn dials with
        | none => rfl
        | some turned =>
          simp only [Option.map_some, Option.getD_some, ahead_cons_whole, map_cons,
            map_nil, singleton_append]

/-! ## Places -/

/-- A group, its current pack, what is left of that pack and the packs after it. -/
structure Place (α : Type) where
  packs : List (List α)
  pack : List α
  left : List α
  later : List (List α)

namespace Place

def inner (p : Place α) : List α × List α := (p.pack, p.left)

def outer (p : Place α) : List (List α) × List (List α) := (p.packs, p.pack :: p.later)

def restarted (p : Place α) : Place α := { p with left := p.pack }

def enter (p : Place α) (pack : List α) (later : List (List α)) : Place α :=
  { p with pack := pack, left := pack, later := later }

def rewound (p : Place α) : Place α :=
  match p.packs with
  | [] => p
  | pack :: later => p.enter pack later

def map {β : Type} (g : α → β) (p : Place α) : Place β :=
  ⟨p.packs.map (List.map g), p.pack.map g, p.left.map g, p.later.map (List.map g)⟩

end Place

def stepInside : List (Place α) → Option (List (Place α))
  | [] => none
  | p :: places =>
    match p.left with
    | _ :: next :: left => some ({ p with left := next :: left } :: places)
    | _ => (stepInside places).map (p.restarted :: ·)

def stepPacks : List (Place α) → Option (List (Place α))
  | [] => none
  | p :: places =>
    match p.later with
    | pack :: later => some (p.enter pack later :: places)
    | [] => (stepPacks places).map (p.rewound :: ·)

def tuplesLeft (places : List (Place α)) : List (List α) := ahead (places.map Place.inner)

def packrowsLeft (places : List (Place α)) : List (List (List α)) := ahead (places.map Place.outer)

theorem turn_inner (places : List (Place α)) :
    turn (places.map Place.inner) = (stepInside places).map (map Place.inner) := by
  induction places with
  | nil => rfl
  | cons p places ih =>
    obtain ⟨packs, pack, left, later⟩ := p
    rcases left with _ | ⟨x, _ | ⟨y, left⟩⟩ <;>
      simp [turn, stepInside, ih, Place.inner, Place.restarted, Function.comp_def]

variable {places : List (Place α)}

theorem turn_outer (nonempty : ∀ p ∈ places, p.packs ≠ []) :
    turn (places.map Place.outer) = (stepPacks places).map (map Place.outer) := by
  induction places with
  | nil => rfl
  | cons p places ih =>
    have others := ih fun other inside => nonempty other (mem_cons_of_mem _ inside)
    obtain ⟨packs, pack, left, later⟩ := p
    cases later with
    | cons next later => rfl
    | nil =>
      cases packs with
      | nil => exact absurd rfl (nonempty _ mem_cons_self)
      | cons first packs =>
        simp [turn, stepPacks, others, Place.outer, Place.rewound, Place.enter, Function.comp_def]

theorem tuplesLeft_eq_cons (shown : Shown choice (places.map Place.inner)) :
    tuplesLeft places = choice :: ((stepInside places).map tuplesLeft).getD [] := by
  rw [tuplesLeft, ahead_eq_cons shown, turn_inner, Option.map_map]
  rfl

theorem packrowsLeft_eq_cons (nonempty : ∀ p ∈ places, p.packs ≠ []) :
    packrowsLeft places =
      places.map Place.pack :: ((stepPacks places).map packrowsLeft).getD [] := by
  have shown : Shown (places.map Place.pack) (places.map Place.outer) := by
    rw [Shown, forall₂_map_left_iff, forall₂_map_right_iff, forall₂_same]
    exact fun p _ => rfl
  rw [packrowsLeft, ahead_eq_cons shown, turn_outer nonempty, Option.map_map]
  rfl

theorem tuplesLeft_started (started : ∀ p ∈ places, p.left = p.pack) :
    tuplesLeft places = choices (places.map Place.pack) := by
  have whole : places.map Place.inner =
      (places.map Place.pack).map fun wheel => (wheel, wheel) := by
    rw [map_map]
    refine map_congr_left fun p inside => ?_
    rw [Place.inner, started p inside]
    rfl
  rw [tuplesLeft, whole, ahead_whole]

end Brighthouse.Library.Odometer
