import Brighthouse.Core.DimensionGroup
import Brighthouse.Core.FilterOnesIteratorSpec
import Brighthouse.Core.MIIteratorSpec

/-!
# Groups with a filter

The packs of a group with a filter are the blocks of the filter that have ones.  The
iterators of such groups walk through these packs.
-/

set_option autoImplicit false

namespace Brighthouse.Core

open Library.BitCount Library.Odometer List FilterOnesIterator Nat

/-! ## The packs of a filter -/

def packOf (rows : Nat) (bits : Nat → Bool) (b : Nat) : List Nat :=
  onesIn bits (b * 65536) (blockEnd rows b)

def packsFrom (rows : Nat) (bits : Nat → Bool) (b : Nat) : List (List Nat) :=
  ((List.range' b ((rows + 65535) / 65536 - b)).map (packOf rows bits)).filter fun pack =>
    !pack.isEmpty

def filterPlace (rows : Nat) (bits : Nat → Bool) (r : Nat) : Place Nat where
  packs := packsFrom rows bits 0
  pack := packOf rows bits (r / 65536)
  left := onesIn bits r (blockEnd rows (r / 65536))
  later := packsFrom rows bits (r / 65536 + 1)

variable {rows b r next first : Nat} {bits : Nat → Bool}

theorem packsFrom_step (lt : b < (rows + 65535) / 65536) :
    packsFrom rows bits b =
      (if (packOf rows bits b).isEmpty then [] else [packOf rows bits b]) ++
        packsFrom rows bits (b + 1) := by
  have blocks : (rows + 65535) / 65536 - b = (rows + 65535) / 65536 - (b + 1) + 1 := by
    omega
  rw [packsFrom, blocks, range'_succ, map_cons, filter_cons]
  cases (packOf rows bits b).isEmpty with
  | true => rw [Bool.not_true, if_neg Bool.false_ne_true, if_pos rfl, nil_append, packsFrom]
  | false =>
    rw [Bool.not_false, if_pos rfl, if_neg Bool.false_ne_true, singleton_append, packsFrom]

theorem packsFrom_of_le (le : (rows + 65535) / 65536 ≤ b) : packsFrom rows bits b = [] := by
  rw [packsFrom, Nat.sub_eq_zero_of_le le]
  rfl

theorem onesIn_packOf (rows : Nat) (bits : Nat → Bool) (b : Nat) :
    onesIn bits (b * 65536) rows = packOf rows bits b ++ onesIn bits ((b + 1) * 65536) rows := by
  have split : onesIn bits (b * 65536 + 0) rows = _ := onesIn_block (zero_le 65536)
  rwa [add_zero] at split

theorem packsFrom_of_none (none : onesIn bits (b * 65536) rows = []) :
    packsFrom rows bits b = [] := by
  generalize left : (rows + 65535) / 65536 - b = blocks
  induction blocks generalizing b with
  | zero => exact packsFrom_of_le (by omega)
  | succ blocks ih =>
    rw [onesIn_packOf, append_eq_nil_iff] at none
    rw [packsFrom_step (by omega), none.1, ih none.2 (by omega)]
    rfl

theorem packsFrom_of_some {rest : List Nat} (some : onesIn bits (b * 65536) rows = r :: rest) :
    packsFrom rows bits b = packOf rows bits (r / 65536) :: packsFrom rows bits (r / 65536 + 1) ∧
      packOf rows bits (r / 65536) = onesIn bits r (blockEnd rows (r / 65536)) := by
  generalize left : (rows + 65535) / 65536 - b = blocks
  induction blocks generalizing b with
  | zero =>
    rw [onesIn_of_le (by omega)] at some
    cases some
  | succ blocks ih =>
    rw [onesIn_packOf] at some
    rw [packsFrom_step (by omega)]
    cases pack : packOf rows bits b with
    | nil =>
      rw [pack] at some
      exact ih some (by omega)
    | cons first others =>
      rw [pack, cons_append, cons.injEq] at some
      obtain ⟨rfl, _⟩ := some
      obtain ⟨low, high, _, here⟩ := onesIn_of_cons pack
      have block : first / 65536 = b := by
        rw [blockEnd] at high
        omega
      rw [block, pack, here]
      exact ⟨rfl, rfl⟩

theorem none_of_packsFrom (none : packsFrom rows bits b = []) :
    onesIn bits (b * 65536) rows = [] := by
  cases ahead : onesIn bits (b * 65536) rows with
  | nil => rfl
  | cons r rest =>
    rw [(packsFrom_of_some ahead).1] at none
    cases none

/-! ## Places of the rows -/

section Places

variable {τ : Type} {label : Nat → τ} {packs later : List (List τ)} {pack left : List τ} {x y : τ}

theorem filterPlace_same {rest : List Nat} (inBlock : next / 65536 = r / 65536)
    (here : onesIn bits next (blockEnd rows (r / 65536)) = rest) :
    filterPlace rows bits next = { filterPlace rows bits r with left := rest } := by
  rw [filterPlace, filterPlace, inBlock, here]

theorem row_of_onesIn {rest : List Nat}
    (ahead : onesIn bits first (blockEnd rows (r / 65536)) = next :: rest)
    (low : r / 65536 * 65536 ≤ first) : next / 65536 = r / 65536 := by
  obtain ⟨le, high, _, _⟩ := onesIn_of_cons ahead
  rw [blockEnd] at high
  omega

theorem place_left (inRows : r < rows) (set : bits r = true)
    (place : (filterPlace rows bits r).map label = ⟨packs, pack, x :: left, later⟩) :
    (onesIn bits (r + 1) (blockEnd rows (r / 65536))).map label = left := by
  have isLeft := (Place.mk.inj place).2.2.1
  rw [filterPlace, onesIn_cons (by rw [blockEnd]; omega) set, map_cons] at isLeft
  exact (List.cons.inj isLeft).2

theorem place_more (inRows : r < rows) (set : bits r = true)
    (place : (filterPlace rows bits r).map label = ⟨packs, pack, x :: y :: left, later⟩) :
    ∃ next rest, onesIn bits (r + 1) (blockEnd rows (r / 65536)) = next :: rest ∧
      (filterPlace rows bits next).map label = ⟨packs, pack, y :: left, later⟩ := by
  obtain ⟨isPacks, isPack, -, isLater⟩ := Place.mk.inj place
  obtain ⟨next, rest, ahead, rfl, rfl⟩ := map_eq_cons_iff.mp (place_left inRows set place)
  have inBlock := row_of_onesIn ahead (by omega)
  refine ⟨next, rest, ahead, ?_⟩
  rw [filterPlace_same inBlock (onesIn_of_cons ahead).2.2.2, ← isPacks, ← isPack, ← isLater]
  rfl

theorem place_last (inRows : r < rows) (set : bits r = true)
    (place : (filterPlace rows bits r).map label = ⟨packs, pack, [x], later⟩) :
    onesIn bits (r + 1) (blockEnd rows (r / 65536)) = [] ∧
      ∃ first rest, onesIn bits (r / 65536 * 65536) (blockEnd rows (r / 65536)) = first :: rest ∧
        (filterPlace rows bits first).map label = ⟨packs, pack, pack, later⟩ := by
  obtain ⟨isPacks, isPack, -, isLater⟩ := Place.mk.inj place
  refine ⟨map_eq_nil_iff.mp (place_left inRows set place), ?_⟩
  have mem : r ∈ onesIn bits (r / 65536 * 65536) (blockEnd rows (r / 65536)) :=
    mem_onesIn.mpr ⟨⟨by omega, by rw [blockEnd]; omega⟩, set⟩
  obtain ⟨first, rest, whole⟩ := exists_cons_of_ne_nil (ne_nil_of_mem mem)
  have inBlock := row_of_onesIn whole (le_refl _)
  have isWhole : packOf rows bits (r / 65536) = first :: rest := whole
  refine ⟨first, rest, whole, ?_⟩
  rw [filterPlace_same inBlock (onesIn_of_cons whole).2.2.2, ← isPacks, ← isPack, ← isLater,
    ← isWhole]
  rfl

theorem place_next {next : List τ}
    (place : (filterPlace rows bits r).map label = ⟨packs, pack, left, next :: later⟩) :
    ∃ first rest, onesIn bits ((r / 65536 + 1) * 65536) rows = first :: rest ∧
      (filterPlace rows bits first).map label = ⟨packs, next, next, later⟩ := by
  obtain ⟨isPacks, _, _, isLater⟩ := Place.mk.inj place
  cases ahead : onesIn bits ((r / 65536 + 1) * 65536) rows with
  | nil =>
    rw [filterPlace, packsFrom_of_none ahead] at isLater
    cases isLater
  | cons first rest =>
    obtain ⟨split, whole⟩ := packsFrom_of_some ahead
    rw [filterPlace, split, map_cons, cons.injEq] at isLater
    refine ⟨first, rest, rfl, ?_⟩
    rw [Place.map, filterPlace, ← whole, isLater.1, isLater.2, ← isPacks]
    rfl

theorem place_end (place : (filterPlace rows bits r).map label = ⟨packs, pack, left, []⟩) :
    onesIn bits ((r / 65536 + 1) * 65536) rows = [] := by
  obtain ⟨_, _, _, isLater⟩ := Place.mk.inj place
  exact none_of_packsFrom (map_eq_nil_iff.mp isLater)

theorem place_first {packs : List (List τ)}
    (some : (packsFrom rows bits 0).map (map label) = pack :: packs) :
    ∃ first rest, onesIn bits 0 rows = first :: rest ∧
      (filterPlace rows bits first).map label = ⟨pack :: packs, pack, pack, packs⟩ := by
  cases ahead : onesIn bits 0 rows with
  | nil =>
    rw [packsFrom_of_none ((congrArg (onesIn bits · rows) (zero_mul 65536)).trans ahead)] at some
    cases some
  | cons first rest =>
    obtain ⟨split, whole⟩ :=
      packsFrom_of_some ((congrArg (onesIn bits · rows) (zero_mul 65536)).trans ahead)
    refine ⟨first, rest, rfl, ?_⟩
    rw [Place.map, filterPlace, some]
    rw [split, map_cons, cons.injEq] at some
    rw [← whole, some.1, some.2]

end Places

/-! ## The iterator of a filter -/

structure FilterStands (fi : FilterOnesIterator) (rows : Nat) (bits : Nat → Bool) (r : Nat) :
    Prop where
  here : fi.At rows bits r
  counted : fi.Counted rows bits r

theorem finds_stands {fi : FilterOnesIterator} {f : Filter} {rowsAhead rest : List Nat}
    {counts : Prop} (found : fi.Finds f rows bits rowsAhead counts)
    (some : rowsAhead = r :: rest) (counted : counts) : FilterStands fi rows bits r :=
  ⟨(found.some r rest some).1, (found.some r rest some).2 counted⟩

section
variable {fi : FilterOnesIterator} (stands : FilterStands fi rows bits r)
include stands

theorem FilterStands.left_ne_nil :
    onesIn bits r (blockEnd rows (r / 65536)) =
      r :: onesIn bits (r + 1) (blockEnd rows (r / 65536)) :=
  stands.here.cons

theorem FilterStands.packs_ne_nil : packsFrom rows bits 0 ≠ [] := by
  have mem : r ∈ onesIn bits (0 * 65536) rows :=
    mem_onesIn.mpr ⟨⟨by omega, stands.here.inRows⟩, stands.here.isSet⟩
  obtain ⟨first, rest, some⟩ := exists_cons_of_ne_nil (ne_nil_of_mem mem)
  rw [(packsFrom_of_some some).1]
  exact cons_ne_nil _ _

theorem FilterStands.next_of_last (none : onesIn bits (r + 1) (blockEnd rows (r / 65536)) = []) :
    fi.increment.Finds fi.f rows bits (onesIn bits ((r / 65536 + 1) * 65536) rows) True := by
  have found := increment_finds stands.here
  rw [onesIn_succ, none] at found
  exact found.mono fun _ => stands.counted

theorem FilterStands.nextPack_end {τ : Type} {label : Nat → τ} {packs : List (List τ)}
    {pack left : List τ} (place : (filterPlace rows bits r).map label = ⟨packs, pack, left, []⟩) :
    fi.nextPack.valid = false ∧ fi.nextPack.f.Shows rows bits := by
  have found := nextPack_finds stands.here
  exact ⟨found.none (place_end place), found.sameFilter.symm ▸ stands.here.shown⟩

end

section
variable {τ : Type} {label : (Nat → Bool) → Nat → τ} {packs : List (List τ)}
  {fi fi' : FilterOnesIterator}

theorem walks_of_same (same : fi'.f = fi.f) (walks : ∃ rows bits, fi.f.Shows rows bits ∧
      packs = (packsFrom rows bits 0).map (map (label bits))) :
    ∃ rows bits, fi'.f.Shows rows bits ∧
      packs = (packsFrom rows bits 0).map (map (label bits)) := by
  rwa [same]

theorem rewind_of_none (walks : ∃ rows bits, fi.f.Shows rows bits ∧
      [] = (packsFrom rows bits 0).map (map (label bits))) : fi.rewind.valid = false := by
  obtain ⟨rows, bits, shown, none⟩ := walks
  have noRows : onesIn bits (0 * 65536) rows = [] := none_of_packsFrom (map_eq_nil_iff.mp none.symm)
  exact (rewind_finds shown).none noRows

end

namespace DGFilterIterator

/-- The iterator of a filter walks through the packs of the filter. -/
def contract : GroupContract DGFilterIterator GroupTuple where
  Of packs it := ∃ rows bits, it.fi.f.Shows rows bits ∧
    packs = (packsFrom rows bits 0).map (List.map .row)
  Stands it p := ∃ rows bits r, FilterStands it.fi rows bits r ∧ it.valid = true ∧
    p = (filterPlace rows bits r).map .row
  isFilter _ := true
  isValid_of_stands := by
    rintro it p ⟨rows, bits, r, stands, valid, rfl⟩
    exact valid
  current_of_stands := by
    rintro it p ⟨rows, bits, r, stands, valid, rfl⟩
    have position : it.fi.curPosition.toNat = r := by rw [stands.here.position, Int.toNat_natCast]
    show ((onesIn bits r (blockEnd rows (r / 65536))).map GroupTuple.row).head? = _
    rw [stands.left_ne_nil, List.map_cons, List.head?_cons]
    exact congrArg (some ∘ GroupTuple.row) position.symm
  getPackSizeLeft_of_stands := by
    rintro it p ⟨rows, bits, r, stands, valid, rfl⟩
    exact stands.counted.sizeLeft.trans (congrArg Int.ofNat (List.length_map _).symm)
  packs_ne_nil := by
    rintro it p ⟨rows, bits, r, stands, valid, rfl⟩
    exact fun none => stands.packs_ne_nil (List.map_eq_nil_iff.mp none)
  rewind_nil := rewind_of_none
  rewind_cons := by
    rintro it pack later ⟨rows, bits, shown, some⟩
    obtain ⟨first, rest, ahead, place⟩ := place_first some.symm
    have stands := finds_stands (rewind_finds shown) ahead trivial
    exact ⟨rows, bits, first, stands, stands.here.valid, place.symm⟩
  nextInsidePack_more := by
    rintro it packs later pack left x y ⟨rows, bits, r, stands, valid, place⟩
    obtain ⟨next, rest, ahead, moved⟩ := place_more stands.here.inRows stands.here.isSet place.symm
    obtain ⟨flag, here, counts⟩ := nextInsidePack_more stands.here ahead
    exact ⟨flag, rows, bits, next, ⟨here, counts stands.counted⟩, here.valid, moved.symm⟩
  nextInsidePack_last := by
    rintro it packs later pack x ⟨rows, bits, r, stands, valid, place⟩
    obtain ⟨none, first, rest, ahead, moved⟩ :=
      place_last stands.here.inRows stands.here.isSet place.symm
    obtain ⟨flag, here, counted⟩ := nextInsidePack_last stands.here none ahead
    exact ⟨flag, rows, bits, first, ⟨here, counted⟩, here.valid, moved.symm⟩
  nextPackrow_more := by
    rintro it packs later pack left next ⟨rows, bits, r, stands, valid, place⟩
    obtain ⟨first, rest, ahead, moved⟩ := place_next place.symm
    have stands' := finds_stands (nextPack_finds stands.here) ahead trivial
    exact ⟨rows, bits, first, stands', stands'.here.valid, moved.symm⟩
  nextPackrow_last := by
    rintro it packs pack left ⟨rows, bits, r, stands, valid, place⟩
    obtain ⟨invalid, shown⟩ := stands.nextPack_end place.symm
    exact ⟨invalid, rows, bits, shown, (Place.mk.inj place).1⟩
  increment_more := by
    rintro it packs later pack left x y _ ⟨rows, bits, r, stands, valid, place⟩
    obtain ⟨next, rest, ahead, moved⟩ := place_more stands.here.inRows stands.here.isSet place.symm
    have found := increment_finds stands.here
    rw [onesIn_succ, ahead, List.cons_append] at found
    have stands' := finds_stands found rfl stands.counted
    exact ⟨rows, bits, next, stands', stands'.here.valid, moved.symm⟩
  increment_pack := by
    rintro it packs later pack next x _ ⟨rows, bits, r, stands, valid, place⟩
    have none := (place_last stands.here.inRows stands.here.isSet place.symm).1
    obtain ⟨first, rest, ahead, moved⟩ := place_next place.symm
    have stands' := finds_stands (stands.next_of_last none) ahead trivial
    exact ⟨rows, bits, first, stands', stands'.here.valid, moved.symm⟩
  increment_last := by
    rintro it packs pack x _ ⟨rows, bits, r, stands, valid, place⟩
    have none := (place_last stands.here.inRows stands.here.isSet place.symm).1
    exact (stands.next_of_last none).none (place_end place.symm)
  of_increment := walks_of_same (increment_f _)
  of_rewind := walks_of_same (increment_f _)
  of_nextInsidePack := walks_of_same (nextInsidePack_f _)
  of_nextPackrow := walks_of_same (increment_f _)
  isFilter_rewind _ := rfl
  isFilter_nextPackrow _ := rfl
  isFilter_increment _ := rfl

end DGFilterIterator

/-! ## The iterator of a filter with index tables -/

namespace DGVirtualIterator

/-- The entry of the index tables for row `r` is the number of the rows before it. -/
def label (bits : Nat → Bool) (r : Nat) : GroupTuple := .rowIndex r (onesIn bits 0 r).length

structure Stands (it : DGVirtualIterator) (rows : Nat) (bits : Nat → Bool) (r : Nat) : Prop extends
    FilterStands it.fi rows bits r where
  valid : it.valid = true
  dimPos : it.dimPos = (onesIn bits 0 r).length
  curPackStart : it.curPackStart = (onesIn bits 0 (r / 65536 * 65536)).length

variable {it : DGVirtualIterator} {rest : List Nat}

theorem length_onesIn_block {low : Nat} (le : low ≤ r / 65536 * 65536)
    (gap : onesIn bits low r = []) :
    (onesIn bits 0 r).length = (onesIn bits 0 (r / 65536 * 65536)).length := by
  refine length_onesIn_of_gap (div_mul_le_self r 65536) ?_
  rw [eq_nil_iff_forall_not_mem] at gap ⊢
  intro m inside
  obtain ⟨⟨inBlock, before⟩, set⟩ := mem_onesIn.mp inside
  exact gap m (mem_onesIn.mpr ⟨⟨le.trans inBlock, before⟩, set⟩)

theorem stands_rewind (shown : it.fi.f.Shows rows bits) (ahead : onesIn bits 0 rows = r :: rest) :
    it.rewind.Stands rows bits r := by
  have stands := finds_stands (rewind_finds shown) ahead trivial
  have gap := onesIn_before_first ahead
  exact
    { toFilterStands := stands
      valid := stands.here.valid
      dimPos := by rw [gap]; rfl
      curPackStart := by rw [← length_onesIn_block (zero_le _) gap, gap]; rfl }

theorem stands_nextInsidePack (stands : it.Stands rows bits r)
    (ahead : onesIn bits (r + 1) (blockEnd rows (r / 65536)) = next :: rest) :
    it.nextInsidePack.1 = true ∧ it.nextInsidePack.2.Stands rows bits next := by
  obtain ⟨flag, here, counts⟩ := nextInsidePack_more stands.here ahead
  have low := (onesIn_of_cons ahead).1
  have gap := length_onesIn_of_gap low (onesIn_before_first ahead)
  have step : (onesIn bits 0 (r + 1)).length = (onesIn bits 0 r).length + 1 := by
    rw [onesIn_append (zero_le r) (le_succ r),
      onesIn_cons (lt_succ_self r) stands.here.isSet, onesIn_of_le (le_refl _)]
    exact length_append
  refine ⟨flag,
    { here := here, counted := counts stands.counted, valid := here.valid, dimPos := ?_
      curPackStart := ?_ }⟩
  · rw [nextInsidePack]
    rw [flag, stands.dimPos, gap, step]
    rfl
  · rw [row_of_onesIn ahead (by omega)]
    exact stands.curPackStart

theorem stands_restart (stands : it.Stands rows bits r)
    (none : onesIn bits (r + 1) (blockEnd rows (r / 65536)) = [])
    (ahead : onesIn bits (r / 65536 * 65536) (blockEnd rows (r / 65536)) = first :: rest) :
    it.nextInsidePack.1 = false ∧ it.nextInsidePack.2.Stands rows bits first := by
  obtain ⟨flag, here, counted⟩ := nextInsidePack_last stands.here none ahead
  have gap := length_onesIn_of_gap (onesIn_of_cons ahead).1 (onesIn_before_first ahead)
  refine ⟨flag,
    { here := here, counted := counted, valid := here.valid, dimPos := ?_, curPackStart := ?_ }⟩
  · rw [nextInsidePack]
    rw [flag, gap]
    exact stands.curPackStart
  · rw [row_of_onesIn ahead (le_refl _)]
    exact stands.curPackStart

theorem block_start_le {block : Nat} (low : block * 65536 ≤ first) :
    block * 65536 ≤ first / 65536 * 65536 := by
  omega

theorem stands_nextPackrow (stands : it.Stands rows bits r)
    (ahead : onesIn bits ((r / 65536 + 1) * 65536) rows = first :: rest) :
    it.nextPackrow.Stands rows bits first := by
  have stands' := finds_stands (nextPack_finds stands.here) ahead trivial
  obtain ⟨low, high, _, _⟩ := onesIn_of_cons ahead
  have last : blockEnd rows (r / 65536) = (r / 65536 + 1) * 65536 := by
    rw [blockEnd]
    omega
  have gap := onesIn_before_first ahead
  have size := stands.counted.sizeLeft
  rw [last] at size
  have parts : onesIn bits 0 ((r / 65536 + 1) * 65536) =
      onesIn bits 0 r ++ onesIn bits r ((r / 65536 + 1) * 65536) :=
    onesIn_append (zero_le r) (by omega)
  have position : it.dimPos + it.fi.getPackSizeLeft = (onesIn bits 0 first).length := by
    rw [stands.dimPos, size, length_onesIn_of_gap low gap, parts, length_append]
    rfl
  have block := length_onesIn_block (block_start_le low) gap
  exact
    { toFilterStands := stands'
      valid := stands'.here.valid
      dimPos := position
      curPackStart := position.trans (congrArg Int.ofNat block) }

def contract : GroupContract DGVirtualIterator GroupTuple where
  Of packs it := ∃ rows bits, it.fi.f.Shows rows bits ∧
    packs = (packsFrom rows bits 0).map (List.map (label bits))
  Stands it p := ∃ rows bits r, it.Stands rows bits r ∧
    p = (filterPlace rows bits r).map (label bits)
  isFilter _ := false
  isValid_of_stands := by
    rintro it p ⟨rows, bits, r, stands, rfl⟩
    exact stands.valid
  current_of_stands := by
    rintro it p ⟨rows, bits, r, stands, rfl⟩
    have current : GroupIterator.current it = label bits r := by
      show GroupTuple.rowIndex it.fi.curPosition.toNat it.dimPos.toNat = _
      rw [stands.here.position, stands.dimPos, Int.toNat_natCast, Int.toNat_natCast]
      rfl
    show ((onesIn bits r (blockEnd rows (r / 65536))).map (label bits)).head? = _
    rw [stands.left_ne_nil, List.map_cons, List.head?_cons, current]
  getPackSizeLeft_of_stands := by
    rintro it p ⟨rows, bits, r, stands, rfl⟩
    exact stands.counted.sizeLeft.trans (congrArg Int.ofNat (List.length_map _).symm)
  packs_ne_nil := by
    rintro it p ⟨rows, bits, r, stands, rfl⟩
    exact fun none => stands.packs_ne_nil (List.map_eq_nil_iff.mp none)
  rewind_nil := rewind_of_none
  rewind_cons := by
    rintro it pack later ⟨rows, bits, shown, some⟩
    obtain ⟨first, rest, ahead, place⟩ := place_first some.symm
    exact ⟨rows, bits, first, stands_rewind shown ahead, place.symm⟩
  nextInsidePack_more := by
    rintro it packs later pack left x y ⟨rows, bits, r, stands, place⟩
    obtain ⟨next, rest, ahead, moved⟩ := place_more stands.here.inRows stands.here.isSet place.symm
    obtain ⟨flag, stands'⟩ := stands_nextInsidePack stands ahead
    exact ⟨flag, rows, bits, next, stands', moved.symm⟩
  nextInsidePack_last := by
    rintro it packs later pack x ⟨rows, bits, r, stands, place⟩
    obtain ⟨none, first, rest, ahead, moved⟩ :=
      place_last stands.here.inRows stands.here.isSet place.symm
    obtain ⟨flag, stands'⟩ := stands_restart stands none ahead
    exact ⟨flag, rows, bits, first, stands', moved.symm⟩
  nextPackrow_more := by
    rintro it packs later pack left next ⟨rows, bits, r, stands, place⟩
    obtain ⟨first, rest, ahead, moved⟩ := place_next place.symm
    exact ⟨rows, bits, first, stands_nextPackrow stands ahead, moved.symm⟩
  nextPackrow_last := by
    rintro it packs pack left ⟨rows, bits, r, stands, place⟩
    obtain ⟨invalid, shown⟩ := stands.nextPack_end place.symm
    exact ⟨invalid, rows, bits, shown, (Place.mk.inj place).1⟩
  increment_more filter := absurd filter Bool.false_ne_true
  increment_pack filter := absurd filter Bool.false_ne_true
  increment_last filter := absurd filter Bool.false_ne_true
  of_increment := walks_of_same (increment_f _)
  of_rewind := walks_of_same (increment_f _)
  of_nextInsidePack := walks_of_same (nextInsidePack_f _)
  of_nextPackrow := walks_of_same (increment_f _)
  isFilter_rewind _ := rfl
  isFilter_nextPackrow _ := rfl
  isFilter_increment _ := rfl

end DGVirtualIterator

end Brighthouse.Core
