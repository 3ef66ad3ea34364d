import Brighthouse.Core.CMap
import Brighthouse.Core.Pack

/-!
# Descriptions of text packs

The fields of `DPN` that rough checks on text read, and `RCAttr::GetPrefix` and
`RCAttr::GetActualSize`.  `Describes` says when a description is right for the
rows of a pack; it implies that every text of the pack starts with the prefix.
-/

set_option autoImplicit false

namespace Brighthouse.Core

open Library Types.BString List

/-- `localMin` and `localMax` are read as strings of eight bytes. -/
structure TextDpn extends Dpn where
  localMin : Bytes
  localMax : Bytes
  min_length : localMin.length = 8
  max_length : localMax.length = 8
  sumSize : Nat

/-- A text column with a binary collation: its precision, and its character map if
there is one that is up to date. -/
structure TextColumn where
  precision : Nat
  cmap : Option CMap
  pack : Int

namespace TextDpn

def commonPrefix : Bytes → Bytes → Bytes
  | a :: min, b :: max => if a ≠ 0 ∧ b ≠ 0 ∧ a = b then a :: commonPrefix min max else []
  | _, _ => []

def getPrefix (dpn : TextDpn) : Bytes :=
  if dpn.nullsOnly then [] else commonPrefix dpn.localMin dpn.localMax

def getActualSize (dpn : TextDpn) (precision : Nat) : Nat :=
  if dpn.nullsOnly then 0
  else if dpn.sumSize % 2 ^ 16 = 0 then precision % 2 ^ 16
  else dpn.sumSize % 2 ^ 16

structure Describes (dpn : TextDpn) (precision : Nat) (rows : List (Option Bytes)) : Prop
    extends Dpn.Counts dpn.toDpn rows where
  above_min : ∀ s, some s ∈ rows → greaterEqThanMin s dpn.localMin = true
  below_max : ∀ s, some s ∈ rows → lessEqThanMax s dpn.localMax = true
  length_le : ∀ s, some s ∈ rows → s.length ≤ dpn.getActualSize precision

theorem commonPrefix_spec (min max : Bytes) :
    commonPrefix min max <+: min ∧ commonPrefix min max <+: max ∧
      ∀ c ∈ commonPrefix min max, c ≠ 0 := by
  fun_induction commonPrefix min max with
  | case1 a min b max same ih =>
    obtain ⟨inMin, inMax, nonZero⟩ := ih
    obtain ⟨notZero, _, rfl⟩ := same
    refine ⟨prefix_cons_inj a |>.mpr inMin, prefix_cons_inj a |>.mpr inMax, ?_⟩
    intro c mem
    rcases mem_cons.mp mem with rfl | mem
    · exact notZero
    · exact nonZero c mem
  | case2 => simp
  | case3 => simp

section Described

variable {dpn : TextDpn} {precision : Nat} {rows : List (Option Bytes)}

theorem getPrefix_length (dpn : TextDpn) : dpn.getPrefix.length ≤ 8 := by
  rw [getPrefix]
  split
  · simp
  · rw [← dpn.min_length]
    exact (commonPrefix_spec _ _).1.length_le

theorem getPrefix_prefix_min (dpn : TextDpn) : dpn.getPrefix <+: dpn.localMin := by
  rw [getPrefix]
  split
  · exact nil_prefix
  · exact (commonPrefix_spec _ _).1

theorem getPrefix_prefix_trimmed (dpn : TextDpn) : dpn.getPrefix <+: trimZeros dpn.localMin := by
  rw [getPrefix]
  split
  · exact nil_prefix
  · obtain ⟨inMin, _, nonZero⟩ := commonPrefix_spec dpn.localMin dpn.localMax
    exact prefix_trimZeros inMin nonZero

theorem getPrefix_prefix_max (dpn : TextDpn) : dpn.getPrefix <+: dpn.localMax := by
  rw [getPrefix]
  split
  · exact nil_prefix
  · exact (commonPrefix_spec _ _).2.1

section
variable (described : Describes dpn precision rows) {s : Bytes} (mem : some s ∈ rows)
include described mem

theorem Describes.prefix_row : dpn.getPrefix <+: s := by
  have above := (greaterEqThanMin_iff _ _).mp (described.above_min s mem)
  have below := (lessEqThanMax_iff _ _).mp (described.below_max s mem)
  rw [dpn.max_length] at below
  exact Bytes.prefix_of_between _ dpn.getPrefix_prefix_trimmed dpn.getPrefix_prefix_max above
    below dpn.getPrefix_length

theorem Describes.take_row {n : Nat} (le : n ≤ dpn.getPrefix.length) :
    s.take n = dpn.getPrefix.take n := by
  obtain ⟨rest, rfl⟩ := described.prefix_row mem
  exact take_append_of_le_length le

end

end Described

end TextDpn

/-- The description that loading a single text leaves behind. -/
def TextDpn.ofText (s : Bytes) : TextDpn where
  localMin := s.take 8 ++ List.replicate (8 - s.length) 0
  localMax := s.take 8 ++ List.replicate (8 - s.length) 255
  min_length := by
    rw [List.length_append, List.length_take, List.length_replicate]
    omega
  max_length := by
    rw [List.length_append, List.length_take, List.length_replicate]
    omega
  sumSize := s.length
  fileNullsOnly := false
  noNulls := 0
  noObjs := 0

theorem TextDpn.ofText_describes {s : Bytes} {precision : Nat} (short : s.length < 2 ^ 16) :
    (TextDpn.ofText s).Describes precision [some s] := by
  have only : ∀ t, some t ∈ [some s] → t = s := by
    intro t mem
    rw [mem_singleton, Option.some.injEq] at mem
    exact mem
  refine ⟨⟨rfl, by simp, rfl, by simp [ofText]⟩, ?_, ?_, ?_⟩
  · intro t mem
    rw [only t mem, greaterEqThanMin_iff]
    have trimmed : trimZeros (s.take 8 ++ replicate (8 - s.length) 0) = trimZeros (s.take 8) :=
      trimZeros_append_replicate _ _
    show trimZeros (s.take 8 ++ replicate (8 - s.length) 0) ≤ s
    rw [trimmed]
    exact Bytes.le_of_prefix (( rdropWhile_prefix _ _).trans ( take_prefix 8 s))
  · intro t mem
    rw [only t mem, lessEqThanMax_iff, (ofText s).max_length]
    exact Bytes.le_append _ _
  · intro t mem
    rw [only t mem]
    have notNulls : (ofText s).nullsOnly = false := by simp [Dpn.nullsOnly, ofText]
    rw [getActualSize, if_neg (by rw [notNulls]; decide)]
    split
    · rename_i zero
      rw [ofText, Nat.mod_eq_of_lt short] at zero
      omega
    · rw [ofText, Nat.mod_eq_of_lt short]

/-- The texts the character map of a pack is filled with: the rows that are not null,
without the pack prefix. -/
def strippedTexts (dpn : TextDpn) (rows : List (Option Bytes)) : List Bytes :=
  rows.filterMap (fun row => row.map (List.drop dpn.getPrefix.length))

/-- The character map of the column, if it is up to date, was filled with the pack. -/
def CMapFilled (column : TextColumn) (dpn : TextDpn) (rows : List (Option Bytes)) : Prop :=
  ∀ map ∈ column.cmap, ∃ m : CMap, map = m.fill column.pack (strippedTexts dpn rows)

end Brighthouse.Core
