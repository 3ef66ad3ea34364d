import Brighthouse.Core.FilterDelayed

/-!
# Filters built by the public operations

A filter is built by a constructor and any sequence of operations whose row and block
numbers lie in the filter; operations on two filters take filters with the same number
of rows.  In every run whose `Reset(f2)` steps are safe, filters are valid, the bitwise
operations combine bits row by row, and the updates refine those of a plain bit array.
-/

set_option autoImplicit false

namespace Brighthouse.Core.Filter

open Library.BitCount

/-! ## The plain bit array -/

structure BitArray where
  rows : Nat
  bits : Nat → Bool

inductive Update where
  | set (n : Nat)
  | reset (n : Nat)
  | setBetween (n1 n2 : Nat)
  | resetBetween (n1 n2 : Nat)
  | setBlock (b : Nat)
  | resetBlock (b : Nat)
  | setAll
  | resetAll
  | grow (growSize : Nat) (value : Bool)
  deriving DecidableEq, Repr

namespace Update

def Fits (f : Filter) : Update → Prop
  | .set n | .reset n => n < f.noObj
  | .setBetween n1 n2 | .resetBetween n1 n2 => n1 ≤ n2 ∧ n2 < f.noObj
  | .setBlock b | .resetBlock b => b < f.noBlocks
  | .setAll | .resetAll => True
  | .grow growSize _ => f.noObj + growSize ≤ rowLimit

def run (f : Filter) : Update → Filter
  | .set n => f.set n
  | .reset n => f.reset n
  | .setBetween n1 n2 => f.setBetween n1 n2
  | .resetBetween n1 n2 => f.resetBetween n1 n2
  | .setBlock b => f.setBlock b
  | .resetBlock b => f.resetBlock b
  | .setAll => f.setAll
  | .resetAll => f.resetAll
  | .grow growSize value => f.grow growSize value

def apply (a : BitArray) : Update → BitArray
  | .set n => { a with bits := Function.update a.bits n true }
  | .reset n => { a with bits := Function.update a.bits n false }
  | .setBetween n1 n2 => { a with bits := fun n => if n1 ≤ n ∧ n ≤ n2 then true else a.bits n }
  | .resetBetween n1 n2 => { a with bits := fun n => if n1 ≤ n ∧ n ≤ n2 then false else a.bits n }
  | .setBlock b => { a with bits := fun n => if n / 65536 = b then true else a.bits n }
  | .resetBlock b => { a with bits := fun n => if n / 65536 = b then false else a.bits n }
  | .setAll => { a with bits := fun _ => true }
  | .resetAll => { a with bits := fun _ => false }
  | .grow growSize value =>
    { rows := a.rows + growSize, bits := fun n => if n < a.rows then a.bits n else value }

end Update

/-- The filter has the rows and the bits of the array, and counts its ones right. -/
structure Refines (f : Filter) (a : BitArray) : Prop where
  noObj_eq : f.noObj = a.rows
  get_eq : ∀ n < a.rows, f.get n = a.bits n
  noOnes_eq : f.noOnes = ones f.get f.noObj

variable {f f2 : Filter} {rows b n n1 n2 : Nat} {bits bits2 : Nat → Bool} {value : Bool}

theorem Shows.refines (shown : f.Shows rows bits) : f.Refines ⟨rows, bits⟩ := by
  refine ⟨shown.noObj_eq, fun n lt => shown.get_eq lt, ?_⟩
  rw [shown.noOnes_eq, shown.noObj_eq]
  exact (ones_congr fun n lt => shown.get_eq lt).symm

theorem Shows.self (shown : f.Shows rows bits) : f.Shows f.noObj f.get := by
  rw [shown.noObj_eq]
  exact shown.congr fun n lt => (shown.get_eq lt).symm

theorem fill_eq_update : fill bits n (n + 1) value = Function.update bits n value := by
  funext m
  rw [fill_one, Function.update_apply]

theorem fill_eq_between :
    fill bits n1 (n2 + 1) value = fun n => if n1 ≤ n ∧ n ≤ n2 then value else bits n := by
  funext m
  simp only [fill, Nat.lt_succ_iff]

theorem fill_eq_block :
    fill bits (b * 65536) ((b + 1) * 65536) value =
      fun n => if n / 65536 = b then value else bits n := by
  funext m
  by_cases inBlock : m / 65536 = b
  · rw [if_pos inBlock, fill_inside (by omega) (by omega)]
  · rw [if_neg inBlock, fill_outside (by omega)]

theorem Shows.update (shown : f.Shows rows bits) (u : Update) (fits : u.Fits f) :
    (u.run f).Shows (u.apply ⟨rows, bits⟩).rows (u.apply ⟨rows, bits⟩).bits := by
  cases u with
  | set n =>
    have result := shown.set (lt_of_lt_of_eq fits shown.noObj_eq)
    rw [fill_eq_update] at result
    exact result
  | reset n =>
    have result := shown.reset (lt_of_lt_of_eq fits shown.noObj_eq)
    rw [fill_eq_update] at result
    exact result
  | setBetween n1 n2 =>
    have result := shown.setBetween fits.1 (lt_of_lt_of_eq fits.2 shown.noObj_eq)
    rw [fill_eq_between] at result
    exact result
  | resetBetween n1 n2 =>
    have result := shown.resetBetween fits.1 (lt_of_lt_of_eq fits.2 shown.noObj_eq)
    rw [fill_eq_between] at result
    exact result
  | setBlock b =>
    have result := shown.setBlock fits
    rw [fill_eq_block] at result
    exact result
  | resetBlock b =>
    have result := shown.resetBlock fits
    rw [fill_eq_block] at result
    exact result
  | setAll => exact shown.setAll
  | resetAll => exact shown.resetAll
  | grow growSize value =>
    refine (shown.grow growSize value).congr fun n lt => ?_
    show _ = if n < rows then bits n else value
    by_cases old : n < rows
    · rw [if_pos old, fill_outside (by omega)]
    · rw [if_neg old, fill_inside (by omega) (by omega)]

theorem Valid.update (valid : f.Valid rows) (u : Update) (fits : u.Fits f) :
    ∃ rows2, (u.run f).Valid rows2 := by
  obtain ⟨bits, shown⟩ := valid.shows_bits
  have next := shown.update u fits
  refine ⟨_, ⟨_, next⟩, ?_⟩
  cases u with
  | set n => exact valid.buffered.of_sameFrame ⟨_, rfl⟩
  | reset n => exact valid.buffered.of_sameFrame ⟨_, rfl⟩
  | setBetween n1 n2 => exact valid.buffered.of_sameFrame (setBetween_sameFrame f n1 n2)
  | resetBetween n1 n2 => exact valid.buffered.of_sameFrame (resetBetween_sameFrame f n1 n2)
  | setBlock b => exact valid.buffered.of_sameFrame ⟨_, rfl⟩
  | resetBlock b => exact valid.buffered.of_sameFrame ⟨_, rfl⟩
  | setAll => exact valid.buffered.setAll
  | resetAll => exact valid.buffered.resetAll
  | grow growSize value => exact valid.buffered.grow shown growSize value

/-! ## Operations on two filters -/

inductive BitwiseOp where
  | and
  | or
  | andNot
  | reset
  | not
  deriving DecidableEq, Repr

namespace BitwiseOp

/-- Both filters after the call; `not` is called on the first one alone. -/
def call (f f2 : Filter) : BitwiseOp → Filter × Filter
  | .and => (f.and f2, f2)
  | .or => (f.or f2 Option.none, f2)
  | .andNot => (f.andNot f2, f2)
  | .reset => (f.resetBy f2, f2)
  | .not => (f.not, f2)

def eval : BitwiseOp → Bool → Bool → Bool
  | .and, p, q => p && q
  | .or, p, q => p || q
  | .andNot, p, q => p && !q
  | .reset, p, q => p && !q
  | .not, p, _ => !p

end BitwiseOp

theorem Shows.bitwise (shown : f.Shows rows bits) (shown2 : f2.Shows rows bits2) (op : BitwiseOp)
    (safe : op = .reset → f.ResetSafe f2) :
    (op.call f f2).1.Shows rows (fun n => op.eval (bits n) (bits2 n)) := by
  cases op with
  | and => exact shown.and shown2
  | or => exact shown.or shown2
  | andNot => exact shown.andNot shown2
  | reset => exact shown.resetBy shown2 (safe rfl)
  | not => exact shown.not

theorem bitwise_sameFrame (f f2 : Filter) (op : BitwiseOp) : f.SameFrame (op.call f f2).1 := by
  cases op with
  | and => exact onBlocks_sameFrame _ f f2
  | or => exact onBlocks_sameFrame _ f f2
  | andNot => exact onBlocks_sameFrame _ f f2
  | reset => exact onBlocks_sameFrame _ f f2
  | not => exact not_sameFrame f

theorem Valid.bitwise (valid : f.Valid rows) (valid2 : f2.Valid rows) (op : BitwiseOp)
    (safe : op = .reset → f.ResetSafe f2) : (op.call f f2).1.Valid rows := by
  obtain ⟨bits, shown⟩ := valid.shows_bits
  obtain ⟨bits2, shown2⟩ := valid2.shows_bits
  exact valid.of_shows (shown.bitwise shown2 op safe) (bitwise_sameFrame f f2 op)

inductive BlockOp where
  | or
  | swapFirst
  | swapSecond
  | copy
  deriving DecidableEq, Repr

def BlockOp.run (f f2 : Filter) (pack : Nat) : BlockOp → Filter
  | .or => f.or f2 (some pack)
  | .swapFirst => (f.swapPack f2 pack).1
  | .swapSecond => (f2.swapPack f pack).2
  | .copy => f.copyBlock f2 pack

theorem or_pack_sameFrame (f f2 : Filter) (pack : Nat) : f.SameFrame (f.or f2 (some pack)) := by
  rw [or]
  split
  · exact (SameFrame.refl f).onSlot _ _
  · exact SameFrame.refl f

theorem Valid.blockOp (valid : f.Valid rows) (valid2 : f2.Valid rows) (pack : Nat) (op : BlockOp) :
    (op.run f f2 pack).Valid rows := by
  obtain ⟨bits, shown⟩ := valid.shows_bits
  obtain ⟨bits2, shown2⟩ := valid2.shows_bits
  cases op with
  | or => exact valid.of_shows (shown.or_pack shown2) (or_pack_sameFrame f f2 pack)
  | swapFirst => exact valid.of_shows (shown.swapPack_fst shown2) ⟨_, rfl⟩
  | swapSecond => exact valid.of_shows (shown2.swapPack_snd shown) ⟨_, rfl⟩
  | copy => exact valid.of_shows (shown.copyBlock shown2) ⟨_, rfl⟩

inductive DelayedUpdate where
  | set (n : Nat)
  | reset (n : Nat)
  | commit
  deriving DecidableEq, Repr

namespace DelayedUpdate

def Fits (f : Filter) : DelayedUpdate → Prop
  | .set n | .reset n => n < f.noObj
  | .commit => True

def run (f : Filter) : DelayedUpdate → Filter
  | .set n => f.setDelayed n
  | .reset n => f.resetDelayed n
  | .commit => f.commit

end DelayedUpdate

theorem Valid.delayed (valid : f.Valid rows) (u : DelayedUpdate) (fits : u.Fits f) :
    (u.run f).Valid rows := by
  obtain ⟨bits, shown⟩ := valid.shows_bits
  have inFilter : ∀ n, n < f.noObj →
      n / 65536 < f.noBlocks ∧ n % 65536 < f.blockSize (n / 65536) := by
    intro n lt
    rw [shown.noObj_eq] at lt
    exact ⟨shown.block_lt lt, shown.offset_lt lt⟩
  cases u with
  | set n => exact valid.setDelayedAt (inFilter n fits)
  | reset n => exact valid.resetDelayedAt (inFilter n fits)
  | commit => exact valid.commit

/-! ## Runs -/

/-- Filters built by the public operations, where every `f.Reset(f2)` meets `Safe f f2`. -/
inductive Built (Safe : Filter → Filter → Prop) : Filter → Prop
  | ofRows {rows : Nat} {allOnes : Bool} {f : Filter} (fits : rows ≤ rowLimit)
      (made : ofRows rows allOnes = .ok f) : Built Safe f
  | clone {f : Filter} (built : Built Safe f) : Built Safe f.clone
  | update {f : Filter} (built : Built Safe f) (u : Update) (fits : u.Fits f) : Built Safe (u.run f)
  | delayed {f : Filter} (built : Built Safe f) (u : DelayedUpdate) (fits : u.Fits f) :
      Built Safe (u.run f)
  | bitwise {f f2 : Filter} (built : Built Safe f) (built2 : Built Safe f2)
      (sameRows : f.noObj = f2.noObj) (op : BitwiseOp) (safe : op = .reset → Safe f f2) :
      Built Safe (op.call f f2).1
  | blockOp {f f2 : Filter} (built : Built Safe f) (built2 : Built Safe f2)
      (sameRows : f.noObj = f2.noObj) (op : BlockOp) (pack : Nat) (fits : pack < f.noBlocks) :
      Built Safe (op.run f f2 pack)

theorem Valid.noObj_eq (valid : f.Valid rows) : f.noObj = rows := by
  obtain ⟨bits, shown⟩ := valid.shows_bits
  exact shown.noObj_eq

theorem Valid.shows_self (valid : f.Valid rows) : f.Shows f.noObj f.get := by
  obtain ⟨bits, shown⟩ := valid.shows_bits
  exact shown.self

theorem valid_of_built (built : Built ResetSafe f) : ∃ rows, f.Valid rows := by
  induction built with
  | ofRows fits made => exact ⟨_, ⟨_, ofRows_shows made⟩, ofRows_buffered made⟩
  | clone built ih =>
    obtain ⟨rows, valid⟩ := ih
    obtain ⟨bits, shown⟩ := valid.shows_bits
    exact ⟨rows, ⟨bits, shown.clone⟩, clone_buffered _⟩
  | update built u fits ih =>
    obtain ⟨rows, valid⟩ := ih
    exact valid.update u fits
  | delayed built u fits ih =>
    obtain ⟨rows, valid⟩ := ih
    exact ⟨rows, valid.delayed u fits⟩
  | bitwise built built2 sameRows op safe ih ih2 =>
    obtain ⟨rows, valid⟩ := ih
    obtain ⟨rows2, valid2⟩ := ih2
    have same : rows2 = rows := by
      rw [← valid2.noObj_eq, ← sameRows, valid.noObj_eq]
    exact ⟨rows, valid.bitwise (same ▸ valid2) op safe⟩
  | blockOp built built2 sameRows op pack fits ih ih2 =>
    obtain ⟨rows, valid⟩ := ih
    obtain ⟨rows2, valid2⟩ := ih2
    have same : rows2 = rows := by
      rw [← valid2.noObj_eq, ← sameRows, valid.noObj_eq]
    exact ⟨rows, valid.blockOp (same ▸ valid2) pack op⟩

theorem shows_of_built (built : Built ResetSafe f) : f.Shows f.noObj f.get := by
  obtain ⟨rows, valid⟩ := valid_of_built built
  exact valid.shows_self

/-- In every run whose `Reset(f2)` steps are safe the bitwise operations combine the bits
of both filters row by row and leave the second filter alone. -/
theorem bitwise_exact (built : Built ResetSafe f) (built2 : Built ResetSafe f2)
    (sameRows : f.noObj = f2.noObj) (op : BitwiseOp) (safe : op = .reset → f.ResetSafe f2) :
    (op.call f f2).2 = f2 ∧ (op.call f f2).1.noObj = f.noObj ∧
      ∀ n < f.noObj, (op.call f f2).1.get n = op.eval (f.get n) (f2.get n) := by
  have shown := shows_of_built built
  have shown2 := shows_of_built built2
  rw [← sameRows] at shown2
  have result := shown.bitwise shown2 op safe
  refine ⟨?_, result.noObj_eq, fun n lt => result.get_eq lt⟩
  cases op <;> rfl

variable (Safe : Filter → Filter → Prop)

theorem built_construct (allOnes : Bool) :
    Built Safe (construct 1 3 allOnes) :=
  .ofRows (by decide : 3 ≤ rowLimit) rfl

theorem bitwise_exact_three :
    (BitwiseOp.reset.call (construct 1 3 true) ((construct 1 3 false).set 1)).1.get 1 = false := by
  have built := built_construct ResetSafe true
  have built2 := (built_construct ResetSafe false).update (.set 1) (by decide : 1 < 3)
  have safe : (construct 1 3 true).ResetSafe ((construct 1 3 false).set 1) := by
    intro b lt _ _
    have first : b = 0 := Nat.lt_one_iff.mp lt
    subst first
    exact ⟨0, by decide, by decide⟩
  exact ((bitwise_exact built built2 rfl .reset fun _ => safe).2.2 1 (by decide)).trans (by decide)

/-- The ones of `prefixRows` are rows 0 to 30 of 33; `allButOne` lacks row 31. -/
def prefixRows : Filter := (construct 1 33 false).setBetween 0 30

def allButOne : Filter := (construct 1 33 true).reset 31

theorem prefixRows_built : Built Safe prefixRows :=
  (Built.ofRows (by decide : 33 ≤ rowLimit) rfl).update (.setBetween 0 30)
    (by decide : 0 ≤ 30 ∧ 30 < 33)

theorem allButOne_built : Built Safe allButOne :=
  (Built.ofRows (by decide : 33 ≤ rowLimit) rfl).update (.reset 31) (by decide : 31 < 33)

/-- Row 31 is in neither filter before the call and in the first one after it. -/
theorem bitwise_reset_invents_row :
    ¬∀ f f2 : Filter, Built (fun _ _ => True) f → Built (fun _ _ => True) f2 →
      f.noObj = f2.noObj → ∀ op : BitwiseOp, (op.call f f2).2 = f2 ∧
        ∀ n < f.noObj, (op.call f f2).1.get n = op.eval (f.get n) (f2.get n) := by
  intro exact_always
  have kept := (exact_always prefixRows allButOne (prefixRows_built _) (allButOne_built _) rfl
    .reset).2 31 (by decide)
  exact absurd kept (by decide)

/-- In every run whose `Reset(f2)` steps are safe the updates are those of a plain bit
array and the ones are counted right. -/
theorem update_refines (built : Built ResetSafe f) (u : Update) (fits : u.Fits f) :
    (u.run f).Refines (u.apply ⟨f.noObj, f.get⟩) :=
  ((shows_of_built built).update u fits).refines

theorem update_refines_three : ((construct 1 3 true).reset 1).noOnes = 2 :=
  (update_refines (built_construct ResetSafe true) (.reset 1) (by decide : 1 < 3)).noOnes_eq.trans
    (by decide)

/-- After `Reset(f2)` has emptied a block behind the back of the filter, setting one row
leaves two rows set and a count of one. -/
theorem update_miscounts_after_reset :
    ¬∀ f : Filter, Built (fun _ _ => True) f → ∀ u : Update, u.Fits f →
      (u.run f).Refines (u.apply ⟨f.noObj, f.get⟩) := by
  intro refines_always
  have built : Built (fun _ _ => True) (BitwiseOp.reset.call prefixRows allButOne).1 :=
    .bitwise (prefixRows_built _) (allButOne_built _) rfl .reset fun _ => trivial
  have counted := (refines_always _ built (.set 5) (by decide : 5 < 33)).noOnes_eq
  exact absurd counted (by decide)

/-! ## The representation -/

def WellFormed (f : Filter) : Prop := ∀ b < f.noBlocks, (f.slots b).WellFormed (f.blockSize b)

theorem Shows.resetSafe (shown : f.Shows rows bits) (shown2 : f2.Shows rows bits2)
    (wellFormed : (f.resetBy f2).WellFormed) : f.ResetSafe f2 := by
  intro b lt
  rw [Filter.resetBy, Filter.onBlocks, shown2.noBlocks_same shown.toShaped, min_self,
    forLoop_onSlot] at wellFormed
  have slot : (if b < f.noBlocks then (f.slots b).resetBy (f.blockSize b) (f2.slots b)
      else f.slots b).WellFormed (f.blockSize b) := wellFormed b lt
  rw [if_pos lt] at slot
  exact (shown.slot b lt).resetSafe (shown.slot_of shown2 lt) slot

variable {Safe} in
theorem Built.mono {Safe2 : Filter → Filter → Prop} (built : Built Safe f)
    (safer : ∀ f f2, Built Safe f → Built Safe f2 → f.noObj = f2.noObj → Safe f f2 →
      Built Safe2 f → Built Safe2 f2 → Safe2 f f2) : Built Safe2 f := by
  induction built with
  | ofRows fits made => exact .ofRows fits made
  | clone _ ih => exact ih.clone
  | update _ u fits ih => exact ih.update u fits
  | delayed _ u fits ih => exact ih.delayed u fits
  | bitwise built built2 sameRows op safe ih ih2 =>
    exact ih.bitwise ih2 sameRows op fun isReset =>
      safer _ _ built built2 sameRows (safe isReset) ih ih2
  | blockOp _ _ sameRows op pack fits ih ih2 => exact ih.blockOp ih2 sameRows op pack fits

/-- The invariant holds in every filter that is built if and only if the `Reset(f2)` steps are
safe. -/
theorem wellFormed_iff : (∀ f, Built Safe f → f.WellFormed) ↔
    ∀ f f2, Built Safe f → Built Safe f2 → f.noObj = f2.noObj → Safe f f2 → f.ResetSafe f2 := by
  constructor
  · intro wellFormed
    have safer : ∀ f f2, Built Safe f → Built Safe f2 → f.noObj = f2.noObj → Safe f f2 →
        Built ResetSafe f → Built ResetSafe f2 → f.ResetSafe f2 := by
      intro f f2 built built2 sameRows safe again again2
      have result := wellFormed _ (built.bitwise built2 sameRows .reset fun _ => safe)
      have shown2 := shows_of_built again2
      rw [← sameRows] at shown2
      exact (shows_of_built again).resetSafe shown2 result
    intro f f2 built built2 sameRows safe
    exact safer f f2 built built2 sameRows safe (built.mono safer) (built2.mono safer)
  · intro safe f built b lt
    have shown := shows_of_built (built.mono fun f f2 built built2 sameRows meets _ _ =>
      safe f f2 built built2 sameRows meets)
    exact (shown.slot b lt).wellFormed

/-- `Reset(f2)` leaves a mixed block whose counter is zero. -/
theorem not_wellFormed_after_reset : ¬∀ f, Built (fun _ _ => True) f → f.WellFormed := by
  intro always
  have built : Built (fun _ _ => True) (BitwiseOp.reset.call prefixRows allButOne).1 :=
    .bitwise (prefixRows_built _) (allButOne_built _) rfl .reset fun _ => trivial
  have shown2 : allButOne.Shows prefixRows.noObj _ := shows_of_built (allButOne_built _)
  have safe := (shows_of_built (prefixRows_built _)).resetSafe shown2 (always _ built)
  obtain ⟨m, le, isFalse⟩ := safe 0 (by decide) (by decide) (by decide)
  have all : ∀ m ≤ (prefixRows.slots 0).lastOne, (allButOne.slots 0).get m = true := by decide
  exact Bool.false_ne_true (isFalse.symm.trans (all m le))

end Brighthouse.Core.Filter
