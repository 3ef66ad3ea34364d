import Brighthouse.Core.CommonDefinitions
import Brighthouse.Library.Binary64
import Brighthouse.Library.Word64

/-!
# The 64-bit sum

`AggregatorSum64` of `core/AggregatorBasic.cpp`.  An overflow is looked for with doubles
while the sum is kept in a word that wraps around, and one value of the word stands for a
sum of nothing.
-/

set_option autoImplicit false

namespace Brighthouse.Core.AggregatorSum64

open Library.Binary64 Library.Word64

structure State where
  buf : BitVec 64
  packSum : BitVec 64

inductive Call where
  | putAggregatedValue (v factor : BitVec 64)
  | merge (ps : BitVec 64)
  | setAggregatePackSum (par1 factor : BitVec 64)
  | aggregatePack

def null : BitVec 64 := .ofInt 64 nullValue64

def Passes (overflowCheck : ℚ) : Prop :=
  overflowCheck ≤ round53 9.223372037e18 ∧ round53 (-9.223372037e18) ≤ overflowCheck

instance (overflowCheck : ℚ) : Decidable (Passes overflowCheck) :=
  inferInstanceAs (Decidable (_ ∧ _))

def putAggregatedValue (p v factor : BitVec 64) : Option (BitVec 64) :=
  let p := if p = null then 0 else p
  if Passes (round53 (round53 p.toInt + round53 (round53 v.toInt * round53 factor.toInt))) then
    some (p + v * factor)
  else none

def merge (p ps : BitVec 64) : Option (BitVec 64) :=
  if ps = null then some p
  else
    let p := if p = null then 0 else p
    if Passes (round53 (round53 p.toInt + round53 ps.toInt)) then some (p + ps) else none

def setAggregatePackSum (par1 factor : BitVec 64) : Option (BitVec 64) :=
  if Passes (round53 (round53 par1.toInt * round53 factor.toInt)) then some (par1 * factor)
  else none

/-- A build without assertions: `AggregatePack` takes every `pack_sum`. -/
def call (s : State) : Call → Option State
  | .putAggregatedValue v factor => (putAggregatedValue s.buf v factor).map (⟨·, s.packSum⟩)
  | .merge ps => (merge s.buf ps).map (⟨·, s.packSum⟩)
  | .setAggregatePackSum par1 factor => (setAggregatePackSum par1 factor).map (⟨s.buf, ·⟩)
  | .aggregatePack => (putAggregatedValue s.buf s.packSum 1).map (⟨·, s.packSum⟩)

def run (calls : List Call) : Option State := calls.foldlM call ⟨null, 0⟩

/-! ## The exact sum -/

/-- The exact sum of the last pack announced, and the numbers added so far. -/
def account (a : Int × List Int) : Call → Int × List Int
  | .putAggregatedValue v factor => (a.1, (v.toInt * factor.toInt) :: a.2)
  | .merge ps => if ps = null then a else (a.1, ps.toInt :: a.2)
  | .setAggregatePackSum par1 factor => (par1.toInt * factor.toInt, a.2)
  | .aggregatePack => (a.1, a.1 :: a.2)

def contributions (calls : List Call) : List Int := (calls.foldl account (0, [])).2

/-- The buffer holds the exact sum, and reads as null for a sum of nothing only. -/
def Exact (buf : BitVec 64) (parts : List Int) : Prop :=
  (buf = null ↔ parts = []) ∧ (parts ≠ [] → buf.toInt = parts.sum)

def Fits (parts : List Int) : Prop :=
  parts ≠ [] → IsInt64 parts.sum ∧ parts.sum ≠ nullValue64

/-- The sum of the pack may have wrapped around. -/
structure Agrees (s : State) (a : Int × List Int) : Prop where
  exact : Exact s.buf a.2
  packed : s.packSum = .ofInt 64 a.1

variable {s t : State} {a : Int × List Int} {calls : List Call} {p x : BitVec 64} {y : Int}
  {parts : List Int}

theorem Exact.add (exact : Exact p parts) (fits : Fits (y :: parts)) (same : x = .ofInt 64 y) :
    Exact ((if p = null then 0 else p) + x) (y :: parts) := by
  have start : (if p = null then 0 else p) = .ofInt 64 parts.sum := by
    by_cases none' : parts = []
    · simp [none', exact.1.mpr none']
    · rw [if_neg (mt exact.1.mp none'), ← exact.2 none', BitVec.ofInt_toInt]
  obtain ⟨inRange, notNull⟩ := fits (List.cons_ne_nil _ _)
  have sum : ((if p = null then 0 else p) + x).toInt = (y :: parts).sum := by
    rw [start, same, ← BitVec.ofInt_add, add_comm, ← List.sum_cons, BitVec.toInt_ofInt]
    exact wrap64_of_isInt64 inRange
  refine ⟨iff_of_false (fun isNull => notNull ?_) (List.cons_ne_nil _ _), fun _ => sum⟩
  rw [← sum, isNull]
  rfl

theorem exact_putAggregatedValue {v factor new : BitVec 64} (exact : Exact p parts)
    (fits : Fits (y :: parts)) (same : v * factor = .ofInt 64 y)
    (put : putAggregatedValue p v factor = some new) : Exact new (y :: parts) := by
  cases (Option.ite_none_right_eq_some.mp put).2
  exact exact.add fits same

theorem mul_eq_ofInt (v factor : BitVec 64) : v * factor = .ofInt 64 (v.toInt * factor.toInt) := by
  simp [BitVec.ofInt_mul]

theorem Agrees.call {c : Call} (agrees : Agrees s a) (fits : Fits (account a c).2)
    (called : call s c = some t) : Agrees t (account a c) := by
  obtain ⟨exact, packed⟩ := agrees
  cases c <;> obtain ⟨new, stored, rfl⟩ := Option.map_eq_some_iff.mp called
  case putAggregatedValue v factor =>
    exact ⟨exact_putAggregatedValue exact fits (mul_eq_ofInt v factor) stored, packed⟩
  case merge ps =>
    rw [account] at fits ⊢
    rw [merge] at stored
    split at stored
    · cases stored
      rw [if_pos (by assumption)]
      exact ⟨exact, packed⟩
    · rw [if_neg (by assumption)] at fits ⊢
      cases (Option.ite_none_right_eq_some.mp stored).2
      exact ⟨exact.add fits (by simp), packed⟩
  case setAggregatePackSum par1 factor =>
    cases (Option.ite_none_right_eq_some.mp stored).2
    exact ⟨exact, mul_eq_ofInt par1 factor⟩
  case aggregatePack =>
    exact ⟨exact_putAggregatedValue exact fits (by simp [packed]) stored, packed⟩

theorem Agrees.run (agrees : Agrees s a) (fits : ∀ k, Fits ((calls.take k).foldl account a).2)
    (ran : calls.foldlM AggregatorSum64.call s = some t) : Agrees t (calls.foldl account a) := by
  induction calls generalizing s a with
  | nil =>
    cases ran
    exact agrees
  | cons c calls ih =>
    obtain ⟨next, called, ran⟩ := Option.bind_eq_some_iff.mp ran
    exact ih (agrees.call (fits 1) called) (fun k => fits (k + 1)) ran

/-- After each call of a run without an exception the buffer is exact, if and only if no
partial sum leaves the range of the word or hits the null marker. -/
theorem sum64_exact_iff (calls : List Call) (completed : (run calls).isSome) :
    (∀ k, ∃ t, run (calls.take k) = some t ∧ Exact t.buf (contributions (calls.take k))) ↔
      ∀ k, Fits (contributions (calls.take k)) := by
  constructor
  · intro exact k some'
    obtain ⟨t, -, isNull, sum⟩ := exact k
    rw [← sum some']
    refine ⟨⟨BitVec.le_toInt _, BitVec.toInt_lt⟩, fun marker => some' (isNull.mp ?_)⟩
    rw [null, ← marker, BitVec.ofInt_toInt]
  · intro fits k
    rw [run, ← List.take_append_drop k calls, List.foldlM_append] at completed
    obtain ⟨t, ran⟩ := Option.isSome_iff_exists.mp (Option.isSome_of_isSome_bind completed)
    have start : Agrees ⟨null, 0⟩ (0, []) := ⟨⟨by simp, by simp⟩, rfl⟩
    refine ⟨t, ran, (start.run (fun i => ?_) ran).exact⟩
    rw [List.take_take]
    exact fits _

def mixedCalls : List Call :=
  [.putAggregatedValue 3 2, .merge null, .setAggregatePackSum (-20) 1, .aggregatePack, .merge 4]

theorem sum64_exact_mixed : ∃ t, run mixedCalls = some t ∧ Exact t.buf [4, -20, 6] := by
  have fits : ∀ k ≤ mixedCalls.length, Fits (contributions (mixedCalls.take k)) := by
    unfold Fits
    decide +kernel
  refine (sum64_exact_iff mixedCalls (by decide +kernel)).mpr (fun k => ?_) 5
  rw [List.take_eq_take_min]
  exact fits _ (Nat.min_le_right _ _)

/-- Twice `2 ^ 62` passes the check and is stored as the smallest word. -/
theorem sum64_wraps : (run [.putAggregatedValue (2 ^ 62) 2]).map State.buf = some (2 ^ 63) ∧
    ¬ Exact (2 ^ 63) (contributions [.putAggregatedValue (2 ^ 62) 2]) := by
  refine ⟨by decide +kernel, fun exact => ?_⟩
  exact absurd (exact.2 (by decide)) (by decide +kernel)

end Brighthouse.Core.AggregatorSum64
