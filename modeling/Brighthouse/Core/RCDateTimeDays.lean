import Brighthouse.Library.Loop

/-!
# Day arithmetic

The difference of two dates and `ToDays` of `types/RCDateTime.cpp`.  A date is one that the
checks of the parsers accept, so that no year or month is refused.
-/

set_option autoImplicit false

namespace Brighthouse.Core

open Library.Loop

def isLeapYear (year : Nat) : Bool :=
  year != 0 && (year % 4 == 0 && year % 100 != 0 || year % 4 == 0 && year % 400 == 0)

def noDays : List Nat := [31, 28, 31, 30, 31, 30, 31, 31, 30, 31, 30, 31]

def noDaysInMonth (year month : Nat) : Nat :=
  if month = 2 ∧ isLeapYear year then 29 else noDays.getD (month - 1) 0

def centuryDays (i : Nat) : Nat := if isLeapYear (100 * i) then 36525 else 36524

def yearDays (year : Nat) : Nat := if isLeapYear year then 366 else 365

def sumUpTo (g : Nat → Nat) (first stop : Nat) : Nat :=
  forLoop (fun i sum => sum + g i) first (stop - first) 0

structure Date where
  year : Nat
  month : Nat
  day : Nat
  year_mem : 100 ≤ year ∧ year ≤ 9999
  month_mem : 1 ≤ month ∧ month ≤ 12
  day_mem : 1 ≤ day ∧ day ≤ noDaysInMonth year month

namespace Date

def dt (d : Date) : Nat := d.year * 2 ^ 37 + d.month * 2 ^ 33 + d.day * 2 ^ 28

def span (first last : Date) : Nat :=
  if last.year = first.year then
    if last.month = first.month then last.day - first.day
    else
      sumUpTo (noDaysInMonth last.year) (first.month + 1) last.month +
        (noDaysInMonth first.year first.month - first.day + 1) + (last.day - 1)
  else
    sumUpTo yearDays (first.year + 1) last.year +
      sumUpTo (noDaysInMonth first.year) (first.month + 1) 13 +
      sumUpTo (noDaysInMonth last.year) 1 last.month +
      (noDaysInMonth first.year first.month - first.day + 1) + (last.day - 1)

def sub (d sec : Date) : Int := if sec.dt < d.dt then sec.span d else -d.span sec

def dayOfYear (d : Date) : Nat := sumUpTo (noDaysInMonth d.year) 1 d.month + d.day

/-- From 2000 on the count starts there, before that it is made by centuries. -/
def toDays (d : Date) : Nat :=
  let (res, year) :=
    if 2000 ≤ d.year then (730484, 2000)
    else (sumUpTo centuryDays 0 (d.year / 100), d.year / 100 * 100)
  res + sumUpTo yearDays year d.year + d.dayOfYear

/-! ## Counting days -/

def daysBeforeYear (year : Nat) : Nat := ∑ i ∈ Finset.range year, yearDays i

def daysBeforeMonth (year month : Nat) : Nat := ∑ i ∈ Finset.Ico 1 month, noDaysInMonth year i

theorem daysBeforeYear_succ (year : Nat) :
    daysBeforeYear year + yearDays year = daysBeforeYear (year + 1) :=
  (Finset.sum_range_succ yearDays year).symm

theorem daysBeforeMonth_succ (year : Nat) {month : Nat} (le : 1 ≤ month) :
    daysBeforeMonth year month + noDaysInMonth year month = daysBeforeMonth year (month + 1) :=
  (Finset.sum_Ico_succ_top le _).symm

theorem daysBeforeMonth_last (year : Nat) : daysBeforeMonth year 13 = yearDays year := by
  have months : Finset.Ico 1 13 = {1, 2, 3, 4, 5, 6, 7, 8, 9, 10, 11, 12} := by decide
  rw [daysBeforeMonth, months, yearDays]
  cases leap : isLeapYear year <;> simp [noDaysInMonth, noDays, leap]

theorem sumUpTo_years {first stop : Nat} (le : first ≤ stop) :
    daysBeforeYear first + sumUpTo yearDays first stop = daysBeforeYear stop :=
  forLoop_sum _ _ le fun i _ _ => daysBeforeYear_succ i

theorem sumUpTo_months (year : Nat) {first stop : Nat} (positive : 1 ≤ first) (le : first ≤ stop) :
    daysBeforeMonth year first + sumUpTo (noDaysInMonth year) first stop =
      daysBeforeMonth year stop :=
  forLoop_sum _ _ le fun _ low _ => daysBeforeMonth_succ year (positive.trans low)

theorem sumUpTo_centuries {stop : Nat} (le : stop ≤ 20) :
    sumUpTo centuryDays 0 stop = daysBeforeYear (stop * 100) := by
  have century : ∀ i < 20,
      daysBeforeYear (i * 100) + centuryDays i = daysBeforeYear ((i + 1) * 100) := by
    decide +kernel
  rw [← zero_add (sumUpTo _ 0 stop)]
  apply forLoop_sum _ (fun i => daysBeforeYear (i * 100)) (Nat.zero_le stop)
  intro i _ before
  exact century i (by omega)

variable {a b : Date}

theorem toDays_eq (d : Date) :
    d.toDays = daysBeforeYear d.year + daysBeforeMonth d.year d.month + d.day := by
  have months := sumUpTo_months d.year le_rfl d.month_mem.1
  have none : daysBeforeMonth d.year 1 = 0 := rfl
  have years : daysBeforeYear (if 2000 ≤ d.year then 2000 else d.year / 100 * 100) +
      sumUpTo yearDays (if 2000 ≤ d.year then 2000 else d.year / 100 * 100) d.year =
        daysBeforeYear d.year := sumUpTo_years (by split <;> omega)
  rw [toDays, dayOfYear]
  split_ifs at * with late
  · have start : daysBeforeYear 2000 = 730484 := by decide +kernel
    dsimp only
    omega
  · rw [sumUpTo_centuries (by omega)]
    dsimp only
    omega

theorem noDaysInMonth_mem (year : Nat) {month : Nat} (le : month ≤ 12) :
    1 ≤ noDaysInMonth year month ∧ noDaysInMonth year month ≤ 31 := by
  rw [noDaysInMonth]
  split
  · decide
  · have all : ∀ m ≤ 12, 1 ≤ noDays.getD (m - 1) 0 ∧ noDays.getD (m - 1) 0 ≤ 31 := by decide
    exact all month le

theorem bounds (d : Date) : (1 ≤ d.month ∧ d.month ≤ 12) ∧
    (1 ≤ d.day ∧ d.day ≤ noDaysInMonth d.year d.month) ∧ noDaysInMonth d.year d.month ≤ 31 :=
  ⟨d.month_mem, d.day_mem, (noDaysInMonth_mem d.year d.month_mem.2).2⟩

/-- From a date on, the days to a later one are counted once each. -/
theorem toDays_add_span (le : a.dt ≤ b.dt) :
    a.toDays + a.span b = b.toDays ∧ (a.dt < b.dt → 0 < a.span b) := by
  have inA := a.bounds
  have inB := b.bounds
  have month := daysBeforeMonth_succ a.year inA.1.1
  rw [dt, dt] at *
  rw [span, toDays_eq, toDays_eq]
  by_cases sameYear : b.year = a.year
  · rw [if_pos sameYear, sameYear]
    by_cases sameMonth : b.month = a.month
    · rw [if_pos sameMonth, sameMonth]
      omega
    · have months := sumUpTo_months a.year (Nat.le_add_left 1 a.month)
        (by omega : a.month + 1 ≤ b.month)
      rw [if_neg sameMonth]
      omega
  · have years := sumUpTo_years (by omega : a.year + 1 ≤ b.year)
    have rest := sumUpTo_months a.year (Nat.le_add_left 1 a.month) (by omega : a.month + 1 ≤ 13)
    have begun := sumUpTo_months b.year le_rfl inB.1.1
    have year := daysBeforeYear_succ a.year
    have all := daysBeforeMonth_last a.year
    have none : daysBeforeMonth b.year 1 = 0 := rfl
    rw [if_neg sameYear]
    omega

theorem toDays_lt (less : a.dt < b.dt) : a.toDays < b.toDays := by
  obtain ⟨sum, positive⟩ := toDays_add_span less.le
  have := positive less
  omega

theorem exists_next (less : a.dt < b.dt) :
    ∃ next : Date, a.dt < next.dt ∧ next.toDays = a.toDays + 1 := by
  have inA := a.bounds
  have month := daysBeforeMonth_succ a.year inA.1.1
  by_cases sameMonth : a.day < noDaysInMonth a.year a.month
  · refine ⟨{ a with day := a.day + 1, day_mem := ⟨Nat.le_add_left 1 _, sameMonth⟩ }, ?_⟩
    simp only [dt, toDays_eq]
    omega
  by_cases sameYear : a.month < 12
  · refine ⟨⟨a.year, a.month + 1, 1, a.year_mem, ⟨Nat.le_add_left 1 _, sameYear⟩, le_rfl,
      (noDaysInMonth_mem _ sameYear).1⟩, ?_⟩
    simp only [dt, toDays_eq]
    omega
  · have last : a.month = 12 := by omega
    rw [last] at month inA sameMonth
    have early : a.year < 9999 := by
      have december : noDaysInMonth a.year 12 = 31 := by simp [noDaysInMonth, noDays]
      have yearB := b.year_mem
      have inB := b.bounds
      rw [dt, dt] at less
      omega
    have all : daysBeforeMonth a.year (12 + 1) = yearDays a.year := daysBeforeMonth_last a.year
    have year := daysBeforeYear_succ a.year
    have none : daysBeforeMonth (a.year + 1) 1 = 0 := rfl
    refine ⟨⟨a.year + 1, 1, 1, ⟨Nat.le_succ_of_le a.year_mem.1, early⟩, by decide, le_rfl,
      (noDaysInMonth_mem _ (by decide)).1⟩, ?_⟩
    simp only [dt, toDays_eq, last]
    omega

/-- The difference of two dates is the difference of their days, and the days are counted
without gaps in the order of the dates. -/
theorem sub_eq_toDays (a b : Date) : a.sub b = a.toDays - b.toDays ∧
    (a.dt < b.dt → a.toDays < b.toDays) ∧
    (a.dt < b.dt → (∀ c : Date, a.dt < c.dt → b.dt ≤ c.dt) → b.toDays = a.toDays + 1) := by
  refine ⟨?_, toDays_lt, fun less least => ?_⟩
  · rw [sub]
    split
    · rename_i less
      have sum := (toDays_add_span less.le).1
      omega
    · rename_i notLess
      have sum := (toDays_add_span (not_lt.mp notLess)).1
      omega
  · obtain ⟨next, after, oneMore⟩ := exists_next less
    have sum := (toDays_add_span (least next after)).1
    have := toDays_lt less
    omega

def lastOf1999 : Date := ⟨1999, 12, 31, by decide, by decide, by decide⟩

def firstOf2000 : Date := ⟨2000, 1, 1, by decide, by decide, by decide⟩

theorem toDays_newYear : firstOf2000.toDays = lastOf1999.toDays + 1 := by
  refine (sub_eq_toDays lastOf1999 firstOf2000).2.2 (by decide) fun c after => ?_
  have inC := c.bounds
  simp only [dt, lastOf1999, firstOf2000] at after ⊢
  omega

end Date

end Brighthouse.Core
