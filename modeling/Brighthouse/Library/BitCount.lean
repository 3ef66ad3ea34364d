import Mathlib

/-!
# Counting ones

The number of ones among the first `n` bits of a bit sequence, and how it changes
when single bits change.
-/

set_option autoImplicit false

namespace Brighthouse.Library.BitCount

open Bool

def ones (p : Nat → Bool) (n : Nat) : Nat := Nat.count (fun m => p m = true) n

variable {p q : Nat → Bool} {i n : Nat}

theorem ones_zero (p : Nat → Bool) : ones p 0 = 0 := Nat.count_zero _

theorem ones_succ (p : Nat → Bool) (n : Nat) : ones p (n + 1) = ones p n + (p n).toNat := by
  rw [ones, Nat.count_succ]
  cases p n <;> rfl

theorem ones_add (p : Nat → Bool) (n k : Nat) :
    ones p (n + k) = ones p n + ones (fun m => p (n + m)) k := Nat.count_add _ n k

theorem ones_congr (same : ∀ m < n, p m = q m) : ones p n = ones q n := by
  induction n with
  | zero => rw [ones_zero, ones_zero]
  | succ n ih =>
    rw [ones_succ, ones_succ, ih fun m lt => same m (by omega), same n (by omega)]

theorem ones_not (p : Nat → Bool) (n : Nat) : ones (fun m => !p m) n + ones p n = n := by
  induction n with
  | zero => rw [ones_zero, ones_zero]
  | succ n ih =>
    rw [ones_succ, ones_succ]
    cases p n with
    | false =>
      simp only [Bool.not_false, Bool.toNat_true, Bool.toNat_false]
      omega
    | true =>
      simp only [Bool.not_true, Bool.toNat_true, Bool.toNat_false]
      omega

theorem ones_mono (sub : ∀ m < n, p m = true → q m = true) : ones p n ≤ ones q n := by
  induction n with
  | zero => exact le_refl _
  | succ n ih =>
    have before := ih fun m lt => sub m (by omega)
    have last := sub n (by omega)
    rw [ones_succ, ones_succ]
    cases bit : p n with
    | false => exact Nat.add_le_add before (Nat.zero_le _)
    | true =>
      rw [last bit]
      exact Nat.add_le_add_right before _

theorem ones_eq_ones_iff (sub : ∀ m < n, p m = true → q m = true) :
    ones p n = ones q n ↔ ∀ m < n, p m = q m := by
  refine ⟨fun same => ?_, ones_congr⟩
  induction n with
  | zero => exact fun m lt => absurd lt (Nat.not_lt_zero m)
  | succ n ih =>
    have before := ones_mono fun m (lt : m < n) => sub m (by omega)
    have last := sub n (by omega)
    rw [ones_succ, ones_succ] at same
    have step : ones p n = ones q n ∧ p n = q n := by
      cases bit : p n with
      | false =>
        cases bit' : q n with
        | false =>
          rw [bit, bit'] at same
          exact ⟨add_right_cancel same, rfl⟩
        | true =>
          rw [bit, bit'] at same
          simp only [toNat_false, toNat_true] at same
          omega
      | true =>
        rw [bit, last bit] at same
        exact ⟨add_right_cancel same, (last bit).symm⟩
    intro m lt
    rcases Nat.lt_succ_iff_lt_or_eq.mp lt with less | rfl
    · exact ih (fun m lt => sub m (by omega)) step.1 m less
    · exact step.2

theorem ones_le (p : Nat → Bool) (n : Nat) : ones p n ≤ n := by
  have := ones_not p n
  omega

theorem ones_eq_zero_iff : ones p n = 0 ↔ ∀ m < n, p m = false := by
  induction n with
  | zero => simp [ones_zero]
  | succ n ih =>
    rw [ones_succ, Nat.add_eq_zero_iff, ih]
    constructor
    · rintro ⟨before, last⟩ m lt
      rcases Nat.lt_succ_iff_lt_or_eq.mp lt with lt | rfl
      · exact before m lt
      · cases bit : p m with
        | false => rfl
        | true => rw [bit] at last; cases last
    · intro every
      exact ⟨fun m lt => every m (by omega), by rw [every n (by omega)]; rfl⟩

theorem ones_eq_iff : ones p n = n ↔ ∀ m < n, p m = true := by
  have sum := ones_not p n
  have complement : ones (fun m => !p m) n = 0 ↔ ∀ m < n, p m = true := by
    rw [ones_eq_zero_iff]
    simp
  rw [← complement]
  omega

theorem ones_const (value : Bool) (n : Nat) : ones (fun _ => value) n = value.toNat * n := by
  cases value with
  | false =>
    rw [toNat_false, Nat.zero_mul]
    exact ones_eq_zero_iff.mpr fun _ _ => rfl
  | true =>
    rw [toNat_true, one_mul]
    exact ones_eq_iff.mpr fun _ _ => rfl

/-! ## Writing a range of bits -/

/-- The bits from `first` on and below `stop` are overwritten with `value`. -/
def fill (p : Nat → Bool) (first stop : Nat) (value : Bool) : Nat → Bool :=
  fun m => if first ≤ m ∧ m < stop then value else p m

variable {first middle stop : Nat} {value : Bool}

theorem fill_inside {m : Nat} (low : first ≤ m) (high : m < stop) :
    fill p first stop value m = value := if_pos ⟨low, high⟩

theorem fill_outside {m : Nat} (outside : m < first ∨ stop ≤ m) :
    fill p first stop value m = p m := if_neg (by omega)

theorem fill_empty (p : Nat → Bool) (first : Nat) (value : Bool) :
    fill p first first value = p := by
  funext m
  exact fill_outside (by omega)

theorem fill_one {m : Nat} : fill p i (i + 1) value m = if m = i then value else p m := by
  by_cases here : m = i
  · rw [if_pos here, here, fill_inside (le_refl i) (by omega)]
  · rw [if_neg here, fill_outside (by omega)]

theorem fill_same (same : p i = value) : fill p i (i + 1) value = p := by
  funext m
  rw [fill_one]
  by_cases here : m = i
  · rw [if_pos here, here, same]
  · rw [if_neg here]

theorem fill_of_all (all : ∀ m < n, fill p first middle value m = value) (le : middle ≤ stop) :
    ∀ m < n, fill p first stop value m = value := by
  intro m lt
  by_cases inside : first ≤ m ∧ m < stop
  · exact fill_inside inside.1 inside.2
  · rw [fill_outside (by omega), ← all m lt, fill_outside (by omega)]

theorem fill_fill (low : first ≤ middle) (high : middle ≤ stop) :
    fill (fill p first middle value) middle stop value = fill p first stop value := by
  funext m
  by_cases inside : middle ≤ m ∧ m < stop
  · rw [fill_inside inside.1 inside.2, fill_inside (by omega) inside.2]
  · rw [fill_outside (by omega)]
    by_cases before : first ≤ m ∧ m < middle
    · rw [fill_inside before.1 before.2, fill_inside before.1 (by omega)]
    · rw [fill_outside (by omega), fill_outside (by omega)]

theorem fill_comm {first2 stop2 : Nat} :
    fill (fill p first stop value) first2 stop2 value =
      fill (fill p first2 stop2 value) first stop value := by
  funext m
  rw [fill, fill, fill, fill]
  split_ifs <;> rfl

theorem fill_shift (offset m : Nat) :
    fill (fun k => p (offset + k)) first stop value m =
      fill p (offset + first) (offset + stop) value (offset + m) := by
  by_cases inside : first ≤ m ∧ m < stop
  · rw [fill_inside inside.1 inside.2, fill_inside (by omega) (by omega)]
  · rw [fill_outside (by omega), fill_outside (by omega)]

theorem ones_fill (p : Nat → Bool) (value : Bool) (low : first ≤ stop) (high : stop ≤ n) :
    ones (fill p first stop value) n + ones (fun m => p (first + m)) (stop - first) =
      ones p n + value.toNat * (stop - first) := by
  obtain ⟨k, rfl⟩ := Nat.exists_eq_add_of_le low
  obtain ⟨rest, rfl⟩ := Nat.exists_eq_add_of_le high
  have before : ones (fill p first (first + k) value) first = ones p first :=
    ones_congr fun m lt => fill_outside (by omega)
  have inside : ones (fun m => fill p first (first + k) value (first + m)) k = value.toNat * k := by
    rw [← ones_const value k]
    exact ones_congr fun m lt => fill_inside (by omega) (by omega)
  have after : ones (fun m => fill p first (first + k) value (first + k + m)) rest =
      ones (fun m => p (first + k + m)) rest :=
    ones_congr fun m lt => fill_outside (by omega)
  rw [Nat.add_sub_cancel_left, ones_add _ (first + k), ones_add _ first, ones_add p (first + k),
    ones_add p first]
  omega

theorem ones_fill_one (p : Nat → Bool) (value : Bool) (lt : i < n) :
    ones (fill p i (i + 1) value) n + (p i).toNat = ones p n + value.toNat := by
  have counted := ones_fill p value (Nat.le_add_right i 1) lt
  rw [Nat.add_sub_cancel_left, ones_succ, ones_zero, zero_add, mul_one] at counted
  exact counted

theorem ones_upTo (lt : i < n) : ones (fun m => decide (m ≤ i)) n = i + 1 := by
  have counted := ones_fill (fun _ => false) true (Nat.zero_le (i + 1)) lt
  rw [ones_const, ones_const, toNat_false, toNat_true] at counted
  have same : ones (fun m => decide (m ≤ i)) n = ones (fill (fun _ => false) 0 (i + 1) true) n := by
    refine ones_congr fun m _ => ?_
    by_cases le : m ≤ i
    · rw [fill_inside (Nat.zero_le m) (by omega), decide_eq_true le]
    · rw [fill_outside (by omega), decide_eq_false le]
  omega

/-! ## Positions of ones -/

open List

/-- The positions of the ones of `p` from `first` up to `stop`, which is excluded. -/
def onesIn (p : Nat → Bool) (first stop : Nat) : List Nat :=
  (List.range' first (stop - first)).filter p

variable {first middle stop y : Nat} {rest : List Nat}

theorem mem_onesIn {m : Nat} : m ∈ onesIn p first stop ↔ (first ≤ m ∧ m < stop) ∧ p m = true := by
  rw [onesIn, mem_filter, mem_range'_1]
  refine and_congr_left fun _ => ?_
  omega

theorem onesIn_of_le (le : stop ≤ first) : onesIn p first stop = [] := by
  rw [onesIn, Nat.sub_eq_zero_of_le le]
  rfl

theorem onesIn_step (lt : first < stop) :
    onesIn p first stop = (if p first then [first] else []) ++ onesIn p (first + 1) stop := by
  have size : stop - first = stop - (first + 1) + 1 := by omega
  rw [onesIn, size, range'_succ, filter_cons]
  split <;> rfl

theorem onesIn_cons (lt : first < stop) (set : p first = true) :
    onesIn p first stop = first :: onesIn p (first + 1) stop := by
  rw [onesIn_step lt, if_pos set]
  rfl

theorem onesIn_append (low : first ≤ middle) (high : middle ≤ stop) :
    onesIn p first stop = onesIn p first middle ++ onesIn p middle stop := by
  have size : stop - first = (middle - first) + (stop - middle) := by omega
  have start : middle = first + (middle - first) := by omega
  rw [onesIn, onesIn, onesIn, ← filter_append, size, ← range'_append_1, ← start]

theorem length_onesIn (p : Nat → Bool) (first n : Nat) :
    (onesIn p first (first + n)).length = ones (fun m => p (first + m)) n := by
  induction n with
  | zero => rw [add_zero, onesIn_of_le (le_refl first)]; rfl
  | succ n ih =>
    rw [onesIn_append (Nat.le_add_right first n) (by omega : first + n ≤ first + (n + 1)),
      length_append, ih, ones_succ, onesIn_step (by omega), onesIn_of_le (by omega)]
    cases p (first + n) <;> rfl

theorem nodup_onesIn (p : Nat → Bool) (first stop : Nat) : (onesIn p first stop).Nodup :=
  List.Nodup.filter _ nodup_range'

theorem onesIn_of_cons (split : onesIn p first stop = y :: rest) :
    first ≤ y ∧ y < stop ∧ p y = true ∧ onesIn p y stop = y :: rest := by
  have mem : y ∈ onesIn p first stop := by rw [split]; exact mem_cons_self
  obtain ⟨⟨low, high⟩, set⟩ := mem_onesIn.mp mem
  refine ⟨low, high, set, ?_⟩
  have parts := onesIn_append low high.le (p := p)
  rw [split] at parts
  cases before : onesIn p first y with
  | nil => rw [parts, before, nil_append]
  | cons m earlier =>
    rw [before, cons_append, cons.injEq] at parts
    have inBefore : y ∈ onesIn p first y := by
      rw [before, parts.1]
      exact mem_cons_self
    exact absurd (mem_onesIn.mp inBefore).1.2 (lt_irrefl y)

theorem onesIn_before_first (split : onesIn p first stop = y :: rest) : onesIn p first y = [] := by
  obtain ⟨low, high, _, here⟩ := onesIn_of_cons split
  have parts : onesIn p first stop = onesIn p first y ++ onesIn p y stop :=
    onesIn_append low high.le
  rw [split, here] at parts
  exact self_eq_append_left.mp parts

theorem length_onesIn_of_gap (le : first ≤ middle) (gap : onesIn p first middle = []) :
    (onesIn p 0 middle).length = (onesIn p 0 first).length := by
  rw [onesIn_append (Nat.zero_le first) le, gap, append_nil]

end Brighthouse.Library.BitCount
