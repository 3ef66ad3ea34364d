import Brighthouse.Library.Bytes

/-!
# Byte strings as sort keys

Keys of one length are compared byte by byte.  Numbers are written with their most
significant byte first, strings are padded with zeros, and negating every byte turns the
order around.
-/

set_option autoImplicit false

namespace Brighthouse.Library.SortKey

open Library List Nat Int

variable {s t : Bytes} {m : Nat} {x y : Int}

theorem append_lt_append_iff_of_length (same : s.length = t.length) (a b : Bytes) :
    s ++ a < t ++ b ↔ s < t ∨ s = t ∧ a < b := by
  induction s generalizing t with
  | nil =>
    have nil := length_eq_zero_iff.mp same.symm
    subst nil
    simp
  | cons x s ih =>
    cases t with
    | nil => simp at same
    | cons y t =>
      have tails : s.length = t.length := by simpa using same
      simp only [cons_append, cons_lt_cons_iff, ih tails, cons.injEq]
      tauto

/-! ## Numbers -/

/-- The last `size` bytes of a number, the most significant one first. -/
def bigEndian : Nat → Nat → Bytes
  | 0, _ => []
  | size + 1, n => bigEndian size (n / 256) ++ [Fin.ofNat 256 n]

@[simp]
theorem length_bigEndian (size n : Nat) : (bigEndian size n).length = size := by
  induction size generalizing n with
  | zero => rfl
  | succ size ih => simp [bigEndian, ih]

variable {size n : Nat}

theorem bigEndian_lt_iff (small : m < 256 ^ size) (small' : n < 256 ^ size) :
    bigEndian size m < bigEndian size n ↔ m < n := by
  induction size generalizing m n with
  | zero =>
    rw [pow_zero, lt_one_iff] at small small'
    simp [bigEndian, small']
  | succ size ih =>
    rw [pow_succ'] at small small'
    have high := Nat.div_lt_of_lt_mul small
    have high' := Nat.div_lt_of_lt_mul small'
    have less := ih high high'
    have more := ih high' high
    rw [bigEndian, bigEndian, append_lt_append_iff_of_length (by simp), less]
    have last : [Fin.ofNat 256 m] < [Fin.ofNat 256 n] ↔ m % 256 < n % 256 := by
      simp [cons_lt_cons_iff, Fin.lt_def]
    rw [last]
    constructor
    · rintro (lt | ⟨same, lt⟩)
      · omega
      · rw [same, iff_false_left (lt_irrefl _)] at less more
        omega
    · intro lt
      rcases lt_trichotomy (m / 256) (n / 256) with below | equal | above
      · exact .inl below
      · exact .inr ⟨by rw [equal], by omega⟩
      · omega

theorem bigEndian_inj (small : m < 256 ^ size) (small' : n < 256 ^ size) :
    bigEndian size m = bigEndian size n ↔ m = n := by
  constructor
  · intro same
    have less := bigEndian_lt_iff small small'
    have more := bigEndian_lt_iff small' small
    rw [same, iff_false_left (lt_irrefl _)] at less more
    omega
  · rintro rfl
    rfl

theorem bigEndian_mod (size n : Nat) : bigEndian size (n % 256 ^ size) = bigEndian size n := by
  induction size generalizing n with
  | zero => rfl
  | succ size ih =>
    have low : n % 256 ^ (size + 1) % 256 = n % 256 :=
      mod_mod_of_dvd n (dvd_pow_self 256 (succ_ne_zero size))
    have high : n % 256 ^ (size + 1) / 256 = n / 256 % 256 ^ size := by
      rw [pow_succ', mod_mul_right_div_self]
    have byte : Fin.ofNat 256 (n % 256 ^ (size + 1)) = Fin.ofNat 256 n := Fin.ext low
    rw [bigEndian, high, ih, byte, bigEndian]

theorem cons_bigEndian (c : Byte) (small : n < 256 ^ size) :
    c :: bigEndian size n = bigEndian (size + 1) (c.val * 256 ^ size + n) := by
  induction size generalizing n with
  | zero =>
    rw [pow_zero, lt_one_iff] at small
    simp [bigEndian, small]
  | succ size ih =>
    have high := Nat.div_lt_of_lt_mul (by rwa [pow_succ'] at small)
    have scaled : c.val * 256 ^ (size + 1) + n = 256 * (c.val * 256 ^ size) + n := by
      rw [pow_succ, mul_comm _ 256, mul_left_comm]
    rw [bigEndian, bigEndian, scaled, mul_add_div (by decide), ← ih high]
    have byte : Fin.ofNat 256 (256 * (c.val * 256 ^ size) + n) = Fin.ofNat 256 n :=
      Fin.ext (mul_add_mod 256 _ n)
    rw [byte, cons_append]

def wordBytes (size : Nat) (x : Int) : Bytes := bigEndian size (x % 256 ^ size).toNat

theorem wordBytes_of_nonneg (nonneg : 0 ≤ x) (small : x < 256 ^ size) :
    wordBytes size x = bigEndian size x.toNat := by
  rw [wordBytes, emod_eq_of_lt nonneg small]

theorem toNat_emod_lt (size : Nat) (x : Int) : (x % 256 ^ size).toNat < 256 ^ size := by
  have positive : (0 : Int) < 256 ^ size := Int.pow_pos (by decide)
  have below := emod_lt_of_pos x positive
  have above := emod_nonneg x positive.ne'
  zify
  rwa [toNat_of_nonneg above]

theorem wordBytes_eq_iff :
    wordBytes size x = wordBytes size y ↔ x % 256 ^ size = y % 256 ^ size := by
  rw [wordBytes, wordBytes, bigEndian_inj (toNat_emod_lt size x) (toNat_emod_lt size y)]
  omega

theorem wordBytes_lt_iff (nonneg : 0 ≤ x) (small : x < 256 ^ size) (nonneg' : 0 ≤ y)
    (small' : y < 256 ^ size) : wordBytes size x < wordBytes size y ↔ x < y := by
  rw [wordBytes, wordBytes, bigEndian_lt_iff (toNat_emod_lt size x) (toNat_emod_lt size y),
    emod_eq_of_lt nonneg small, emod_eq_of_lt nonneg' small']
  omega

/-- A word cut down to `size` bytes. -/
theorem bigEndian_eq_wordBytes (width : Nat) (fits : size ≤ width) :
    bigEndian size (x % 256 ^ width).toNat = wordBytes size x := by
  have positive : (0 : Int) < 256 ^ width := Int.pow_pos (by decide)
  have above := emod_nonneg x positive.ne'
  rw [← bigEndian_mod]
  congr 1
  zify
  rw [toNat_of_nonneg above, emod_emod_of_dvd x (pow_dvd_pow 256 fits),
    Int.toNat_of_nonneg (Int.emod_nonneg x (Int.pow_pos (by decide)).ne')]

/-! ## Negated keys -/

def complement (s : Bytes) : Bytes := s.map Fin.rev

@[simp]
theorem length_complement (s : Bytes) : (complement s).length = s.length := length_map _

@[simp]
theorem complement_complement (s : Bytes) : complement (complement s) = s := by
  simp [complement, Function.comp_def]

theorem complement_inj : complement s = complement t ↔ s = t :=
  ⟨fun same => by rw [← complement_complement s, same, complement_complement],
    fun same => by rw [same]⟩

theorem complement_lt_iff (same : s.length = t.length) : complement s < complement t ↔ t < s := by
  induction s generalizing t with
  | nil =>
    have nil := length_eq_zero_iff.mp same.symm
    subst nil
    rfl
  | cons x s ih =>
    cases t with
    | nil => simp at same
    | cons y t =>
      have tails : s.length = t.length := by simpa using same
      have rest := ih tails
      unfold complement at rest ⊢
      simp only [map_cons, cons_lt_cons_iff, Fin.rev_lt_rev, Fin.rev_inj, rest]
      rw [@eq_comm _ x y]

/-! ## Padded strings -/

def pad (n : Nat) (s : Bytes) : Bytes := s ++ List.replicate (n - s.length) 0

theorem length_pad (fits : s.length ≤ n) : (pad n s).length = n := by
  simp [pad, fits]

theorem pad_nil_succ (n : Nat) : pad (n + 1) [] = 0 :: pad n [] := by
  simp [pad, replicate_succ]

theorem pad_cons (n : Nat) (c : Byte) (s : Bytes) : pad (n + 1) (c :: s) = c :: pad n s := by
  simp [pad]

theorem pad_append_lt : ∀ {s t a b : Bytes}, s.length ≤ n → t.length ≤ n → s < t →
    (s.length < t.length → a < b) → pad n s ++ a < pad n t ++ b := by
  induction n with
  | zero =>
    intro s t a b fits fits' less _
    rw [length_eq_zero_iff.mp (le_zero.mp fits'),
      length_eq_zero_iff.mp (le_zero.mp fits)] at less
    exact absurd less (lt_irrefl _)
  | succ n ih =>
    intro s t a b fits fits' less ends
    cases t with
    | nil => exact absurd less (not_lt_nil s)
    | cons y t =>
      cases s with
      | nil =>
        rw [pad_nil_succ, pad_cons, cons_append, cons_append, cons_lt_cons_iff]
        rcases (Fin.zero_le y).lt_or_eq with positive | zero
        · exact .inl positive
        · refine .inr ⟨zero, ?_⟩
          have order := ends (by simp)
          cases t with
          | nil => exact (Bytes.append_lt_append_iff _).mpr order
          | cons z t =>
            exact ih (by simp) (by simpa using fits') (nil_lt_cons z t)
              fun _ => order
      | cons x s =>
        rw [pad_cons, pad_cons, cons_append, cons_append, cons_lt_cons_iff]
        rcases cons_lt_cons_iff.mp less with smaller | ⟨same, rest⟩
        · exact .inl smaller
        · exact .inr ⟨same, ih (by simpa using fits) (by simpa using fits') rest
            fun shorter => ends (by simpa using shorter)⟩

end Brighthouse.Library.SortKey
