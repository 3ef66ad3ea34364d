import Brighthouse.Types.BStringLike

/-!
# LIKE conditions

`ConditionEncoder::TransformLIKEsPattern` for texts over any character set.  It takes the bytes
of the pattern other than `%` for the least number of characters of a matching value.
-/

set_option autoImplicit false

namespace Brighthouse.Core.LikeCondition

open Library Library.Wildcard List Types.BString

/-- Characters with their lengths in bytes, and the function that decides LIKE:
`RCBString::Like`, or `wildcmp` for a collation with longer characters. -/
structure Collation (α : Type) where
  percent : α
  bytes : α → Nat
  bytes_pos : ∀ c, 0 < bytes c
  tokens : α → List α → List (Token α)
  tokens_eq_nil : ∀ {esc pattern}, tokens esc pattern = [] ↔ pattern = []
  like : List α → List α → α → Bool
  like_iff_matches : ∀ {s pattern esc}, like s pattern esc = true ↔ Matches (tokens esc pattern) s

inductive Condition (α : Type) where
  | isFalse
  | notNull
  | eq (text : List α)
  | notEq (text : List α)
  | like (negated : Bool)
  | isIn (codes : List Nat)
  | notIn (codes : List Nat)
  deriving DecidableEq

section
variable {α : Type} (c : Collation α) (pattern : List α) (esc : α) (negated : Bool)

def Condition.Holds (s : List α) (code : Nat) : Condition α → Prop
  | isFalse => False
  | notNull => True
  | eq text => s = text
  | notEq text => s ≠ text
  | like negated => c.like s pattern esc = !negated
  | isIn codes => code ∈ codes
  | notIn codes => code ∉ codes

def transformLIKEsIntoINsOnLookup (dic : List (List α)) : Condition α :=
  let codes := (range dic.length).filter fun i => dic[i]?.any (c.like · pattern esc)
  if codes = [] then if negated then .notNull else .isFalse
  else if negated then .notIn codes else .isIn codes

theorem transformLIKEsIntoINsOnLookup_holds_iff {dic : List (List α)} {s : List α} {code : Nat}
    (isCode : dic[code]? = some s) :
    (transformLIKEsIntoINsOnLookup c pattern esc negated dic).Holds c pattern esc s code ↔
      c.like s pattern esc = !negated := by
  have mem_iff : code ∈ (range dic.length).filter (fun i => dic[i]?.any (c.like · pattern esc)) ↔
      c.like s pattern esc = true := by
    rw [mem_filter, mem_range, isCode]
    exact and_iff_right (List.getElem?_eq_some_iff.mp isCode).1
  rw [transformLIKEsIntoINsOnLookup]
  split
  · cases negated <;> simp_all [Condition.Holds]
  · cases negated <;> simp [Condition.Holds, mem_iff]

variable [DecidableEq α]

def minLen : Nat := ((pattern.filter (· ≠ c.percent)).map c.bytes).sum

/-- `dic` is the dictionary of a lookup column. -/
def transformLIKEsPattern (precision : Nat) (dic : Option (List (List α))) : Condition α :=
  if minLen c pattern = 0 then
    if c.percent ∈ pattern then if negated then .isFalse else .notNull
    else if negated then .notEq pattern else .eq pattern
  else if precision < minLen c pattern then if negated then .notNull else .isFalse
  else match dic with
    | some dic => transformLIKEsIntoINsOnLookup c pattern esc negated dic
    | none => .like negated

/-- Every column of the precision keeps the meaning of LIKE and NOT LIKE. -/
def KeepsLike (precision : Nat) : Prop :=
  ∀ (negated : Bool) (dic : Option (List (List α))) (s : List α) (code : Nat),
    s.length ≤ precision → (∀ d, dic = some d → d[code]? = some s) →
      ((transformLIKEsPattern c pattern esc negated precision dic).Holds c pattern esc s code ↔
        c.like s pattern esc = !negated)

variable {c pattern esc}

theorem percent_mem (none : minLen c pattern = 0) (nonempty : pattern ≠ []) :
    c.percent ∈ pattern := by
  obtain ⟨d, rest, rfl⟩ := exists_cons_of_ne_nil nonempty
  by_contra absent
  have kept : (d :: rest).filter (· ≠ c.percent) = d :: rest :=
    filter_eq_self.mpr fun e inside => by grind
  rw [minLen, kept, map_cons, sum_cons] at none
  have := c.bytes_pos d
  omega

/-- The meaning is kept if a pattern of `%` has no escaped one and a pattern with more bytes than
a value has characters needs as many characters. -/
theorem keepsLike_iff {precision : Nat} : KeepsLike c pattern esc precision ↔
    (minLen c pattern = 0 → width (c.tokens esc pattern) = 0) ∧
      (precision < minLen c pattern → precision < width (c.tokens esc pattern)) := by
  constructor
  · intro keeps
    have holds := fun s small => keeps false none s 0 small (by simp)
    refine ⟨fun none => ?_, fun long => ?_⟩
    · by_cases empty : pattern = []
      · rw [c.tokens_eq_nil.mpr empty, width]
      · have all := holds [] (Nat.zero_le _)
        rw [transformLIKEsPattern, if_pos none, if_pos (percent_mem none empty)] at all
        exact matches_empty_iff.mp (c.like_iff_matches.mp (all.mp trivial))
    · by_contra short
      obtain ⟨s, matched, length⟩ := exists_matches_width c.percent (c.tokens esc pattern)
      have never := holds s (by omega)
      rw [transformLIKEsPattern, if_neg (by omega), if_pos long] at never
      exact never.mpr (c.like_iff_matches.mpr matched)
  · rintro ⟨atLeast, tooLong⟩ negated dic s code short isCode
    rw [transformLIKEsPattern.eq_def]
    split
    · rename_i none
      by_cases empty : pattern = []
      · have alone : c.like s pattern esc = true ↔ s = [] := by
          rw [c.like_iff_matches, c.tokens_eq_nil.mpr empty, matches_nil_iff]
        cases negated <;> simp_all [Condition.Holds, ← Bool.not_eq_true]
      · have all : c.like s pattern esc = true :=
          c.like_iff_matches.mpr (matches_of_many (atLeast none) (mt c.tokens_eq_nil.mp empty) s)
        rw [if_pos (percent_mem none empty), all]
        cases negated <;> simp [Condition.Holds]
    · split
      · have never : c.like s pattern esc = false := by
          rw [← Bool.not_eq_true, c.like_iff_matches]
          intro matched
          have := width_le_length matched
          omega
        rw [never]
        cases negated <;> simp [Condition.Holds]
      · cases dic with
        | none => rfl
        | some dic =>
          exact transformLIKEsIntoINsOnLookup_holds_iff c pattern esc negated (isCode dic rfl)

end

def binary : Collation Byte where
  percent := Types.BString.percent
  bytes := fun _ => 1
  bytes_pos := fun _ => Nat.one_pos
  tokens := Types.BString.tokens
  tokens_eq_nil := by
    intro esc pattern
    rw [tokens.eq_def]
    grind
  like := Types.BString.like
  like_iff_matches := by
    intro s pattern esc
    rw [like.eq_def]
    split
    · next empty =>
        rw [empty, decide_eq_true_iff]
        exact matches_nil_iff.symm
    · rw [matchPattern_iff, Pending, if_neg (by decide), patternTokens_patternCells]

/-- `_` is a single character, but its escape sequence has two bytes. -/
theorem not_keepsLike_escaped_underscore : ¬KeepsLike binary [92, 95] 92 1 := by
  intro keeps
  have unchanged := keeps false none [95] 0 (by decide) (by simp)
  exact unchanged.mpr (by decide +kernel)

end Brighthouse.Core.LikeCondition
