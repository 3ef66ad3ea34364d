import Brighthouse.Types.BString

/-!
# LIKE matching

Functional model of `RCBString::Like`.  The positions `cur_p` and `cur_s` are kept as
the part of the pattern, or of the source, that starts there.  A pattern position holds
the two characters the loops read: `p[i]` from the pattern and `w[i]` from the wildcard
map.
-/

set_option autoImplicit false

namespace Brighthouse.Types.BString

open Library Library.Wildcard List Bool

structure PatternCell where
  p : Byte
  w : Byte
  deriving DecidableEq, Repr

def PatternCell.token (cell : PatternCell) : Token Byte :=
  if cell.w = percent then .many else if cell.w = underscore then .one else .lit cell.p

open PatternCell

def blank : Byte := 32

/-! ## Escape processing -/

def escaped (esc : Byte) : Bytes → Bool
  | [] => false
  | [_] => false
  | c :: d :: rest => decide (Escapes esc c d) || escaped esc (d :: rest)

def wildcardOf (c : Byte) : Byte := if c = underscore ∨ c = percent then c else blank

def processEscapes (esc : Byte) : Bytes → List PatternCell
  | [] => []
  | [c] => [⟨c, wildcardOf c⟩]
  | c :: d :: rest =>
    if Escapes esc c d then ⟨d, blank⟩ :: processEscapes esc rest
    else ⟨c, wildcardOf c⟩ :: processEscapes esc (d :: rest)

/-- Without escape sequences both `p` and `w` point to the pattern itself. -/
def patternCells (esc : Byte) (pattern : Bytes) : List PatternCell :=
  if escaped esc pattern then processEscapes esc pattern else pattern.map fun c => ⟨c, c⟩

/-! ## The search -/

def startsWithPercent : List PatternCell → Bool
  | [] => false
  | cell :: _ => cell.w == percent

def matchRun : List PatternCell → Bytes → List PatternCell × Bytes
  | cell :: pat, c :: src =>
    if (c = cell.p ∨ cell.w = underscore) ∧ cell.w ≠ percent then matchRun pat src
    else (cell :: pat, c :: src)
  | pat, src => (pat, src)

def onlyPercent (pat : List PatternCell) : Bool := pat.all fun cell => cell.w == percent

/-- How the internal loop ends: with the result of the whole function, or with the
positions at which the outer loop goes on. -/
inductive SegmentEnd where
  | answer (result : Bool)
  | leave (pat : List PatternCell) (src : Bytes)
  deriving DecidableEq, Repr

/-- The internal loop, which tries to match a part between `%...%` from `patBeg` at
`srcBeg` and, after a `%`, at every later source position. -/
def matchSegment (wasWild : Bool) (patBeg : List PatternCell) : Bytes → SegmentEnd
  | [] => .answer (onlyPercent patBeg)
  | c :: srcNext =>
    let (pat, src) := matchRun patBeg (c :: srcNext)
    if src ≠ [] ∧ startsWithPercent pat = false then
      if wasWild = false then .answer false
      else if srcNext = [] then .answer (onlyPercent patBeg)
      else if patBeg ≠ [] ∧ startsWithPercent patBeg = false then
        matchSegment wasWild patBeg srcNext
      else .leave patBeg srcNext
    else if src = [] then .answer (onlyPercent pat)
    else .leave pat src

/-- What the innermost loop has matched when it stops. -/
structure RunSpec (pat : List PatternCell) (src : Bytes) (used : List PatternCell)
    (read : Bytes) (pat' : List PatternCell) (src' : Bytes) : Prop where
  pattern : pat = used ++ pat'
  source : src = read ++ src'
  length : read.length = used.length
  fixed : ∀ cell ∈ used, cell.w ≠ percent
  fits : Matches (used.map token) read

theorem matchRun_spec (pat : List PatternCell) (src : Bytes) :
    ∃ used read, RunSpec pat src used read (matchRun pat src).1 (matchRun pat src).2 := by
  fun_induction matchRun pat src with
  | case1 cell pat c src step ih =>
    obtain ⟨used, read, run⟩ := ih
    have first : Matches ((cell :: used).map token) (c :: read) := by
      rw [map_cons, token, if_neg step.2]
      by_cases wild : cell.w = underscore
      · rw [if_pos wild]
        exact Matches.one run.fits
      · rw [if_neg wild, ← step.1.resolve_right wild]
        exact Matches.lit run.fits
    exact ⟨cell :: used, c :: read, by rw [cons_append, ← run.pattern],
      by rw [cons_append, ← run.source], by simp [run.length],
      forall_mem_cons.mpr ⟨step.2, run.fixed⟩, first⟩
  | case2 cell pat c src stop =>
    exact ⟨[], [], rfl, rfl, rfl, by simp, Matches.nil⟩
  | case3 pat src stop =>
    exact ⟨[], [], rfl, rfl, rfl, by simp, Matches.nil⟩

theorem matchRun_mismatch {pat : List PatternCell} {src : Bytes}
    (more : (matchRun pat src).2 ≠ []) (plain : startsWithPercent (matchRun pat src).1 = false) :
    ¬Matches (pat.map token) src := by
  fun_induction matchRun pat src with
  | case1 cell pat c src step ih =>
    intro matched
    rw [map_cons, token, if_neg step.2] at matched
    split at matched
    · cases matched with
      | one matched => exact ih more plain matched
    · cases matched with
      | lit matched => exact ih more plain matched
  | case2 cell pat c src stop =>
    intro matched
    have notPercent : cell.w ≠ percent := by simpa [startsWithPercent] using plain
    rw [map_cons, token, if_neg notPercent] at matched
    split at matched
    · next wild => exact stop ⟨.inr wild, notPercent⟩
    · cases matched with
      | lit matched => exact stop ⟨.inl rfl, notPercent⟩
  | case3 pat src stop =>
    intro matched
    cases pat with
    | nil => exact more (matches_nil_iff.mp matched)
    | cons cell pat =>
      cases src with
      | nil => exact more rfl
      | cons c src => exact stop cell pat c src rfl rfl

abbrev patternTokens (pat : List PatternCell) : List (Token Byte) := pat.map token

/-- What is still to be matched: after a `%` the source may be entered anywhere. -/
def Pending (wasWild : Bool) (pat : List PatternCell) (src : Bytes) : Prop :=
  if wasWild then Matches (.many :: patternTokens pat) src else Matches (patternTokens pat) src

theorem onlyPercent_iff (pat : List PatternCell) :
    onlyPercent pat = true ↔ width (patternTokens pat) = 0 := by
  induction pat with
  | nil => simp [onlyPercent, width]
  | cons cell pat ih =>
    simp only [onlyPercent, all_cons, and_eq_true, beq_iff_eq, patternTokens,
      map_cons, token] at ih ⊢
    by_cases isPercent : cell.w = percent
    · simpa [isPercent, width] using ih
    · rw [if_neg isPercent]
      split <;> simp [isPercent, width]

variable {wasWild : Bool}

theorem pending_of_percent {pat : List PatternCell} {src : Bytes}
    (percentNext : startsWithPercent pat = true) :
    Pending wasWild pat src ↔ Matches (.many :: patternTokens pat) src := by
  cases pat with
  | nil => simp [startsWithPercent] at percentNext
  | cons cell pat =>
    have isPercent : cell.w = percent := by simpa [startsWithPercent] using percentNext
    have token : patternTokens (cell :: pat) = .many :: patternTokens pat := by
      simp [patternTokens, token, isPercent]
    unfold Pending
    split
    · rfl
    · rw [token, matches_many_many]

theorem pending_nil_iff {pat : List PatternCell} :
    Pending wasWild pat [] ↔ onlyPercent pat = true := by
  rw [onlyPercent_iff]
  unfold Pending
  split
  · exact matches_empty_iff
  · exact matches_empty_iff

theorem fixed_tokens {used : List PatternCell} (fixed : ∀ cell ∈ used, cell.w ≠ percent) :
    Token.many ∉ patternTokens used := by
  intro mem
  obtain ⟨cell, inside, isMany⟩ := mem_map.mp mem
  rw [token, if_neg (fixed cell inside)] at isMany
  split at isMany <;> cases isMany

section
variable {pat used pat' : List PatternCell} {src read src' : Bytes}

theorem RunSpec.pending_exhausted (run : RunSpec pat src used read pat' []) (wasWild : Bool) :
    Pending wasWild pat src ↔ onlyPercent pat' = true := by
  have source : src = read := by simpa using run.source
  have length : read.length = (patternTokens used).length := by simpa using run.length
  have exhausted := matches_exhausted (patternTokens pat') (fixed_tokens run.fixed)
    run.fits length
  rw [onlyPercent_iff, source, run.pattern]
  unfold Pending
  rw [patternTokens, map_append]
  split
  · exact exhausted
  · constructor
    · intro matched
      exact exhausted.mp (matches_many_iff.mpr ⟨_, suffix_refl _, matched⟩)
    · intro none
      have whole := matches_append run.fits (matches_of_width_zero none)
      rwa [append_nil] at whole

theorem RunSpec.pending_percent (run : RunSpec pat src used read pat' src') (wasWild : Bool)
    (percentNext : startsWithPercent pat' = true) :
    Pending wasWild pat src ↔ Matches (.many :: patternTokens pat') src' := by
  obtain ⟨cell, rest, rfl⟩ : ∃ cell rest, pat' = cell :: rest := by
    cases pat' with
    | nil => simp [startsWithPercent] at percentNext
    | cons cell rest => exact ⟨cell, rest, rfl⟩
  have isPercent : cell.w = percent := by simpa [startsWithPercent] using percentNext
  have token : patternTokens (cell :: rest) = .many :: patternTokens rest := by
    simp [patternTokens, token, isPercent]
  have length : read.length = (patternTokens used).length := by simpa using run.length
  have first := matches_first_place (patternTokens rest) src'
    (fixed_tokens run.fixed) run.fits length
  have whole : patternTokens pat = patternTokens used ++ .many :: patternTokens rest := by
    rw [run.pattern, patternTokens, map_append]
    exact congrArg _ token
  rw [token, matches_many_many, ← first, run.source]
  unfold Pending
  rw [whole]
  split
  · rfl
  · constructor
    · intro matched
      exact matches_many_iff.mpr ⟨_, suffix_refl _, matched⟩
    · intro matched
      exact matches_append run.fits (first.mp matched)

theorem RunSpec.shorter (run : RunSpec pat src used read pat' src')
    (plain : startsWithPercent pat = false) (percentNext : startsWithPercent pat' = true) :
    pat'.length < pat.length := by
  have pattern := run.pattern
  cases used with
  | nil =>
    rw [nil_append] at pattern
    rw [pattern, percentNext] at plain
    cases plain
  | cons cell used =>
    rw [pattern, length_append, length_cons]
    omega

end

/-- The internal loop keeps what is pending, or answers it. -/
def SegmentEnd.Decides (wasWild : Bool) (patBeg : List PatternCell) (src : Bytes) :
    SegmentEnd → Prop
  | .answer result => Pending wasWild patBeg src ↔ result = true
  | .leave pat src' => (Pending wasWild patBeg src ↔ Matches (.many :: patternTokens pat) src') ∧
      src' ≠ [] ∧ (pat = [] ∨ startsWithPercent pat = true ∧ pat.length < patBeg.length)

section
variable {patBeg : List PatternCell} {c : Byte} {srcNext : Bytes}
  (mismatch : ¬Matches (patternTokens patBeg) (c :: srcNext))
include mismatch

theorem pending_cons_of_mismatch :
    Pending true patBeg (c :: srcNext) ↔ Pending true patBeg srcNext := by
  simp only [Pending, if_true]
  rw [matches_many_cons, or_iff_right mismatch]

theorem decides_of_mismatch {result : SegmentEnd} (next : result.Decides true patBeg srcNext) :
    result.Decides true patBeg (c :: srcNext) := by
  have later := pending_cons_of_mismatch mismatch
  cases result with
  | answer result => exact later.trans next
  | leave pat src => exact ⟨later.trans next.1, next.2⟩

end

variable {patBeg : List PatternCell} {src : Bytes}

theorem matchSegment_decides (wasWild : Bool) (plain : startsWithPercent patBeg = false)
    (src : Bytes) : (matchSegment wasWild patBeg src).Decides wasWild patBeg src := by
  induction src with
  | nil => exact pending_nil_iff
  | cons c srcNext ih =>
    obtain ⟨used, read, run⟩ := matchRun_spec patBeg (c :: srcNext)
    have mismatch : _ → _ → ¬Matches (patternTokens patBeg) (c :: srcNext) := matchRun_mismatch
    rw [matchSegment]
    generalize matchRun patBeg (c :: srcNext) = stop at run mismatch
    obtain ⟨pat, src⟩ := stop
    dsimp only at run mismatch ⊢
    by_cases failed : src ≠ [] ∧ startsWithPercent pat = false
    · have noMatch := mismatch failed.1 failed.2
      rw [if_pos failed]
      cases wasWild with
      | false =>
        simpa [SegmentEnd.Decides, Pending] using noMatch
      | true =>
        by_cases last : srcNext = []
        · subst last
          exact decides_of_mismatch noMatch pending_nil_iff
        · rw [if_neg last]
          by_cases again : patBeg ≠ [] ∧ startsWithPercent patBeg = false
          · rw [if_pos again]
            exact decides_of_mismatch noMatch ih
          · rw [if_neg again]
            have empty : patBeg = [] := by
              by_contra nonempty
              exact again ⟨nonempty, plain⟩
            exact decides_of_mismatch noMatch ⟨by simp [Pending], last, .inl empty⟩
    · rw [if_neg failed]
      by_cases exhausted : src = []
      · subst exhausted
        exact run.pending_exhausted wasWild
      · rw [if_neg exhausted]
        have percentNext : startsWithPercent pat = true := by
          by_contra notNext
          exact failed ⟨exhausted, eq_false_iff.mpr notNext⟩
        exact ⟨run.pending_percent wasWild percentNext, exhausted,
          .inr ⟨percentNext, run.shorter plain percentNext⟩⟩

/-! ## The outer loop -/

def skipPercent (pat : List PatternCell) : List PatternCell :=
  pat.dropWhile fun cell => cell.w == percent

theorem skipPercent_plain (pat : List PatternCell) :
    startsWithPercent (skipPercent pat) = false := by
  induction pat with
  | nil => rfl
  | cons cell pat ih =>
    rw [skipPercent, dropWhile_cons]
    split
    · exact ih
    · next notPercent => simpa [startsWithPercent] using notPercent

theorem matches_many_skipPercent (pat : List PatternCell) (src : Bytes) :
    Matches (.many :: patternTokens (skipPercent pat)) src ↔
      Matches (.many :: patternTokens pat) src := by
  induction pat with
  | nil => rfl
  | cons cell pat ih =>
    rw [skipPercent, dropWhile_cons]
    split
    · next isPercent =>
        have token : patternTokens (cell :: pat) = .many :: patternTokens pat := by
          simp [patternTokens, token, beq_iff_eq.mp isPercent]
        rw [token, matches_many_many]
        exact ih
    · rfl

theorem pending_skipPercent (wasWild : Bool) (pat : List PatternCell) (src : Bytes) :
    Pending (wasWild || startsWithPercent pat) (skipPercent pat) src ↔ Pending wasWild pat src := by
  cases starts : startsWithPercent pat with
  | true =>
    rw [pending_of_percent starts, Bool.or_true, ← matches_many_skipPercent]
    rfl
  | false =>
    have skipped : skipPercent pat = pat := by
      cases pat with
      | nil => rfl
      | cons cell pat => simpa [skipPercent, startsWithPercent] using starts
    rw [Bool.or_false, skipped]

theorem decides_of_segment {wasWild : Bool} {pat : List PatternCell} {result}
    (segment : matchSegment (wasWild || startsWithPercent pat) (skipPercent pat) src = result) :
    result.Decides (wasWild || startsWithPercent pat) (skipPercent pat) src :=
  segment ▸ matchSegment_decides _ (skipPercent_plain pat) src

/-- The outer loop.  It goes on only in front of a `%`, so every turn shortens the
pattern. -/
def matchPattern (wasWild : Bool) (pat : List PatternCell) (src : Bytes) : Bool :=
  match _segment : matchSegment (wasWild || startsWithPercent pat) (skipPercent pat) src with
  | .answer result => result
  | .leave pat' src' =>
    if _more : pat' ≠ [] ∧ src' ≠ [] then
      matchPattern (wasWild || startsWithPercent pat) pat' src'
    else true
termination_by pat.length
decreasing_by
  rcases (decides_of_segment _segment).2.2 with empty | ⟨_, shorter⟩
  · exact absurd empty _more.1
  · exact shorter.trans_le (dropWhile_suffix _).length_le

theorem matchPattern_iff (wasWild : Bool) (pat : List PatternCell) (src : Bytes) :
    matchPattern wasWild pat src = true ↔ Pending wasWild pat src := by
  fun_induction matchPattern wasWild pat src with
  | case1 wasWild pat src result segment =>
    exact (decides_of_segment segment).symm.trans (pending_skipPercent wasWild pat src)
  | case2 wasWild pat src pat' src' segment more ih =>
    have decides := decides_of_segment segment
    have percentNext : startsWithPercent pat' = true := (decides.2.2.resolve_left more.1).1
    rw [ih, pending_of_percent percentNext, ← decides.1]
    exact pending_skipPercent wasWild pat src
  | case3 wasWild pat src pat' src' segment stop =>
    have decides := decides_of_segment segment
    have empty : pat' = [] := by
      by_contra nonempty
      exact stop ⟨nonempty, decides.2.1⟩
    subst empty
    rw [← pending_skipPercent, decides.1]
    exact iff_of_true rfl (matches_many_alone src')

/-! ## The whole function -/

def like (s pattern : Bytes) (escapeCharacter : Byte) : Bool :=
  if pattern = [] then decide (s = [])
  else matchPattern false (patternCells escapeCharacter pattern) s

theorem token_wildcardOf (c : Byte) : token ⟨c, wildcardOf c⟩ = plainToken c := by
  unfold token wildcardOf plainToken
  by_cases isPercent : c = percent
  · simp [isPercent]
  · by_cases isUnderscore : c = underscore
    · simp [isUnderscore]
    · simp [isPercent, isUnderscore, show blank ≠ percent by decide,
        show blank ≠ underscore by decide]

theorem patternTokens_processEscapes (esc : Byte) (pattern : Bytes) :
    patternTokens (processEscapes esc pattern) = tokens esc pattern := by
  fun_induction processEscapes esc pattern with
  | case1 => rfl
  | case2 c => simp [tokens, token_wildcardOf]
  | case3 c d rest escapes ih =>
    rw [tokens, if_pos escapes, ← ih]
    rfl
  | case4 c d rest plain ih =>
    rw [tokens, if_neg plain, ← ih, ← token_wildcardOf]
    rfl

theorem patternTokens_plain {esc : Byte} {pattern : Bytes} (none : escaped esc pattern = false) :
    patternTokens (pattern.map fun c => ⟨c, c⟩) = tokens esc pattern := by
  fun_induction escaped esc pattern with
  | case1 => rfl
  | case2 c => rfl
  | case3 c d rest ih =>
    obtain ⟨plain, none⟩ := or_eq_false_iff.mp none
    rw [tokens, if_neg (by simpa using plain), ← ih none]
    rfl

theorem patternTokens_patternCells (esc : Byte) (pattern : Bytes) :
    patternTokens (patternCells esc pattern) = tokens esc pattern := by
  unfold patternCells
  split
  · exact patternTokens_processEscapes esc pattern
  · next plain => exact patternTokens_plain (eq_false_iff.mpr plain)

theorem like_iff (s pattern : Bytes) (escapeCharacter : Byte) :
    like s pattern escapeCharacter = true ↔ Like pattern escapeCharacter s := by
  unfold like
  split
  · next empty =>
      rw [empty, decide_eq_true_iff]
      exact matches_nil_iff.symm
  · rw [matchPattern_iff, Pending, if_neg (by decide), patternTokens_patternCells]
    rfl

end Brighthouse.Types.BString
