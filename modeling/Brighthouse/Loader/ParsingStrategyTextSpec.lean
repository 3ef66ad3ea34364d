import Brighthouse.Loader.ParsingStrategyText

/-!
# Detection of the line terminator

What the searches find, and when `GetEOL` finds the line end of the first row.
-/

set_option autoImplicit false

namespace Brighthouse.Loader

open Library Borders List

/-! ## The table of borders -/

section Table
variable {pattern : Bytes}

theorem prepareTurn_spec {i : Nat} {s : List Int × Int} (less : i < pattern.length)
    (length : s.1.length = i + 1) (table : ∀ j ≤ i, Falls pattern s.1 j)
    (longest : Longest pattern (pattern.take i) i s.2) :
    (prepareTurn pattern s i).1.length = i + 2 ∧
      (∀ j ≤ i + 1, Falls pattern (prepareTurn pattern s i).1 j) ∧
      Longest pattern (pattern.take (i + 1)) (i + 1) (prepareTurn pattern s i).2 := by
  have lower := longest.lower
  have below := longest.less
  have next : Longest pattern (pattern.take (i + 1)) (i + 1) (prepareTurn pattern s i).2 := by
    rw [take_succ_eq_append_getElem less, ← getD_eq_getElem _ 0 less]
    exact longest.extend less.le (fun j le => table j (by omega)) (by omega)
  refine ⟨by simp [prepareTurn, length], fun j le => ?_, next⟩
  rcases Nat.lt_or_eq_of_le le with earlier | rfl
  · exact (table j (by omega)).append (by omega) _
  · have nonneg : 0 ≤ (prepareTurn pattern s i).2 := next.top 0 (by omega) (by simp)
    have short := next.less
    refine next.falls less nonneg (table _ (by omega)) rfl ?_
    rw [prepareTurn, getD_append_right _ _ _ _ (by omega), length, Nat.sub_self]
    rfl

theorem prepareKMPNext_falls {j : Nat} (le : j ≤ pattern.length) :
    Falls pattern (prepareKMPNext pattern) j := by
  suffices prepared : ∀ i ≤ pattern.length,
      let s := (range i).foldl (prepareTurn pattern) ([-1], -1)
      s.1.length = i + 1 ∧ (∀ j ≤ i, Falls pattern s.1 j) ∧
        Longest pattern (pattern.take i) i s.2 from (prepared _ (le_refl _)).2.1 j le
  intro i short
  induction i with
  | zero =>
    refine ⟨rfl, fun j le => ?_, ⟨by simp, by simp, fun k same => ?_, fun k less => by omega⟩⟩
    · obtain rfl := Nat.le_zero.mp le
      exact ⟨by simp, by simp, fun k same => by simp at same, fun k less => by omega⟩
    · simp at same
  | succ i ih =>
    obtain ⟨length, table, longest⟩ := ih (by omega)
    rw [range_succ, foldl_append]
    exact prepareTurn_spec short length table longest

end Table

namespace ParsingStrategyText

variable {p : ParsingStrategyText}

/-! ## The searches -/

section Search
variable {stop after field buf : Bytes}

theorem Field.searchShort_eq (isField : p.Field stop after field) (nonempty : stop ≠ []) :
    p.searchShort stop 0 (field ++ (stop ++ after)) = some (stop ++ after) := by
  induction isField with
  | nil =>
    obtain ⟨c, rest, rfl⟩ := exists_cons_of_ne_nil nonempty
    simp [searchShort]
  | byte plain other _ ih =>
    rw [cons_append, searchShort, if_neg (mt isPrefixOf_iff_prefix.mp other), plain]
    exact ih
  | sequence isEscape other _ ih =>
    rw [cons_append, cons_append, searchShort, if_neg (mt isPrefixOf_iff_prefix.mp other), isEscape]
    exact ih

/-- The number of matched bytes after one more byte. -/
def advance (stop : Bytes) (b : Int) (c : Byte) : Int :=
  fallBack stop (prepareKMPNext stop) c (stop.length + 2) b + 1

section
variable {seen : Bytes} {b : Int} {c : Byte} (longest : Longest stop seen stop.length b)
  (nonneg : 0 ≤ b)
include longest

theorem longest_advance : Longest stop (seen ++ [c]) (stop.length + 1) (advance stop b c) := by
  have less := longest.less
  exact longest.extend (le_refl _) (fun i le => prepareKMPNext_falls (by omega)) (by omega)

include nonneg

theorem searchLong_cons (plain : p.isEscape c = false) (ptr : Nat) (rest : Bytes) :
    p.searchLong stop buf 0 ptr b (c :: rest) =
      if advance stop b c = stop.length then some (buf.drop (ptr + 1 - stop.length))
      else p.searchLong stop buf 0 (ptr + 1) (advance stop b c) rest := by
  have less := longest.less
  rw [searchLong, plain]
  by_cases same : charAt stop b = c
  · have advanced : advance stop b c = b + 1 := by
      rw [advance, fallBack, if_neg (by simp [same])]
    simp [same, advanced]
  · obtain ⟨i, rfl⟩ := Int.eq_ofNat_of_zero_le nonneg
    have entry : Falls stop (prepareKMPNext stop) i := prepareKMPNext_falls (by omega)
    have advanced : advance stop i c = fallBack stop (prepareKMPNext stop) c (stop.length + 1)
        ((prepareKMPNext stop).getD i (-1)) + 1 := by
      rw [advance, fallBack, if_pos ⟨by omega, same⟩, Int.toNat_natCast]
    have notWhole : advance stop i c ≠ stop.length := by
      intro whole
      have border := (longest_advance (c := c) longest).border stop.length whole
      obtain ⟨m, isLength⟩ : ∃ m, stop.length = m + 1 := ⟨stop.length - 1, by omega⟩
      rw [isLength] at border
      obtain ⟨before, isNext⟩ := (take_succ_suffix_iff (by omega)).mp border
      have := longest.top m (by omega) before
      obtain rfl : m = i := by omega
      exact same isNext
    rw [if_neg notWhole, advanced]
    by_cases zero : i = 0
    · subst zero
      have bottom : (prepareKMPNext stop).getD 0 (-1) = -1 := by
        have := entry.lower
        have := entry.less
        omega
      rw [bottom, if_neg Bool.false_ne_true]
      dsimp only
      rw [if_pos same]
      simp [fallBack]
    · simp [same, zero]

end

omit p in
theorem Longest.below {text : Bytes} {b : Int}
    (longest : Longest stop text (stop.length + 1) b) (notWhole : b ≠ stop.length) :
    Longest stop text stop.length b ∧ 0 ≤ b := by
  obtain ⟨lower, less, border, top⟩ := longest
  exact ⟨⟨lower, by omega, border, fun k short => top k (by omega)⟩, top 0 (by omega) (by simp)⟩

/-- The pattern does not begin at one of the bytes that were read since the last escape
sequence. -/
def Clear (stop seen rest : Bytes) : Prop :=
  ∀ front, front <:+ seen → front ≠ [] → ¬stop <+: front ++ rest

omit p in
theorem longest_nil (nonempty : stop ≠ []) : Longest stop [] stop.length 0 := by
  have positive := length_pos_iff.mpr nonempty
  refine ⟨by simp, by omega, fun k same => ?_, fun k less border => ?_⟩
  · obtain rfl : k = 0 := by omega
    simp
  · rcases take_eq_nil_iff.mp (suffix_nil.mp border) with rfl | empty
    · simp
    · exact absurd empty nonempty

omit p in
theorem clear_nil {rest : Bytes} : Clear stop [] rest := fun _ isSuffix nonempty =>
  absurd (suffix_nil.mp isSuffix) nonempty

omit p in
theorem Clear.push {seen rest : Bytes} {c : Byte} (clear : Clear stop seen (c :: rest))
    (other : ¬stop <+: c :: rest) : Clear stop (seen ++ [c]) rest := by
  intro front isSuffix nonempty
  obtain rfl | ⟨init, rfl, before⟩ := suffix_concat_iff.mp isSuffix
  · exact absurd rfl nonempty
  rw [append_assoc, singleton_append]
  by_cases empty : init = []
  · rwa [empty]
  · exact clear init before empty

section Long
variable {seen : Bytes} (plain : ∀ c ∈ stop, p.isEscape c = false)
include plain

/-- The pattern itself is read; `front` of it has been read already. -/
theorem searchLong_stop (clear : Clear stop seen (stop ++ after)) {front back : Bytes}
    (parts : stop = front ++ back) (more : back ≠ []) {b : Int}
    (longest : Longest stop (seen ++ front) stop.length b) (nonneg : 0 ≤ b) (ptr : Nat) :
    p.searchLong stop buf 0 ptr b (back ++ after) =
      some (buf.drop (ptr + back.length - stop.length)) := by
  induction back generalizing front b ptr with
  | nil => exact absurd rfl more
  | cons c back ih =>
    have next := longest_advance (c := c) longest
    rw [append_assoc] at next
    have parts : stop = front ++ [c] ++ back := by rw [parts]; simp
    rw [cons_append, searchLong_cons longest nonneg (plain c (by simp [parts]))]
    by_cases last : back = []
    · subst last
      rw [append_nil] at parts
      have whole := next.top stop.length (by omega)
        (by rw [take_length, parts]; exact suffix_append ..)
      have less := next.less
      rw [if_pos (by omega), length_singleton]
    · have notWhole : advance stop b c ≠ stop.length := by
        intro whole
        have border := next.border _ whole
        rw [take_length] at border
        -- a match that ends here begins before the pattern
        obtain ⟨v, same⟩ := suffix_of_suffix_length_le (suffix_append seen (front ++ [c])) border
          (by rw [parts]; exact (prefix_append ..).length_le)
        rw [← same] at border
        obtain ⟨u, isSeen⟩ := border
        rw [← append_assoc, append_left_inj] at isSeen
        refine clear v ⟨u, isSeen⟩ ?_ ?_
        · rintro rfl
          exact last (by simpa [← same] using parts)
        · refine ⟨back ++ after, ?_⟩
          nth_rewrite 1 [← same]
          rw [parts]
          simp only [append_assoc]
      obtain ⟨longest, nonneg⟩ := Longest.below next notWhole
      rw [if_neg notWhole, ih parts last longest nonneg, length_cons]
      congr 2
      omega

theorem Field.searchLong_eq (isField : p.Field stop after field) (nonempty : stop ≠ []) {b : Int}
    (longest : Longest stop seen stop.length b) (nonneg : 0 ≤ b)
    (clear : Clear stop seen (field ++ (stop ++ after))) (ptr : Nat) :
    p.searchLong stop buf 0 ptr b (field ++ (stop ++ after)) =
      some (buf.drop (ptr + field.length)) := by
  induction isField generalizing seen b ptr with
  | nil =>
    rw [← append_nil seen] at longest
    rw [nil_append, searchLong_stop plain clear rfl nonempty longest nonneg, Nat.add_sub_cancel]
    rfl
  | @byte c field isPlain other _ ih =>
    have pushed := Clear.push clear other
    have next := longest_advance (c := c) longest
    have notWhole : advance stop b c ≠ stop.length := fun whole =>
      pushed stop (by simpa using next.border _ whole) nonempty (prefix_append ..)
    obtain ⟨longest', nonneg'⟩ := Longest.below next notWhole
    rw [cons_append, searchLong_cons longest nonneg isPlain, if_neg notWhole,
      ih longest' nonneg' pushed, length_cons, Nat.add_right_comm, Nat.add_assoc]
  | sequence isEscape other _ ih =>
    rw [cons_append, cons_append, searchLong, isEscape]
    rw [if_pos rfl, searchLong, ih (longest_nil nonempty) (le_refl _) clear_nil, length_cons,
      length_cons]
    congr 2
    omega

end Long

theorem Field.searchUnescapedPattern_eq (isField : p.Field stop after field)
    (searchable : p.Searchable stop) :
    p.searchUnescapedPattern stop (field ++ (stop ++ after)) = some (stop ++ after) := by
  obtain ⟨nonempty, plain⟩ := searchable
  have positive := length_pos_iff.mpr nonempty
  unfold searchUnescapedPattern
  split
  · exact isField.searchShort_eq nonempty
  · rw [isField.searchLong_eq (plain.resolve_left (by omega)) nonempty
      (longest_nil nonempty) (le_refl _) clear_nil, Nat.zero_add, drop_left]

end Search

/-! ## The line end -/

theorem isEnclosed_eq {text : Bytes}
    (recognised : p.begins text = true → p.stringQualifier.val < 128) :
    p.isEnclosed text = p.begins text := by
  rw [Bool.eq_iff_iff]
  simp only [begins, isEnclosed, isQualifier, Option.any_eq_true, decide_eq_true_eq] at *
  constructor
  · rintro ⟨c, isFirst, isSome, rfl, -⟩
    exact ⟨isSome, isFirst⟩
  · intro isFirst
    exact ⟨_, isFirst.2, isFirst.1, rfl, recognised isFirst⟩

theorem Columns.skipColumns_eq {flags : List Bool} {buf last : Bytes}
    (columns : p.Columns flags buf last) (recognised : true ∈ flags → p.stringQualifier.val < 128)
    (searchable : ∀ enclosed ∈ flags, p.Searchable (p.mark enclosed ++ p.delimiter)) :
    p.skipColumns flags.length buf = some last := by
  induction columns with
  | nil last => rfl
  | @cons enclosed flags field after last first isField rest ih =>
    have next := ih (fun mem => recognised (mem_cons_of_mem _ mem))
      fun e mem => searchable e (mem_cons_of_mem _ mem)
    have found := isField.searchUnescapedPattern_eq (searchable enclosed mem_cons_self)
    have code := (isEnclosed_eq fun isFirst =>
      recognised (by rw [first, isFirst]; exact mem_cons_self)).trans first.symm
    rw [length_cons, skipColumns, code]
    cases enclosed with
    | true =>
      simp only [mark, if_true, cons_append, nil_append] at found ⊢
      rw [tail_cons, found]
      simp [next]
    | false =>
      simp only [mark, Bool.false_eq_true, if_false, nil_append] at found ⊢
      rw [found]
      simp [next]

variable {enclosed : Bool} {ends : Bytes → Option Bytes}

theorem scanEnd_skip (extra skip : Nat) (text : Bytes) :
    p.scanEnd extra enclosed ends skip text = p.scanEnd extra enclosed ends 0 (text.drop skip) := by
  induction skip generalizing text with
  | zero => simp
  | succ skip ih => cases text <;> simp [scanEnd, ih]

theorem Apart.scanEnd_eq {text : Bytes} (apart : p.Apart enclosed text) :
    p.scanEnd 1 enclosed (p.columnEnd enclosed) 0 text =
      p.scanEnd 0 enclosed (p.columnEnd enclosed) 0 text := by
  induction apart with
  | ends plain found =>
    obtain ⟨eol, found⟩ := Option.ne_none_iff_exists'.mp found
    simp [scanEnd, plain, found]
  | byte plain _ ih => simp [scanEnd, plain, ih]
  | sequence isEscape whole plain inside _ ih =>
    rw [scanEnd, scanEnd, if_pos isEscape, if_pos isEscape, whole, scanEnd_skip, scanEnd_skip 0]
    simp [scanEnd, plain, inside, ih]

/-- The line end of a row is detected if its qualifiers are recognised, its columns can be
searched for, and the escape sequences of the last column stand apart. -/
theorem getEOL_detects {flags : List Bool} {buf last eol : Bytes}
    (count : flags.length = p.noColumns - 1) (columns : p.Columns flags buf last)
    (isEnd : p.lineEnd last = some eol)
    (recognised : true ∈ flags ∨ p.begins last = true → p.stringQualifier.val < 128)
    (searchable : ∀ enclosed ∈ flags, p.Searchable (p.mark enclosed ++ p.delimiter))
    (apart : p.Apart (p.begins last) (last.drop (p.mark (p.begins last)).length)) :
    p.getEOL buf = some eol := by
  have code : p.isEnclosed last = p.begins last := isEnclosed_eq (recognised ∘ .inr)
  rw [getEOL, ← count, columns.skipColumns_eq (recognised ∘ .inl) searchable, Option.bind_some,
    code]
  rw [lineEnd] at isEnd
  generalize same : p.begins last = enclosed at *
  have ends : p.columnEnd enclosed = fun text =>
      if enclosed then if p.begins text then terminator text.tail else none
      else terminator text := by
    funext text
    cases enclosed with
    | false => rfl
    | true => rw [columnEnd, isEnclosed_eq fun _ => recognised (.inr rfl)]
  have column : (if enclosed then last.tail else last) = last.drop (p.mark enclosed).length := by
    cases enclosed <;> simp [mark]
  rw [column, apart.scanEnd_eq, ends, isEnd]

def pipes : ParsingStrategyText := ⟨2, [124, 124], 34, 92⟩

/-- `"a\"||b"||x\ty\r\n` with the delimiter `||`. -/
theorem getEOL_detects_quoted :
    pipes.getEOL [34, 97, 92, 34, 124, 124, 98, 34, 124, 124, 120, 92, 116, 121, 13, 10] =
      some [13, 10] := by
  have field : pipes.Field [34, 124, 124] [120, 92, 116, 121, 13, 10] [97, 92, 34, 124, 124, 98] :=
    .byte rfl (by decide) (.sequence rfl (by decide) (.byte rfl (by decide)
      (.byte rfl (by decide) (.byte rfl (by decide) .nil))))
  have columns := @Columns.cons pipes true _ _ _ _ rfl field (.nil _)
  refine getEOL_detects rfl columns rfl (fun _ => by decide) (fun enclosed isFlag => ?_) ?_
  · rw [mem_singleton.mp isFlag]
    exact ⟨by decide, .inr (by simp [pipes, mark, isEscape])⟩
  · exact .byte rfl (@Apart.sequence _ _ _ 121 [116] _ rfl rfl rfl rfl (.ends rfl (by decide)))

/-- An escape sequence before `\r\n`: only `\n` is seen. -/
theorem getEOL_misses_escaped_tab :
    let p := ParsingStrategyText.mk 1 [59] 0 92
    let buf : Bytes := [97, 92, 116, 13, 10]
    p.Columns [] buf buf ∧ p.lineEnd buf = some [13, 10] ∧ p.getEOL buf = some [10] :=
  ⟨.nil _, by decide, by decide⟩

end ParsingStrategyText

end Brighthouse.Loader
