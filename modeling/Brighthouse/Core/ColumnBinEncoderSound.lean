import Brighthouse.Core.ColumnBinEncoderDates

/-!
# Which integer keys are faithful

For every encoder that `PrepareEncoder` makes of one or two columns: the codes written
for the values in the rough ranges and for null, and when they are faithful.
-/

set_option autoImplicit false

namespace Brighthouse.Core.ColumnBinEncoder

open Library Library.Word64 EncoderInt Option List

variable {descending : Bool} {second : VirtualColumn} {codes : List Int}

/-! ## Keys -/

def commonScale (vc : VirtualColumn) (vc2 : Option VirtualColumn) : Nat :=
  match vc2 with
  | none => vc.type.scale
  | some w => max w.type.scale vc.type.scale

/-- The number by which a value is compared: the value itself, rescaled, or without the time. -/
def sortKey (kind : Kind) (scale : Nat) (type : ColumnType) (v : Int) : Int :=
  match kind with
  | .decimal => v * powOfTen (scale - type.scale)
  | .date => dateSortEncoding v
  | .year => yearSortEncoding v
  | .int | .lookup => v

/-- The key of a value of the second column of a lookup encoder: its translation; strings
that the first column does not have count as null. -/
def translatedKey (translate2 : List Int) (v : Int) : Option Int :=
  match translate2[v.toNat]? with
  | some code => if code = -1 then none else some code
  | none => none

def ColumnValueEncoder.key (e : ColumnValueEncoder) (type : ColumnType) (second : Bool) (v : Int) :
    Option Int :=
  match e with
  | .int _ => some (sortKey .int 0 type v)
  | .decimal e => some (sortKey .decimal e.scale type v)
  | .date _ => some (sortKey .date 0 type v)
  | .year _ => some (sortKey .year 0 type v)
  | .lookup e => if second then translatedKey e.translate2 v else some v

/-- The codes that an encoder writes for the values of its columns, with their keys. -/
inductive Written (e : ColumnValueEncoder) (vc : VirtualColumn) (vc2 : Option VirtualColumn) :
    Option Int → Bytes → Prop
  | null (possible : 0 < e.toInt.nullStatus) : Written e vc vc2 none e.toInt.setNull
  | first {v : Int} {c : Bytes} (inRange : vc.InRange v)
      (code : e.encode vc.type false v = some c) : Written e vc vc2 (e.key vc.type false v) c
  | second {w : VirtualColumn} {v : Int} {c : Bytes} (isSecond : vc2 = some w)
      (inRange : w.InRange v) (code : e.encode w.type true v = some c) :
      Written e vc vc2 (e.key w.type true v) c

section
variable (flags : Flags) (kind : Kind) (vc : VirtualColumn) (vc2 : Option VirtualColumn)

def Keys (k : Int) : Prop :=
  (∃ v, vc.InRange v ∧ k = sortKey kind (commonScale vc vc2) vc.type v) ∨
    ∃ w, vc2 = some w ∧ ∃ v, w.InRange v ∧ k = sortKey kind (commonScale vc vc2) w.type v

def lowest : Int :=
  let low := fun (c : VirtualColumn) => sortKey kind (commonScale vc vc2) c.type c.roughMin
  match vc2 with
  | none => low vc
  | some w => min (low vc) (low w)

def highest : Int :=
  let high := fun (c : VirtualColumn) => sortKey kind (commonScale vc vc2) c.type c.roughMax
  match vc2 with
  | none => high vc
  | some w => max (high vc) (high w)

def LookupKeys (w : VirtualColumn) (translate2 : List Int) (k : Int) : Prop :=
  vc.InRange k ∨ ∃ v, w.InRange v ∧ 0 ≤ v ∧ translatedKey translate2 v = some k

def Rescalable : Prop :=
  ∀ c, c = vc ∨ vc2 = some c →
    IsInt64 (sortKey .decimal (commonScale vc vc2) c.type c.roughMin) ∧
      IsInt64 (sortKey .decimal (commonScale vc vc2) c.type c.roughMax)

/-! ## Where codes clash -/

/-- When two values, or a value and null, get codes that are equal or in the wrong order. -/
def Clash : Prop :=
  let nulls := nullsPossible flags vc vc2 = true
  let keys := Keys kind vc vc2
  let low := lowest kind vc vc2
  let high := highest kind vc vc2
  match kind, vc2 with
  | .int, none => False
  | .decimal, none => False
  -- the code for null is not counted after the second column
  | .int, some _ | .decimal, some _ =>
    nulls ∧ vc.roughMin ≠ vc.roughMax + 1 ∧ ¬FullRange low high ∧
      Clashing keys low high flags.descending
  -- the range is full, and null has no code
  | .date, none | .year, _ => nulls ∧ low = minusInf64 ∧ keys plusInf64
  -- the largest code overflows, or an empty first range is taken for a full one
  | .date, some w =>
    nulls ∧ (FullRange low high ∧ (∃ k, keys k) ∨
      (let low1 := dateSortEncoding vc.roughMin
       let high1 := dateSortEncoding vc.roughMax
       let high2 := dateSortEncoding w.roughMax
       (low1 = high1 + 1 ∨ low1 = high1 + 2) ∧ low1 - 2 ≤ high2 ∧
        Clashing keys low high2 flags.descending))
  | .lookup, none => FullRange low high
  -- keys are cut to the size, which counts neither null nor the translated codes
  | .lookup, some w =>
    ∃ translate2, EncoderLookup.translation vc w vc.roughMin vc.roughMax = some translate2 ∧
      (let modulus : Int := 256 ^ calculateByteSize (uint64 (high - low))
       ¬((∀ k l, LookupKeys vc w translate2 k → LookupKeys vc w translate2 l →
          k % modulus = l % modulus → k = l) ∧
        ∀ k, LookupKeys vc w translate2 k → k % modulus ≠ (low - 1) % modulus))

end

/-! ## From values to keys -/

theorem keys_none (kind : Kind) (vc : VirtualColumn) (k : Int) :
    Keys kind vc none k ↔ ∃ v, vc.InRange v ∧ k = sortKey kind vc.type.scale vc.type v := by
  simp [Keys, commonScale]

theorem keys_some (kind : Kind) (vc w : VirtualColumn) (k : Int) :
    Keys kind vc (some w) k ↔
      (∃ v, vc.InRange v ∧ k = sortKey kind (commonScale vc (some w)) vc.type v) ∨
        ∃ v, w.InRange v ∧ k = sortKey kind (commonScale vc (some w)) w.type v := by
  simp [Keys]

variable {e : ColumnValueEncoder}

theorem written_eq {vc : VirtualColumn} {vc2 : Option VirtualColumn} (kind : Kind)
    (writes : ∀ c second, c = vc ∧ second = false ∨ vc2 = some c ∧ second = true →
      ∀ v, c.InRange v → e.key c.type second v = some (sortKey kind (commonScale vc vc2) c.type v) ∧
        e.encode c.type second v =
          some (e.toInt.encode (sortKey kind (commonScale vc vc2) c.type v))) :
    Written e vc vc2 = e.toInt.Written (Keys kind vc vc2) := by
  funext x code
  refine propext ⟨?_, ?_⟩
  · intro written
    cases written with
    | null possible => exact ⟨possible, rfl⟩
    | first inRange isCode =>
      obtain ⟨isKey, isEncoded⟩ := writes vc false (.inl ⟨rfl, rfl⟩) _ inRange
      rw [isKey]
      rw [isEncoded] at isCode
      cases isCode
      exact ⟨.inl ⟨_, inRange, rfl⟩, rfl⟩
    | second isSecond inRange isCode =>
      obtain ⟨isKey, isEncoded⟩ := writes _ true (.inr ⟨isSecond, rfl⟩) _ inRange
      rw [isKey]
      rw [isEncoded] at isCode
      cases isCode
      exact ⟨.inr ⟨_, isSecond, _, inRange, rfl⟩, rfl⟩
  · intro written
    cases x with
    | none =>
      rw [written.2]
      exact Written.null written.1
    | some k =>
      obtain ⟨key, rfl⟩ := written
      rcases key with ⟨v, inRange, rfl⟩ | ⟨w, isSecond, v, inRange, rfl⟩
      · obtain ⟨isKey, isEncoded⟩ := writes vc false (.inl ⟨rfl, rfl⟩) v inRange
        rw [← isKey]
        exact Written.first inRange isEncoded
      · obtain ⟨isKey, isEncoded⟩ := writes w true (.inr ⟨isSecond, rfl⟩) v inRange
        rw [← isKey]
        exact Written.second isSecond inRange isEncoded

/-! ## Integers -/

variable {flags : Flags} {nulls : Bool}

theorem int_faithful_iff_one {vc : VirtualColumn} :
    Faithful (Written (.int (new vc nulls flags.descending)) vc none) true
      flags.descending := by
  have keys : Keys .int vc none = vc.InRange := by
    funext k
    simp [keys_none, sortKey]
  rw [written_eq .int fun c second _ v _ => ⟨rfl, rfl⟩, keys]
  exact new_faithful vc nulls flags.descending true

theorem new_status_eq_one_iff (vc : VirtualColumn) (nulls descending : Bool) :
    (new vc nulls descending).nullStatus = 1 ↔
      nulls = true ∧ ¬FullRange vc.roughMin vc.roughMax ∧ vc.roughMin ≠ vc.roughMax + 1 := by
  have isMax := uint64_eq_max_iff vc.min_isInt64 vc.max_isInt64
  rw [new_nullStatus]
  cases nulls with
  | false => simp
  | true =>
    by_cases full : uint64 (vc.roughMax - vc.roughMin) = uint64Max
    · rw [if_pos full]
      rw [isMax] at full
      exact iff_of_false (by decide) fun both => full.elim both.2.1 both.2.2
    · rw [if_neg full]
      rw [isMax, not_or] at full
      exact iff_of_true rfl ⟨rfl, full⟩

theorem new_status_le (vc : VirtualColumn) (nulls descending : Bool) :
    (new vc nulls descending).nullStatus ≤ 2 := by
  rw [new_nullStatus]
  split
  · split <;> decide
  · decide

theorem fullRange_mono {low high low' high' : Int} (full : FullRange low high)
    (lowInRange : IsInt64 low') (highInRange : IsInt64 high') (below : low' ≤ low)
    (above : high ≤ high') : FullRange low' high' := by
  have := lowInRange.1
  have := highInRange.2
  unfold FullRange minusInf64 plusInf64 at *
  omega

/-- What makes the keys of two columns fit into the extended range of the first one. -/
structure Extends (kind : Kind) (vc w : VirtualColumn) : Prop where
  bounds : ∀ c, c = vc ∨ some w = some c → ∀ v, c.InRange v →
    sortKey kind (commonScale vc (some w)) c.type c.roughMin ≤
        sortKey kind (commonScale vc (some w)) c.type v ∧
      sortKey kind (commonScale vc (some w)) c.type v ≤
        sortKey kind (commonScale vc (some w)) c.type c.roughMax
  notNull : ∀ c, c = vc ∨ some w = some c → ∀ v, c.InRange v →
    sortKey kind (commonScale vc (some w)) c.type v ≠ nullValue64
  inRange : ∀ c, c = vc ∨ some w = some c →
    IsInt64 (sortKey kind (commonScale vc (some w)) c.type c.roughMin) ∧
      IsInt64 (sortKey kind (commonScale vc (some w)) c.type c.roughMax)
  full : FullRange vc.roughMin vc.roughMax →
    FullRange (lowest kind vc (some w)) (highest kind vc (some w))

variable {kind : Kind}

theorem Extends.written_faithful_iff {vc w : VirtualColumn} (fits : Extends kind vc w)
    (nulls descending : Bool) :
    Faithful ((extend { new vc nulls descending with
        minVal := sortKey kind (commonScale vc (some w)) vc.type vc.roughMin }
      (sortKey kind (commonScale vc (some w)) vc.type vc.roughMax)
      (sortKey kind (commonScale vc (some w)) w.type w.roughMin)
      (sortKey kind (commonScale vc (some w)) w.type w.roughMax)).Written
        (Keys kind vc (some w))) true descending ↔
      ¬(nulls = true ∧ vc.roughMin ≠ vc.roughMax + 1 ∧
        ¬FullRange (lowest kind vc (some w)) (highest kind vc (some w)) ∧
        Clashing (Keys kind vc (some w)) (lowest kind vc (some w))
          (highest kind vc (some w)) descending) := by
  obtain ⟨lowInRange1, highInRange1⟩ := fits.inRange vc (.inl rfl)
  obtain ⟨lowInRange2, highInRange2⟩ := fits.inRange w (.inr rfl)
  refine Iff.trans (extend_faithful_iff _ _ _ _ _ (new_status_le vc nulls descending) ?_ ?_
    (isInt64_min lowInRange1 lowInRange2) (isInt64_max highInRange1 highInRange2)) (not_congr ?_)
  rotate_left 2
  · have status := new_status_eq_one_iff vc nulls descending
    have full := fits.full
    tauto
  · intro k key
    rcases key with ⟨v, inRange, rfl⟩ | ⟨c, isSecond, v, inRange, rfl⟩
    · exact fits.notNull vc (.inl rfl) v inRange
    · exact fits.notNull c (.inr isSecond) v inRange
  · intro k key
    rcases (keys_some kind vc w k).mp key with ⟨v, inRange, rfl⟩ | ⟨v, inRange, rfl⟩
    · have bounds := fits.bounds vc (.inl rfl) v inRange
      exact ⟨(min_le_left _ _).trans bounds.1, bounds.2.trans (le_max_left _ _)⟩
    · have bounds := fits.bounds w (.inr rfl) v inRange
      exact ⟨(min_le_right _ _).trans bounds.1, bounds.2.trans (le_max_right _ _)⟩

theorem extends_int (vc w : VirtualColumn) : Extends .int vc w where
  bounds := fun _ _ _ inRange => ⟨inRange.1, inRange.2.1⟩
  notNull := fun _ _ _ inRange => inRange.2.2
  inRange := fun c _ => ⟨c.min_isInt64, c.max_isInt64⟩
  full := fun full => fullRange_mono full (isInt64_min vc.min_isInt64 w.min_isInt64)
    (isInt64_max vc.max_isInt64 w.max_isInt64) (min_le_left _ _) (le_max_left _ _)

theorem int_faithful_iff_two {vc w : VirtualColumn} {e : EncoderInt}
    (accepted : (EncoderInt.new vc nulls descending).secondColumn vc.type w = some e) :
    Faithful (Written (.int e) vc (some w)) true descending ↔
      ¬(nulls = true ∧ vc.roughMin ≠ vc.roughMax + 1 ∧
        ¬FullRange (lowest .int vc (some w)) (highest .int vc (some w)) ∧
        Clashing (Keys .int vc (some w)) (lowest .int vc (some w))
          (highest .int vc (some w)) descending) := by
  rw [written_eq .int fun c second _ v _ => ⟨rfl, rfl⟩,
    ← (extends_int vc w).written_faithful_iff nulls descending]
  unfold EncoderInt.secondColumn at accepted
  split at accepted
  · cases accepted
  · dsimp only at accepted
    split at accepted
    · cases accepted
    · rw [new_maxVal] at accepted
      cases accepted
      rfl

/-! ## Decimals -/

theorem powOfTen_pos (n : Nat) : 0 < powOfTen n := Int.pow_pos (by decide)

theorem commonScale_some (vc w : VirtualColumn) :
    commonScale vc (some w) - vc.type.scale = w.type.scale - vc.type.scale ∧
      commonScale vc (some w) - w.type.scale = vc.type.scale - w.type.scale := by
  simp only [commonScale]
  omega

section
variable {vc w : VirtualColumn} (rescalable : Rescalable vc (some w))
include rescalable

theorem extends_decimal :
    Extends .decimal vc w where
  bounds := fun c _ v inRange => by
    have positive := (powOfTen_pos (commonScale vc (some w) - c.type.scale)).le
    exact ⟨Int.mul_le_mul_of_nonneg_right inRange.1 positive,
      Int.mul_le_mul_of_nonneg_right inRange.2.1 positive⟩
  notNull := fun c isColumn v inRange => by
    -- a product with a power of ten is even
    change v * powOfTen (commonScale vc (some w) - c.type.scale) ≠ nullValue64
    cases commonScale vc (some w) - c.type.scale with
    | zero => simpa [powOfTen] using inRange.2.2
    | succ n =>
      intro same
      have even : v * powOfTen (n + 1) = 2 * (v * powOfTen n * 5) := by
        unfold powOfTen
        ring
      unfold nullValue64 minusInf64 at same
      omega
  inRange := rescalable
  full := fun full => by
    -- the smallest number can only be multiplied by one
    obtain ⟨low, high⟩ := rescalable vc (.inl rfl)
    have one : powOfTen (commonScale vc (some w) - vc.type.scale) = 1 := by
      have positive := powOfTen_pos (commonScale vc (some w) - vc.type.scale)
      have above := low.1
      change -2 ^ 63 ≤ vc.roughMin * powOfTen (commonScale vc (some w) - vc.type.scale) at above
      rw [full.1] at above
      unfold minusInf64 at above
      omega
    have same : ∀ v, sortKey .decimal (commonScale vc (some w)) vc.type v = v := by
      intro v
      change v * powOfTen (commonScale vc (some w) - vc.type.scale) = v
      rw [one, mul_one]
    obtain ⟨low2, high2⟩ := rescalable w (.inr rfl)
    refine fullRange_mono full (isInt64_min low low2) (isInt64_max high high2)
      ?_ ?_
    · exact (min_le_left _ _).trans (same _).le
    · exact (same _).ge.trans (le_max_left _ _)

theorem decimal_state (nulls descending : Bool) :
    ((EncoderDecimal.new vc nulls descending).secondColumn w).toEncoderInt =
      extend { new vc nulls descending with
          minVal := sortKey .decimal (commonScale vc (some w)) vc.type vc.roughMin }
        (sortKey .decimal (commonScale vc (some w)) vc.type vc.roughMax)
        (sortKey .decimal (commonScale vc (some w)) w.type w.roughMin)
        (sortKey .decimal (commonScale vc (some w)) w.type w.roughMax) := by
  obtain ⟨low1, high1⟩ := rescalable vc (.inl rfl)
  obtain ⟨low2, high2⟩ := rescalable w (.inr rfl)
  obtain ⟨scale1, scale2⟩ := commonScale_some vc w
  have maxVal : (EncoderDecimal.new vc nulls descending).maxVal = vc.roughMax :=
    new_maxVal vc nulls descending
  unfold EncoderDecimal.secondColumn
  rw [maxVal]
  simp only [sortKey, scale1, scale2] at low1 high1 low2 high2 ⊢
  change extend { (EncoderDecimal.new vc nulls descending).toEncoderInt with
      minVal := wrap64 (vc.roughMin * powOfTen (w.type.scale - vc.type.scale)) }
    (wrap64 (vc.roughMax * powOfTen (w.type.scale - vc.type.scale)))
    (wrap64 (w.roughMin * powOfTen (vc.type.scale - w.type.scale)))
    (wrap64 (w.roughMax * powOfTen (vc.type.scale - w.type.scale))) = _
  rw [wrap64_of_isInt64 low1, wrap64_of_isInt64 high1, wrap64_of_isInt64 low2,
    wrap64_of_isInt64 high2]
  rfl

theorem decimal_faithful_iff (nulls descending : Bool) :
    Faithful (Written (.decimal ((EncoderDecimal.new vc nulls descending).secondColumn w)) vc
        (some w)) true descending ↔
      ¬(nulls = true ∧ vc.roughMin ≠ vc.roughMax + 1 ∧
        ¬FullRange (lowest .decimal vc (some w)) (highest .decimal vc (some w)) ∧
        Clashing (Keys .decimal vc (some w)) (lowest .decimal vc (some w))
          (highest .decimal vc (some w)) descending) := by
  have fits := extends_decimal rescalable
  rw [← fits.written_faithful_iff nulls descending, ← decimal_state rescalable, written_eq .decimal]
  · rfl
  · intro c second isColumn v inRange
    refine ⟨rfl, ?_⟩
    have column : c = vc ∨ some w = some c := isColumn.imp And.left And.left
    have bounds := fits.bounds c column v inRange
    obtain ⟨low, high⟩ := fits.inRange c column
    have product : IsInt64 (v * powOfTen (commonScale vc (some w) - c.type.scale)) :=
      ⟨low.1.trans bounds.1, bounds.2.trans_lt high.2⟩
    change some (encode _ (if c.type.scale < commonScale vc (some w) then
      wrap64 (v * powOfTen (commonScale vc (some w) - c.type.scale)) else v)) = _
    congr 2
    split
    · exact wrap64_of_isInt64 product
    · next large =>
        have zero : commonScale vc (some w) - c.type.scale = 0 := by omega
        simp [sortKey, zero, powOfTen]

end

/-! ## Dates and years -/

theorem keys_sort_one (shift : Nat) (kind : Kind) (vc : VirtualColumn)
    (isSort : ∀ scale type v, sortKey kind scale type v = sortEncoding shift v) :
    Keys kind vc none = SortKeys shift vc := by
  funext k
  simp only [keys_none, isSort]
  rfl

theorem keys_sort_two (shift : Nat) (kind : Kind) (vc w : VirtualColumn)
    (isSort : ∀ scale type v, sortKey kind scale type v = sortEncoding shift v) :
    Keys kind vc (some w) = SortKeys2 shift vc w := by
  funext k
  simp only [keys_some, isSort]
  rfl

/-! ## Lookups -/

namespace EncoderLookup

variable {first : VirtualColumn} {values : List Int}

theorem searchCode_mem {val2 : Bytes} {code found : Int}
    (search : searchCode first val2 values code = some found) : found = code ∨ found ∈ values := by
  induction values generalizing code with
  | nil =>
    cases search
    exact .inl rfl
  | cons j values ih =>
    rw [searchCode] at search
    split at search
    · split at search
      · cases search
      · rcases ih search with same | later
        · exact .inr (same ▸ mem_cons_self)
        · exact .inr (mem_cons_of_mem j later)
    · exact (ih search).imp_right (mem_cons_of_mem j)

theorem searchCodes_ge {bound : Int} (above : ∀ j ∈ values, bound ≤ j) (default : bound ≤ -1)
    {indices : List Nat} (search : searchCodes first second values indices = some codes) :
    ∀ code ∈ codes, bound ≤ code := by
  induction indices generalizing codes with
  | nil =>
    cases search
    simp
  | cons i indices ih =>
    obtain ⟨code, found, rest⟩ := bind_eq_some_iff.mp search
    obtain ⟨others, searched, result⟩ := bind_eq_some_iff.mp rest
    cases result
    refine forall_mem_cons.mpr ⟨?_, ih searched⟩
    rcases searchCode_mem found with same | mem
    · rw [same]
      exact default
    · exact above code mem

theorem translation_ge {minVal maxVal : Int}
    (translated : translation first second minVal maxVal = some codes) :
    ∀ code ∈ codes, -2 ^ 31 ≤ code := by
  unfold translation at translated
  dsimp only at translated
  split at translated
  · refine searchCodes_ge (fun j mem => ?_) (by decide) translated
    obtain ⟨i, -, rfl⟩ := mem_map.mp mem
    have low : -2 ^ 31 ≤ int32 minVal := Int.le_bmod (x := minVal) (m := 2 ^ 32) (by decide)
    omega
  · cases translated
    intro code mem
    obtain ⟨i, -, rfl⟩ := mem_map.mp mem
    split <;> omega

end EncoderLookup

theorem translatedKey_eq_some_iff {translate2 : List Int} {v k : Int} :
    translatedKey translate2 v = some k ↔ translate2[v.toNat]? = some k ∧ k ≠ -1 := by
  unfold translatedKey
  cases translate2[v.toNat]? with
  | none => simp
  | some code =>
    by_cases absent : code = -1
    · simp only [absent, if_true, some_inj, reduceCtorEq, false_iff]
      rintro ⟨rfl, nonzero⟩
      exact nonzero rfl
    · simp only [if_neg absent, some_inj]
      exact ⟨fun same => ⟨same, same ▸ absent⟩, And.left⟩

theorem lookup_written_eq {vc w : VirtualColumn} {e : EncoderLookup} (status : e.nullStatus = 1) :
    Written (.lookup e) vc (some w) =
      e.toEncoderInt.Written (LookupKeys vc w e.translate2) := by
  have positive : 0 < e.nullStatus := by omega
  funext x code
  refine propext ⟨fun written => ?_, fun written => ?_⟩
  · cases written with
    | null possible => exact ⟨possible, rfl⟩
    | first inRange isCode =>
      cases isCode
      exact ⟨.inl inRange, rfl⟩
    | @second c v _ isSecond inRange isCode =>
      cases isSecond
      obtain ⟨j, isEntry, rfl⟩ := map_eq_some_iff.mp isCode
      split at isEntry
      · next nonneg =>
          change e.toEncoderInt.Written _ (translatedKey e.translate2 v) _
          by_cases absent : j = -1
          · rw [translatedKey, isEntry, if_pos absent]
            dsimp only
            rw [if_pos absent]
            exact ⟨positive, rfl⟩
          · have isKey := translatedKey_eq_some_iff.mpr ⟨isEntry, absent⟩
            rw [isKey, if_neg absent]
            exact ⟨.inr ⟨v, inRange, nonneg, isKey⟩, rfl⟩
      · cases isEntry
  · cases x with
    | none =>
      rw [written.2]
      exact Written.null positive
    | some k =>
      obtain ⟨key, rfl⟩ := written
      rcases key with inRange | ⟨v, inRange, nonneg, isKey⟩
      · exact Written.first (e := .lookup e) (v := k) inRange rfl
      · obtain ⟨isEntry, present⟩ := translatedKey_eq_some_iff.mp isKey
        have key : ColumnValueEncoder.key (.lookup e) w.type true v = some k := isKey
        rw [← key]
        refine Written.second rfl inRange ?_
        change ((if 0 ≤ v then e.translate2[v.toNat]? else none).map fun j =>
          if j = -1 then e.setNull else e.toEncoderInt.encode j) = _
        rw [if_pos nonneg, isEntry, map_some, if_neg present]

theorem lookup_faithful_iff_two {vc w : VirtualColumn} {e : EncoderLookup}
    (accepted : (EncoderLookup.new vc descending).secondColumn vc w = some e) :
    Faithful (Written (.lookup e) vc (some w)) false descending ↔
      ¬∃ translate2, EncoderLookup.translation vc w vc.roughMin vc.roughMax = some translate2 ∧
        (let modulus : Int := 256 ^ calculateByteSize
            (uint64 (highest .lookup vc (some w) - lowest .lookup vc (some w)))
         ¬((∀ k l, LookupKeys vc w translate2 k → LookupKeys vc w translate2 l →
            k % modulus = l % modulus → k = l) ∧
          ∀ k, LookupKeys vc w translate2 k →
            k % modulus ≠ (lowest .lookup vc (some w) - 1) % modulus)) := by
  obtain ⟨status, minVal, maxCode, size, translated⟩ := EncoderLookup.secondColumn_state accepted
  have small : e.maxCode < 2 ^ 64 := maxCode ▸ uint64_lt _
  have notNull : ∀ k, LookupKeys vc w e.translate2 k → k ≠ nullValue64 := by
    rintro k (inRange | ⟨v, -, -, isKey⟩)
    · exact inRange.2.2
    · have mem := mem_of_getElem? (translatedKey_eq_some_iff.mp isKey).1
      have above := EncoderLookup.translation_ge translated k mem
      unfold nullValue64 minusInf64
      omega
  rw [lookup_written_eq status, unordered_faithful_iff notNull status
    (size ▸ calculateByteSize_le small) small, size, maxCode, minVal]
  constructor
  · rintro apart ⟨translate2, isTable, clash⟩
    rw [translated] at isTable
    cases isTable
    exact clash apart
  · intro clear
    by_contra clash
    exact clear ⟨e.translate2, translated, clash⟩

/-! ## All encoders -/

theorem encoderKind_ne_decimal (flags : Flags) (vc : VirtualColumn) :
    encoderKind flags vc none ≠ some .decimal := by
  intro chosen
  unfold encoderKind at chosen
  cases fixed : vc.type.isFixed with
  | true => simp [fixed] at chosen
  | false =>
    simp only [fixed, Bool.false_and] at chosen
    repeat' split at chosen
    all_goals cases chosen

theorem faithful_iff_one {vc : VirtualColumn} (chosen : encoderKind flags vc none = some kind) :
    Faithful (Written (newEncoder kind vc (nullsPossible flags vc none) flags.descending) vc none)
      (kind != .lookup) flags.descending ↔ ¬Clash flags kind vc none := by
  cases kind with
  | int => exact iff_of_true int_faithful_iff_one not_false
  | decimal => exact absurd chosen (encoderKind_ne_decimal flags vc)
  | date =>
    have keys := keys_sort_one 28 .date vc fun _ _ _ => rfl
    rw [written_eq .date fun c second _ v _ => ⟨rfl, rfl⟩]
    simp only [Clash, keys]
    exact newSortEncoded_faithful_iff vc _ _
  | year =>
    have keys := keys_sort_one 37 .year vc fun _ _ _ => rfl
    rw [written_eq .year fun c second _ v _ => ⟨rfl, rfl⟩]
    simp only [Clash, keys]
    exact newSortEncoded_faithful_iff vc _ _
  | lookup =>
    have keys : Keys .lookup vc none = vc.InRange := by
      funext k
      simp [keys_none, sortKey]
    rw [written_eq .lookup, keys]
    · exact EncoderLookup.new_faithful_iff vc flags.descending
    · rintro c second (⟨rfl, rfl⟩ | ⟨impossible, -⟩) v -
      · exact ⟨rfl, rfl⟩
      · cases impossible

theorem faithful_iff_two {vc w : VirtualColumn}
    (rescalable : kind = .decimal → Rescalable vc (some w))
    (accepted : secondColumn vc (newEncoder kind vc
      (nullsPossible flags vc (some w)) flags.descending) w = some e) :
    Faithful (Written e vc (some w)) (kind != .lookup) flags.descending ↔
      ¬Clash flags kind vc (some w) := by
  cases kind with
  | int =>
    obtain ⟨result, second, rfl⟩ := map_eq_some_iff.mp accepted
    exact int_faithful_iff_two second
  | decimal =>
    cases accepted
    exact decimal_faithful_iff (rescalable rfl) _ _
  | date =>
    obtain ⟨result, second, rfl⟩ := map_eq_some_iff.mp accepted
    have keys := keys_sort_two 28 .date vc w fun _ _ _ => rfl
    rw [written_eq .date fun c second _ v _ => ⟨rfl, rfl⟩]
    simp only [Clash, keys]
    exact EncoderDate.secondColumn_faithful_iff second
  | year =>
    obtain ⟨result, second, rfl⟩ := map_eq_some_iff.mp accepted
    have keys := keys_sort_two 37 .year vc w fun _ _ _ => rfl
    rw [written_eq .year fun c second _ v _ => ⟨rfl, rfl⟩]
    simp only [Clash, keys]
    exact EncoderYear.secondColumn_faithful_iff second
  | lookup =>
    obtain ⟨result, second, rfl⟩ := map_eq_some_iff.mp accepted
    exact lookup_faithful_iff_two second

/-- The codes of a prepared encoder are faithful exactly where they do not clash. -/
theorem prepareEncoder_faithful_iff (flags : Flags) (vc : VirtualColumn)
    (vc2 : Option VirtualColumn) {kind : Kind} {e : ColumnValueEncoder}
    (chosen : encoderKind flags vc vc2 = some kind)
    (prepared : prepareEncoder flags vc vc2 = some e)
    (rescalable : kind = .decimal → Rescalable vc vc2) :
    Faithful (Written e vc vc2) (kind != .lookup) flags.descending ↔
      ¬Clash flags kind vc vc2 := by
  rw [prepareEncoder, chosen] at prepared
  cases vc2 with
  | none =>
    cases prepared
    exact faithful_iff_one chosen
  | some w => exact faithful_iff_two rescalable prepared

def integerColumn (roughMin roughMax : Int) (low : IsInt64 roughMin) (high : IsInt64 roughMax) :
    VirtualColumn where
  type := ⟨.int, 0, false, ColumnType.new.scale_le⟩
  collation := ⟨0, false, fun _ _ => 0⟩
  nullsPossible := true
  roughMin
  roughMax
  dictionary := []
  min_isInt64 := low
  max_isInt64 := high

/-- Two columns with the values 0 to 9 and null fit into one byte. -/
theorem prepareEncoder_faithful_digits :
    let digits := integerColumn 0 9 (by decide) (by decide)
    ∃ e, prepareEncoder ⟨false, true, false⟩ digits (some digits) = some e ∧
      Faithful (Written e digits (some digits)) true false := by
  refine ⟨.int ⟨false, 1, 0, 9, 1⟩, by decide,
    (prepareEncoder_faithful_iff ⟨false, true, false⟩ _ _ (by decide : _ = some Kind.int)
      (by decide) (fun impossible => by cases impossible)).mpr ?_⟩
  rintro ⟨-, -, -, -, ⟨j, power⟩ | ⟨impossible, -⟩⟩
  · replace power : (10 : Int) = 256 ^ j := power
    cases j with
    | zero => simp at power
    | succ j => rw [pow_succ] at power; omega
  · cases impossible

/-- Two columns with the values 0 to 255 and null: one byte is kept, and 255 gets the code of
null. -/
theorem prepareEncoder_bytes_clash :
    let bytes := integerColumn 0 255 (by decide) (by decide)
    ∃ e, prepareEncoder ⟨false, true, false⟩ bytes (some bytes) = some e ∧
      Written e bytes (some bytes) none [0] ∧ Written e bytes (some bytes) (some 255) [0] ∧
      ¬Faithful (Written e bytes (some bytes)) true false := by
  intro bytes
  let e : ColumnValueEncoder := .int ⟨false, 1, 0, 255, 1⟩
  have null : Written e bytes (some bytes) none [0] := Written.null (by decide)
  have largest : Written e bytes (some bytes) (some 255) [0] :=
    Written.first (by unfold VirtualColumn.InRange; decide) (by decide)
  refine ⟨e, by decide, null, largest, fun faithful => ?_⟩
  have same := (faithful.equal none (some 255) _ _ null largest).mp rfl
  cases same

end Brighthouse.Core.ColumnBinEncoder
