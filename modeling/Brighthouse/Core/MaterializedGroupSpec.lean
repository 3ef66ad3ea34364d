import Brighthouse.Core.DimensionGroup
import Brighthouse.Core.MIIteratorSpec

/-!
# Groups with index tables

The entries of the index tables are cut into packs wherever a dimension comes to rows of
another pack of its table or to the end of a large block.  `packEnd` says where a
dimension is cut; the iterator, which looks some packs ahead, finds the same positions.
-/

set_option autoImplicit false

namespace Brighthouse.Core

open Library.BitCount Library.Odometer List Bool Int

/-! ## Searching in a table -/

theorem le_scanWhile (cond : Nat → Bool) (turns loc : Nat) : loc ≤ scanWhile cond turns loc := by
  induction turns generalizing loc with
  | zero => exact le_rfl
  | succ turns ih =>
    have step := ih (loc + 1)
    rw [scanWhile]
    split <;> omega

section
variable (t : IndexTable)
include t

theorem endOfCurrentBlock_same {m n : Nat} (low : m ≤ n)
    (high : n < t.endOfCurrentBlock m) : t.endOfCurrentBlock n = t.endOfCurrentBlock m := by
  have positive : 0 < 2 ^ t.blockShift := Nat.two_pow_pos _
  have less : n / 2 ^ t.blockShift < m / 2 ^ t.blockShift + 1 :=
    (Nat.div_lt_iff_lt_mul positive).mpr high
  have le : m / 2 ^ t.blockShift ≤ n / 2 ^ t.blockShift := Nat.div_le_div_right low
  have same : n / 2 ^ t.blockShift = m / 2 ^ t.blockShift := by omega
  rw [IndexTable.endOfCurrentBlock, same, IndexTable.endOfCurrentBlock]

theorem jumpToNextPack_lt {loc limit : Nat} (lt : loc < limit) :
    loc < jumpToNextPack t loc limit := by
  rw [jumpToNextPack, if_neg (not_le.mpr lt)]
  exact le_scanWhile _ _ (loc + 1)

theorem le_jumpToNextPack (loc limit : Nat) : loc ≤ jumpToNextPack t loc limit := by
  by_cases le : limit ≤ loc
  · rw [jumpToNextPack, if_pos le]
  · exact (jumpToNextPack_lt t (not_le.mp le)).le

end

/-! ## Where a dimension is cut -/

variable {noObj : Nat}

namespace DimCursor

theorem limit_gt (t : IndexTable) {loc : Nat} (lt : loc < noObj) :
    loc < limit noObj t loc := by
  have after : loc < t.endOfCurrentBlock loc :=
    Nat.lt_mul_of_div_lt (Nat.lt_succ_self _) (Nat.two_pow_pos _)
  rw [limit]
  omega

theorem limit_same (t : IndexTable) {m n : Nat} (low : m ≤ n) (high : n < limit noObj t m) :
    limit noObj t n = limit noObj t m := by
  rw [limit] at high
  rw [limit, limit, endOfCurrentBlock_same t low (by omega)]

end DimCursor

open DimCursor

def IndexedDim.packEnd (noObj : Nat) (d : IndexedDim) (loc : Nat) : Nat :=
  let stop := limit noObj d.t loc
  if noObj ≤ loc then loc
  else if d.nullsPossible then
    let first := scanWhile (fun n => d.t.get64 n == 0) (stop - loc) loc
    if first < stop then
      scanWhile (fun n => d.t.get64 n == 0 || d.t.packAt n == d.t.packAt first) (stop - (first + 1))
        (first + 1)
    else first
  else if d.t.origSize ≤ 0xFFFF then stop
  else jumpToNextPack d.t loc stop

theorem packEnd_gt (d : IndexedDim) {loc : Nat} (lt : loc < noObj) : loc < d.packEnd noObj loc := by
  have after := limit_gt d.t lt
  rw [IndexedDim.packEnd, if_neg (not_le.mpr lt)]
  dsimp only
  split
  · have first := le_scanWhile (fun n => d.t.get64 n == 0) (limit noObj d.t loc - loc) loc
    split
    · exact lt_of_le_of_lt first (Nat.lt_of_succ_le (le_scanWhile _ _ _))
    · omega
  · split
    · exact after
    · exact jumpToNextPack_lt d.t after

theorem le_packEnd (d : IndexedDim) (loc : Nat) : loc ≤ d.packEnd noObj loc := by
  by_cases lt : loc < noObj
  · exact (packEnd_gt d lt).le
  · rw [IndexedDim.packEnd, if_pos (not_lt.mp lt)]

def IndexedDim.start (noObj : Nat) (d : IndexedDim) (n : Nat) : Nat := (d.packEnd noObj)^[n] 0

theorem start_succ (d : IndexedDim) (n : Nat) :
    d.start noObj (n + 1) = d.packEnd noObj (d.start noObj n) :=
  Function.iterate_succ_apply' _ _ _

theorem start_monotone (d : IndexedDim) : Monotone (d.start noObj) :=
  monotone_nat_of_le_succ fun n => by rw [start_succ]; exact le_packEnd d _

theorem no_start_between (d : IndexedDim) {m n : Nat} (after : d.start noObj n < d.start noObj m) :
    d.packEnd noObj (d.start noObj n) ≤ d.start noObj m := by
  rw [← start_succ]
  refine start_monotone d (Nat.succ_le_of_lt ?_)
  by_contra not_later
  exact absurd (start_monotone d (not_lt.mp not_later)) (not_le.mpr after)

/-! ## Looking ahead -/

/-- The end of the pack of a dimension without null rows in a large table. -/
def jump (noObj : Nat) (t : IndexTable) (loc : Nat) : Nat :=
  jumpToNextPack t loc (limit noObj t loc)

/-- The positions that were found ahead are those of the following packs. -/
structure AheadOk (noObj : Nat) (c : DimCursor) : Prop where
  ahead1 : c.ahead1 ≠ -1 → c.ahead1.toNat = jump noObj c.dim.t c.nextPack
  ahead2 : c.ahead2 ≠ -1 → c.ahead1 ≠ -1 ∧ c.ahead2.toNat = jump noObj c.dim.t c.ahead1.toNat
  ahead3 : c.ahead3 ≠ -1 → c.ahead2 ≠ -1 ∧ c.ahead3.toNat = jump noObj c.dim.t c.ahead2.toNat
  unused : c.dim.nullsPossible = true → c.ahead1 = -1 ∧ c.ahead2 = -1 ∧ c.ahead3 = -1

variable {c : DimCursor}

theorem aheadOk_unknown (unknown : c.ahead1 = -1 ∧ c.ahead2 = -1 ∧ c.ahead3 = -1) :
    AheadOk noObj c :=
  ⟨fun known => absurd unknown.1 known, fun known => absurd unknown.2.1 known,
    fun known => absurd unknown.2.2 known, fun _ => unknown⟩

variable {pos stop : Nat}

theorem inBlock_known (known : inBlock pos stop ≠ -1) : pos < stop ∧ inBlock pos stop = pos := by
  rw [inBlock] at known ⊢
  split at known
  · rename_i lt
    exact ⟨lt, if_pos lt⟩
  · exact absurd rfl known

theorem inBlock_of_lt (lt : pos < stop) : inBlock pos stop ≠ -1 := by
  rw [inBlock]
  omega

variable {t : IndexTable} {ahead : Int}

/-- A position in the block of `loc` whose successor is known or found by a jump. -/
theorem knownOrJump_eq {loc : Nat} (low : loc ≤ pos) (high : pos < limit noObj t loc)
    (known : ahead ≠ -1 → ahead.toNat = jump noObj t pos) :
    knownOrJump t ahead pos (limit noObj t loc) = jump noObj t pos := by
  rw [knownOrJump]
  split
  · rw [jump, limit_same t low high]
  · rename_i isKnown
    exact known isKnown

theorem le_knownOrJump (known : ahead ≠ -1 → pos ≤ ahead.toNat) :
    pos ≤ knownOrJump t ahead pos stop := by
  rw [knownOrJump]
  split
  · exact le_jumpToNextPack t pos stop
  · rename_i isKnown
    exact known isKnown

theorem le_jump (t : IndexTable) (loc : Nat) : loc ≤ jump noObj t loc := le_jumpToNextPack t loc _

theorem knownOrJump_inBlock {loc : Nat} (low : loc ≤ pos)
    (known : ahead ≠ -1 → ahead.toNat = jump noObj t pos)
    (inside : knownOrJump t ahead pos (limit noObj t loc) < limit noObj t loc) :
    pos < limit noObj t loc ∧ knownOrJump t ahead pos (limit noObj t loc) = jump noObj t pos := by
  have le : pos ≤ knownOrJump t ahead pos (limit noObj t loc) :=
    le_knownOrJump fun isKnown => known isKnown ▸ le_jump t pos
  have high : pos < limit noObj t loc := by omega
  exact ⟨high, knownOrJump_eq low high known⟩

theorem findPackEndNoNulls_large (lt : c.nextPack < noObj) (ok : AheadOk noObj c)
    (noNulls : c.dim.nullsPossible = false) (large : ¬c.dim.t.origSize ≤ 0xFFFF) :
    (c.findPackEndNoNulls noObj).nextPack = jump noObj c.dim.t c.nextPack ∧
      AheadOk noObj (c.findPackEndNoNulls noObj) := by
  have after := limit_gt c.dim.t lt
  rw [findPackEndNoNulls]
  dsimp only
  rw [if_neg large]
  generalize isStop : limit noObj c.dim.t c.nextPack = stop at after
  have first : knownOrJump c.dim.t c.ahead1 c.nextPack stop = jump noObj c.dim.t c.nextPack :=
    isStop ▸ knownOrJump_eq le_rfl (isStop ▸ after) ok.ahead1
  generalize isPos1 : knownOrJump c.dim.t c.ahead1 c.nextPack stop = pos1 at first
  have low1 : c.nextPack ≤ pos1 := first ▸ le_jump c.dim.t c.nextPack
  -- what is known ahead continues the chain of jumps
  have known2 : c.ahead2 ≠ -1 → c.ahead2.toNat = jump noObj c.dim.t pos1 := by
    intro isKnown
    obtain ⟨known1, next⟩ := ok.ahead2 isKnown
    rw [next, ok.ahead1 known1, first]
  have inside2 : ∀ (ahead : Int) (pos : Nat), c.nextPack ≤ pos →
      (ahead ≠ -1 → ahead.toNat = jump noObj c.dim.t pos) →
      knownOrJump c.dim.t ahead pos stop < stop →
      pos < stop ∧ knownOrJump c.dim.t ahead pos stop = jump noObj c.dim.t pos := by
    intro ahead pos low known inside
    rw [← isStop] at inside ⊢
    exact knownOrJump_inBlock low known inside
  have step2 := inside2 _ _ low1 known2
  have low2 : c.nextPack ≤ knownOrJump c.dim.t c.ahead2 pos1 stop :=
    low1.trans (le_knownOrJump fun isKnown => known2 isKnown ▸ le_jump c.dim.t pos1)
  have known3 : c.ahead3 ≠ -1 →
      c.ahead3.toNat = jump noObj c.dim.t (knownOrJump c.dim.t c.ahead2 pos1 stop) := by
    intro isKnown
    obtain ⟨isKnown2, next⟩ := ok.ahead3 isKnown
    rw [next, knownOrJump, if_neg isKnown2]
  generalize knownOrJump c.dim.t c.ahead2 pos1 stop = pos2 at step2 low2 known3
  have step3 := inside2 _ _ low2 known3
  have low3 : c.nextPack ≤ knownOrJump c.dim.t c.ahead3 pos2 stop :=
    low2.trans (le_knownOrJump fun isKnown => known3 isKnown ▸ le_jump c.dim.t pos2)
  generalize knownOrJump c.dim.t c.ahead3 pos2 stop = pos3 at step3 low3
  have step4 : jumpToNextPack c.dim.t pos3 stop < stop →
      pos3 < stop ∧ jumpToNextPack c.dim.t pos3 stop = jump noObj c.dim.t pos3 :=
    inside2 (-1) _ low3 (fun known => absurd rfl known)
  refine ⟨first, ?_, ?_, ?_, fun possible => absurd (noNulls.symm.trans possible) false_ne_true⟩
  · intro known
    obtain ⟨inside, value⟩ := inBlock_known known
    rw [value, toNat_natCast, (step2 inside).2]
  · intro known
    obtain ⟨inside, value⟩ := inBlock_known known
    have before := (step3 inside).1
    refine ⟨inBlock_of_lt before, ?_⟩
    rw [value, (inBlock_known (inBlock_of_lt before)).2, toNat_natCast, toNat_natCast,
      (step3 inside).2]
  · intro known
    obtain ⟨inside, value⟩ := inBlock_known known
    have before := (step4 inside).1
    refine ⟨inBlock_of_lt before, ?_⟩
    rw [value, (inBlock_known (inBlock_of_lt before)).2, toNat_natCast, toNat_natCast,
      (step4 inside).2]

theorem findPackEnd_spec (lt : c.nextPack < noObj) (ok : AheadOk noObj c) :
    (c.findPackEnd noObj).nextPack = c.dim.packEnd noObj c.nextPack ∧
      AheadOk noObj (c.findPackEnd noObj) := by
  rw [findPackEnd, IndexedDim.packEnd, if_neg (not_le.mpr lt)]
  cases nulls : c.dim.nullsPossible with
  | true =>
    obtain ⟨none1, none2, none3⟩ := ok.unused nulls
    rw [if_pos rfl, findPackEndNulls]
    dsimp only
    split
    · exact ⟨rfl, aheadOk_unknown ⟨none1, none2, none3⟩⟩
    · exact ⟨rfl, aheadOk_unknown ⟨none1, none2, none3⟩⟩
  | false =>
    by_cases small : c.dim.t.origSize ≤ 0xFFFF
    · rw [if_pos small, findPackEndNoNulls]
      rw [if_pos small]
      exact ⟨rfl, aheadOk_unknown ⟨rfl, rfl, rfl⟩⟩
    · rw [if_neg small]
      exact findPackEndNoNulls_large lt ok nulls small

/-! ## The dimensions of the iterator -/

structure DimOf (d : IndexedDim) (c : DimCursor) : Prop where
  dim : c.dim = d
  one : c.onePackrow = true → d.t.origSize ≤ 0xFFFF

/-- The packrow at entry `p` lies in the pack of the dimension that ends at `next_pack`. -/
structure DimOk (noObj : Nat) (d : IndexedDim) (p : Nat) (c : DimCursor) :
    Prop extends DimOf d c where
  ahead : AheadOk noObj c
  pack : ∃ n, d.start noObj n ≤ p ∧ p < c.nextPack ∧
    c.nextPack = d.packEnd noObj (d.start noObj n)

structure DimReady (noObj : Nat) (d : IndexedDim) (p : Nat) (c : DimCursor) : Prop extends
    DimOf d c where
  ahead : AheadOk noObj c
  pack : (c.nextPack = p ∧ ∃ n, d.start noObj n = p) ∨
    ∃ n, d.start noObj n ≤ p ∧ p < c.nextPack ∧ c.nextPack = d.packEnd noObj (d.start noObj n)

variable {d : IndexedDim}

theorem DimOf.initPackrow {p : Nat} (of : DimOf d c) : DimOf d (c.initPackrow noObj p) := by
  have fixed : (c.initPackrow noObj p).dim = c.dim ∧
      (c.initPackrow noObj p).onePackrow = c.onePackrow := by
    rw [DimCursor.initPackrow, findPackEnd, findPackEndNulls,
      findPackEndNoNulls]
    split_ifs <;> exact ⟨rfl, rfl⟩
  exact ⟨fixed.1.trans of.dim, fun one => of.one (fixed.2.symm.trans one)⟩

theorem DimReady.initPackrow {p : Nat} (lt : p < noObj) (ready : DimReady noObj d p c) :
    DimOk noObj d p (c.initPackrow noObj p) := by
  have of : DimOf d (c.initPackrow noObj p) := ready.toDimOf.initPackrow
  rw [DimCursor.initPackrow] at of ⊢
  rcases ready.pack with ⟨here, n, isStart⟩ | inside
  · rw [if_pos here.le] at of ⊢
    by_cases simple : (!c.onePackrow || c.dim.nullsPossible) = true
    · rw [if_pos simple] at of ⊢
      obtain ⟨next, ahead⟩ := findPackEnd_spec (here ▸ lt) ready.ahead
      refine { toDimOf := of, ahead := ahead, pack := ⟨n, isStart.le, ?_, ?_⟩ }
      · rw [next, here]
        exact packEnd_gt c.dim lt
      · rw [next, here, ready.dim, isStart]
    · rw [if_neg simple] at of ⊢
      rw [not_eq_true, or_eq_false_iff, Bool.not_eq_false', ready.dim] at simple
      refine
        { toDimOf := of
          ahead := aheadOk_unknown ⟨rfl, rfl, rfl⟩
          pack := ⟨n, isStart.le, limit_gt c.dim.t lt, ?_⟩ }
      rw [isStart, IndexedDim.packEnd, if_neg (not_le.mpr lt), simple.2,
        if_neg Bool.false_ne_true, if_pos (ready.one simple.1), ready.dim]
  · obtain ⟨n, low, high, value⟩ := inside
    rw [if_neg (not_le.mpr high)]
    exact { toDimOf := ready.toDimOf, ahead := ready.ahead, pack := ⟨n, low, high, value⟩ }

theorem DimOk.ready {p q : Nat} (ok : DimOk noObj d p c) (low : p < q) (high : q ≤ c.nextPack) :
    DimReady noObj d q c := by
  obtain ⟨n, start, inside, value⟩ := ok.pack
  refine { toDimOf := ok.toDimOf, ahead := ok.ahead, pack := ?_ }
  by_cases cut : c.nextPack = q
  · exact .inl ⟨cut, n + 1, by rw [start_succ, ← value, cut]⟩
  · exact .inr ⟨n, by omega, by omega, value⟩

theorem DimOf.rewind (of : DimOf d c) : DimReady noObj d 0 c.rewind where
  dim := of.dim
  one := of.one
  ahead := aheadOk_unknown ⟨rfl, rfl, rfl⟩
  pack := Or.inl ⟨rfl, 0, rfl⟩

/-! ## The packs of the group -/

open Classical in
/-- A pack of the group starts wherever a pack of one of its dimensions starts. -/
noncomputable def isCut (noObj : Nat) (dims : List IndexedDim) (p : Nat) : Bool :=
  decide (p = 0 ∨ ∃ d ∈ dims, ∃ n, d.start noObj n = p)

/-- The end of the pack of the group that starts at entry `p`. -/
noncomputable def cutEnd (noObj : Nat) (dims : List IndexedDim) (p : Nat) : Nat :=
  (onesIn (isCut noObj dims) (p + 1) noObj).headD noObj

noncomputable def indexPack (noObj : Nat) (dims : List IndexedDim) (p : Nat) : List Nat :=
  List.range' p (cutEnd noObj dims p - p)

noncomputable def indexPacks (noObj : Nat) (dims : List IndexedDim) (p : Nat) : List (List Nat) :=
  (onesIn (isCut noObj dims) p noObj).map (indexPack noObj dims)

noncomputable def indexPlace (noObj : Nat) (dims : List IndexedDim) (p i : Nat) : Place Nat where
  packs := indexPacks noObj dims 0
  pack := indexPack noObj dims p
  left := List.range' i (cutEnd noObj dims p - i)
  later := indexPacks noObj dims (p + 1)

variable {dims : List IndexedDim} {p : Nat}

open Classical in
theorem isCut_iff : isCut noObj dims p = true ↔ p = 0 ∨ ∃ d ∈ dims, ∃ n, d.start noObj n = p := by
  rw [isCut, decide_eq_true_iff]

theorem cutEnd_eq (low : p < stop) (high : stop ≤ noObj)
    (between : ∀ i, p < i → i < stop → isCut noObj dims i = false)
    (atStop : stop < noObj → isCut noObj dims stop = true) : cutEnd noObj dims p = stop := by
  have gap : onesIn (isCut noObj dims) (p + 1) stop = [] := by
    rw [eq_nil_iff_forall_not_mem]
    intro i inside
    obtain ⟨⟨after, before⟩, cut⟩ := mem_onesIn.mp inside
    rw [between i after before] at cut
    cases cut
  rw [cutEnd, onesIn_append low high, gap]
  by_cases more : stop < noObj
  · rw [onesIn_cons more (atStop more)]
    rfl
  · rw [onesIn_of_le (not_lt.mp more)]
    exact (by omega : noObj = stop)

theorem exists_related {α β : Type} {related : α → β → Prop} {xs : List α} {ys : List β}
    (all : Forall₂ related xs ys) : ∀ x ∈ xs, ∃ y ∈ ys, related x y := by
  induction all with
  | nil => exact fun x inside => absurd inside not_mem_nil
  | cons here _ ih =>
    rintro x (_ | ⟨_, inside⟩)
    · exact ⟨_, mem_cons_self, here⟩
    · obtain ⟨y, inYs, other⟩ := ih x inside
      exact ⟨y, mem_cons_of_mem _ inYs, other⟩

theorem foldl_min_le (cs : List DimCursor) (stop : Nat) :
    cs.foldl (fun stop c => min stop c.nextPack) stop ≤ stop ∧
      (∀ c ∈ cs, cs.foldl (fun stop c => min stop c.nextPack) stop ≤ c.nextPack) ∧
      (cs.foldl (fun stop c => min stop c.nextPack) stop = stop ∨
        ∃ c ∈ cs, cs.foldl (fun stop c => min stop c.nextPack) stop = c.nextPack) := by
  induction cs generalizing stop with
  | nil => exact ⟨le_rfl, fun c inside => absurd inside not_mem_nil, .inl rfl⟩
  | cons c cs ih =>
    rw [foldl_cons]
    obtain ⟨low, each, value⟩ := ih (min stop c.nextPack)
    refine ⟨by omega, ?_, ?_⟩
    · rintro c' (_ | ⟨_, inside⟩)
      · omega
      · exact each c' inside
    · rcases value with same | ⟨c', inside, same⟩
      · rcases min_choice stop c.nextPack with first | second
        · exact .inl (same.trans first)
        · exact .inr ⟨c, mem_cons_self, same.trans second⟩
      · exact .inr ⟨c', mem_cons_of_mem _ inside, same⟩

theorem foldl_min_eq {cs : List DimCursor} (lt : p < noObj)
    (ok : Forall₂ (fun d c => DimOk noObj d p c) dims cs) :
    cs.foldl (fun stop c => min stop c.nextPack) noObj = cutEnd noObj dims p := by
  obtain ⟨inObj, each, value⟩ := foldl_min_le cs noObj
  generalize cs.foldl (fun stop c => min stop c.nextPack) noObj = stop at inObj each value
  have cursor : ∀ d ∈ dims, ∃ c ∈ cs, DimOk noObj d p c := exists_related ok
  have owner : ∀ c ∈ cs, ∃ d ∈ dims, DimOk noObj d p c := exists_related ok.flip
  refine (cutEnd_eq ?_ inObj ?_ ?_).symm
  · rcases value with rfl | ⟨c, inside, rfl⟩
    · exact lt
    · obtain ⟨d, _, cOk⟩ := owner c inside
      obtain ⟨n, _, after, _⟩ := cOk.pack
      exact after
  · intro i after before
    rw [← not_eq_true, isCut_iff]
    rintro (zero | ⟨d, inside, m, isStart⟩)
    · omega
    · obtain ⟨c, inCursors, cOk⟩ := cursor d inside
      obtain ⟨n, start, _, next⟩ := cOk.pack
      have bound := each c inCursors
      have later : d.packEnd noObj (d.start noObj n) ≤ d.start noObj m :=
        no_start_between d (by omega)
      omega
  · intro more
    rcases value with same | ⟨c, inside, same⟩
    · omega
    · obtain ⟨d, inDims, cOk⟩ := owner c inside
      obtain ⟨n, _, _, next⟩ := cOk.pack
      refine isCut_iff.mpr (.inr ⟨d, inDims, n + 1, ?_⟩)
      rw [start_succ, ← next, same]

theorem cutEnd_of_none (none : onesIn (isCut noObj dims) (p + 1) noObj = []) :
    cutEnd noObj dims p = noObj := by
  rw [cutEnd, none]
  rfl

theorem cutEnd_of_some {q : Nat} {rest : List Nat}
    (some : onesIn (isCut noObj dims) (p + 1) noObj = q :: rest) :
    cutEnd noObj dims p = q ∧ p < q ∧ q < noObj ∧ isCut noObj dims q = true ∧
      onesIn (isCut noObj dims) (q + 1) noObj = rest := by
  obtain ⟨low, high, cut, here⟩ := onesIn_of_cons some
  rw [onesIn_cons high cut, cons.injEq] at here
  refine ⟨?_, low, high, cut, here.2⟩
  rw [cutEnd, some]
  rfl

theorem cutEnd_gt (lt : p < noObj) : p < cutEnd noObj dims p := by
  cases ahead : onesIn (isCut noObj dims) (p + 1) noObj with
  | nil => rwa [cutEnd_of_none ahead]
  | cons q rest =>
    rw [(cutEnd_of_some ahead).1]
    exact (cutEnd_of_some ahead).2.1

theorem isCut_zero : isCut noObj dims 0 = true := isCut_iff.mpr (Or.inl rfl)

/-! ## The iterator -/

namespace DGMaterializedIterator

/-- The iterator stands at entry `i` of the pack that starts at entry `p`. -/
structure Stands (it : DGMaterializedIterator) (dims : List IndexedDim) (p i : Nat) : Prop where
  valid : it.valid = true
  inObj : p < it.noObj
  ok : List.Forall₂ (fun d c => DimOk it.noObj d p c) dims it.dims
  packStart : it.curPackStart = p
  pos : it.curPos = i
  low : p ≤ i
  high : i < cutEnd it.noObj dims p
  size : it.packSizeLeft = cutEnd it.noObj dims p - i

variable {it : DGMaterializedIterator} {i : Nat}

theorem initPackrow_end (behind : it.noObj ≤ it.curPos) : it.initPackrow.valid = false := by
  rw [initPackrow, if_pos behind]

theorem initPackrow_noObj (it : DGMaterializedIterator) : it.initPackrow.noObj = it.noObj := by
  rw [initPackrow]
  split <;> rfl

theorem stands_initPackrow (valid : it.valid = true) (inObj : it.curPos < it.noObj)
    (ready : Forall₂ (fun d c => DimReady it.noObj d it.curPos c) dims it.dims) :
    it.initPackrow.Stands dims it.curPos it.curPos := by
  have ok : Forall₂ (fun d c => DimOk it.noObj d it.curPos c) dims
      (it.dims.map (·.initPackrow it.noObj it.curPos)) := by
    rw [forall₂_map_right_iff]
    exact ready.imp fun d c dimReady => dimReady.initPackrow inObj
  rw [initPackrow, if_neg (not_le.mpr inObj)]
  exact
    { valid := valid
      inObj := inObj
      ok := ok
      packStart := rfl
      pos := rfl
      low := le_rfl
      high := cutEnd_gt inObj
      size := by dsimp only; rw [foldl_min_eq inObj ok] }

section
variable (of : List.Forall₂ DimOf dims it.dims)
include of

theorem dimOf_initPackrow : Forall₂ DimOf dims it.initPackrow.dims := by
  rw [initPackrow]
  split
  · exact of
  · rw [forall₂_map_right_iff]
    exact of.imp fun d c dimOf => dimOf.initPackrow

theorem dimOf_nextInsidePack :
    it.nextInsidePack.2.noObj = it.noObj ∧ Forall₂ DimOf dims it.nextInsidePack.2.dims := by
  rw [nextInsidePack]
  split
  · exact ⟨rfl, of⟩
  · exact ⟨rfl, of⟩

theorem dimOf_increment : it.increment.noObj = it.noObj ∧ Forall₂ DimOf dims it.increment.dims := by
  rw [increment]
  split
  · exact ⟨initPackrow_noObj _, dimOf_initPackrow of⟩
  · exact ⟨rfl, of⟩

theorem dimOf_rewind : Forall₂ DimOf dims it.rewind.dims := by
  refine dimOf_initPackrow ?_
  rw [forall₂_map_right_iff]
  exact of.imp fun d c dimOf => ⟨dimOf.dim, dimOf.one⟩

theorem stands_rewind (some : 0 < it.noObj) : it.rewind.Stands dims 0 0 := by
  have ready : Forall₂ (fun d c => DimReady it.noObj d 0 c) dims
      (it.dims.map DimCursor.rewind) := by
    rw [forall₂_map_right_iff]
    exact of.imp fun d c dimOf => dimOf.rewind
  exact stands_initPackrow rfl some ready

end

section
variable (stands : it.Stands dims p i)
include stands

theorem Stands.next_pos : it.curPos + it.packSizeLeft = cutEnd it.noObj dims p := by
  have high := stands.high
  rw [stands.pos, stands.size]
  omega

theorem Stands.dims_ready :
    Forall₂ (fun d c => DimReady it.noObj d (cutEnd it.noObj dims p) c) dims it.dims := by
  obtain ⟨_, each, _⟩ := foldl_min_le it.dims it.noObj
  rw [foldl_min_eq stands.inObj stands.ok] at each
  have both := (forall₂_and_left it.dims dims).mpr ⟨each, stands.ok.flip⟩
  exact both.flip.imp fun d c dimOk => dimOk.2.ready (cutEnd_gt stands.inObj) dimOk.1

theorem stands_nextPackrow (more : cutEnd it.noObj dims p < it.noObj) :
    it.nextPackrow.Stands dims (cutEnd it.noObj dims p) (cutEnd it.noObj dims p) := by
  have next := stands.next_pos
  have reached : Stands (initPackrow { it with curPos := it.curPos + it.packSizeLeft }) dims
      (it.curPos + it.packSizeLeft) (it.curPos + it.packSizeLeft) := by
    refine stands_initPackrow stands.valid ?_ ?_
    · dsimp only
      omega
    · rw [next]
      exact stands.dims_ready
  rw [next] at reached
  rwa [nextPackrow, next]

theorem nextPackrow_end (last : cutEnd it.noObj dims p = it.noObj) :
    it.nextPackrow.valid = false ∧ it.nextPackrow.noObj = it.noObj ∧
      Forall₂ DimOf dims it.nextPackrow.dims := by
  have next := stands.next_pos
  have behind : it.noObj ≤ it.curPos + it.packSizeLeft := by omega
  exact ⟨initPackrow_end behind, initPackrow_noObj _,
    dimOf_initPackrow (stands.ok.imp fun d c dimOk => dimOk.toDimOf)⟩

theorem stands_nextInsidePack (more : i + 1 < cutEnd it.noObj dims p) :
    it.nextInsidePack.1 = true ∧ it.nextInsidePack.2.noObj = it.noObj ∧
      it.nextInsidePack.2.Stands dims p (i + 1) := by
  have low := stands.low
  have size := stands.size
  rw [nextInsidePack]
  dsimp only
  rw [if_neg (by omega)]
  exact ⟨rfl, rfl,
    { stands with
      pos := congrArg (· + 1) stands.pos
      low := by omega
      high := more
      size := by dsimp only; omega }⟩

theorem stands_restart (last : i + 1 = cutEnd it.noObj dims p) :
    it.nextInsidePack.1 = false ∧ it.nextInsidePack.2.noObj = it.noObj ∧
      it.nextInsidePack.2.Stands dims p p := by
  have low := stands.low
  have size := stands.size
  have pos := stands.pos
  have start := stands.packStart
  rw [nextInsidePack]
  dsimp only
  rw [if_pos (by omega)]
  exact ⟨rfl, rfl,
    { stands with
      pos := start
      low := le_rfl
      high := cutEnd_gt stands.inObj
      size := by dsimp only; omega }⟩

end

/-! ### Places -/

variable {packs later : List (List GroupTuple)} {pack left : List GroupTuple} {x y : GroupTuple}

noncomputable def place (noObj : Nat) (dims : List IndexedDim) (p i : Nat) : Place GroupTuple :=
  (indexPlace noObj dims p i).map .index

theorem left_length (isPlace : place noObj dims p i = ⟨packs, pack, left, later⟩) :
    left.length = cutEnd noObj dims p - i := by
  rw [← (Place.mk.inj isPlace).2.2.1, length_map, indexPlace, length_range']

theorem place_more (isPlace : place noObj dims p i = ⟨packs, pack, x :: y :: left, later⟩) :
    i + 1 < cutEnd noObj dims p ∧
      place noObj dims p (i + 1) = ⟨packs, pack, y :: left, later⟩ := by
  have size := left_length isPlace
  rw [length_cons, length_cons] at size
  obtain ⟨isPacks, isPack, isLeft, isLater⟩ := Place.mk.inj isPlace
  have step : cutEnd noObj dims p - i = cutEnd noObj dims p - (i + 1) + 1 := by omega
  rw [indexPlace, step, range'_succ, map_cons, cons.injEq] at isLeft
  refine ⟨by omega, ?_⟩
  rw [← isPacks, ← isPack, ← isLeft.2, ← isLater]
  rfl

theorem place_last (isPlace : place noObj dims p i = ⟨packs, pack, [x], later⟩) :
    i + 1 = cutEnd noObj dims p ∧ place noObj dims p p = ⟨packs, pack, pack, later⟩ := by
  have size := left_length isPlace
  rw [length_singleton] at size
  obtain ⟨isPacks, isPack, isLeft, isLater⟩ := Place.mk.inj isPlace
  refine ⟨by omega, ?_⟩
  rw [← isPacks, ← isPack, ← isLater]
  rfl

theorem place_next {next : List GroupTuple}
    (isPlace : place noObj dims p i = ⟨packs, pack, left, next :: later⟩) :
    cutEnd noObj dims p < noObj ∧
      place noObj dims (cutEnd noObj dims p) (cutEnd noObj dims p) =
        ⟨packs, next, next, later⟩ := by
  obtain ⟨isPacks, _, _, isLater⟩ := Place.mk.inj isPlace
  change (indexPacks noObj dims (p + 1)).map (map GroupTuple.index) = next :: later at isLater
  rw [indexPacks] at isLater
  cases ahead : onesIn (isCut noObj dims) (p + 1) noObj with
  | nil =>
    rw [ahead] at isLater
    cases isLater
  | cons q rest =>
    obtain ⟨isEnd, _, inObj, _, after⟩ := cutEnd_of_some ahead
    rw [ahead, map_cons, map_cons, cons.injEq] at isLater
    rw [isEnd]
    refine ⟨inObj, ?_⟩
    rw [← isPacks, ← isLater.1, ← isLater.2, ← after]
    rfl

theorem place_end (isPlace : place noObj dims p i = ⟨packs, pack, left, []⟩) :
    cutEnd noObj dims p = noObj := by
  obtain ⟨_, _, _, isLater⟩ := Place.mk.inj isPlace
  change (indexPacks noObj dims (p + 1)).map (map GroupTuple.index) = [] at isLater
  rw [indexPacks, map_eq_nil_iff, map_eq_nil_iff] at isLater
  exact cutEnd_of_none isLater

theorem place_first (isPacks : (indexPacks noObj dims 0).map (map .index) = pack :: later) :
    0 < noObj ∧ place noObj dims 0 0 = ⟨pack :: later, pack, pack, later⟩ := by
  by_cases some : 0 < noObj
  · refine ⟨some, ?_⟩
    rw [place, Place.map, indexPlace, isPacks]
    rw [indexPacks, onesIn_cons some isCut_zero, map_cons, map_cons, cons.injEq]
      at isPacks
    rw [← isPacks.1, ← isPacks.2]
    rfl
  · rw [indexPacks, onesIn_of_le (not_lt.mp some)] at isPacks
    cases isPacks

theorem of_of_same {it' : DGMaterializedIterator} (same : ∀ dims, Forall₂ DimOf dims it.dims →
      it'.noObj = it.noObj ∧ Forall₂ DimOf dims it'.dims)
    (walks : ∃ dims, Forall₂ DimOf dims it.dims ∧
      packs = (indexPacks it.noObj dims 0).map (map .index)) :
    ∃ dims, Forall₂ DimOf dims it'.dims ∧
      packs = (indexPacks it'.noObj dims 0).map (map .index) := by
  obtain ⟨dims, of, isPacks⟩ := walks
  obtain ⟨sameObj, of'⟩ := same dims of
  exact ⟨dims, of', sameObj.symm ▸ isPacks⟩

noncomputable def contract : GroupContract DGMaterializedIterator GroupTuple where
  Of packs it := ∃ dims, List.Forall₂ DimOf dims it.dims ∧
    packs = (indexPacks it.noObj dims 0).map (List.map .index)
  Stands it p := ∃ dims start i, it.Stands dims start i ∧ p = place it.noObj dims start i
  isFilter _ := false
  isValid_of_stands := by
    rintro it p ⟨dims, start, i, stands, rfl⟩
    exact stands.valid
  current_of_stands := by
    rintro it p ⟨dims, start, i, stands, rfl⟩
    have step : cutEnd it.noObj dims start - i = cutEnd it.noObj dims start - (i + 1) + 1 := by
      have high := stands.high
      omega
    show ((List.range' i (cutEnd it.noObj dims start - i)).map GroupTuple.index).head? = _
    rw [step, List.range'_succ, List.map_cons, List.head?_cons]
    exact congrArg (some ∘ GroupTuple.index) stands.pos.symm
  getPackSizeLeft_of_stands := by
    rintro it p ⟨dims, start, i, stands, rfl⟩
    exact congrArg Int.ofNat (stands.size.trans (left_length rfl).symm)
  packs_ne_nil := by
    rintro it p ⟨dims, start, i, stands, rfl⟩ none
    have some : 0 < it.noObj := lt_of_le_of_lt (Nat.zero_le _) stands.inObj
    have isPacks : (indexPacks it.noObj dims 0).map (List.map GroupTuple.index) = [] := none
    rw [indexPacks, onesIn_cons some isCut_zero] at isPacks
    cases isPacks
  rewind_nil := by
    rintro it ⟨dims, of, none⟩
    have empty : it.noObj ≤ 0 := by
      by_contra some
      rw [indexPacks, onesIn_cons (Nat.not_le.mp some) isCut_zero] at none
      cases none
    exact initPackrow_end empty
  rewind_cons := by
    rintro it pack later ⟨dims, of, isPacks⟩
    obtain ⟨some, first⟩ := place_first isPacks.symm
    exact ⟨dims, 0, 0, stands_rewind of some, (initPackrow_noObj _).symm ▸ first.symm⟩
  nextInsidePack_more := by
    rintro it packs later pack left x y ⟨dims, start, i, stands, isPlace⟩
    obtain ⟨more, moved⟩ := place_more isPlace.symm
    obtain ⟨flag, sameObj, stands'⟩ := stands_nextInsidePack stands more
    exact ⟨flag, dims, start, i + 1, stands', sameObj.symm ▸ moved.symm⟩
  nextInsidePack_last := by
    rintro it packs later pack x ⟨dims, start, i, stands, isPlace⟩
    obtain ⟨last, moved⟩ := place_last isPlace.symm
    obtain ⟨flag, sameObj, stands'⟩ := stands_restart stands last
    exact ⟨flag, dims, start, start, stands', sameObj.symm ▸ moved.symm⟩
  nextPackrow_more := by
    rintro it packs later pack left next ⟨dims, start, i, stands, isPlace⟩
    obtain ⟨more, moved⟩ := place_next isPlace.symm
    have sameObj : it.nextPackrow.noObj = it.noObj := initPackrow_noObj _
    exact ⟨dims, _, _, stands_nextPackrow stands more, sameObj.symm ▸ moved.symm⟩
  nextPackrow_last := by
    rintro it packs pack left ⟨dims, start, i, stands, isPlace⟩
    obtain ⟨ended, sameObj, of⟩ := nextPackrow_end stands (place_end isPlace.symm)
    exact ⟨ended, dims, of, sameObj.symm ▸ (Place.mk.inj isPlace).1⟩
  increment_more filter := absurd filter Bool.false_ne_true
  increment_pack filter := absurd filter Bool.false_ne_true
  increment_last filter := absurd filter Bool.false_ne_true
  of_increment := of_of_same fun _ => dimOf_increment
  of_rewind := of_of_same fun _ of => ⟨initPackrow_noObj _, dimOf_rewind of⟩
  of_nextInsidePack := of_of_same fun _ => dimOf_nextInsidePack
  of_nextPackrow := of_of_same fun _ of => ⟨initPackrow_noObj _, dimOf_initPackrow of⟩
  isFilter_rewind _ := rfl
  isFilter_nextPackrow _ := rfl
  isFilter_increment _ := rfl

end DGMaterializedIterator

end Brighthouse.Core
