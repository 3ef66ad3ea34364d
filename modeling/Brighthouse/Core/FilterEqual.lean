import Brighthouse.Core.FilterBetween

/-!
# Equality of filters

Functional model of `IsEqual` of `core/Filter.cpp` and `core/Filter_Block.cpp`.  A block that is
full up to a last one may have the rows of a mixed block.  For such a pair the source asks for
rows from `b >> 16` on, which is not where block `b` starts, and does not go on to later blocks.
-/

set_option autoImplicit false

namespace Brighthouse.Core

open Library.WordTable Nat BitVec

namespace Block

def isEqual (b b2 : Block) : Bool :=
  let mn := (b.noObj - 1) / 32
  let mask := 0xFFFFFFFF#32 >>> (32 - ((b.noObj - 1) % 32 + 1))
  (List.range mn).all (fun n => b.blockTable n == b2.blockTable n) &&
    b.blockTable mn &&& mask == b2.blockTable mn &&& mask

end Block

def Slot.isEqual (s s2 : Slot) : Option Bool :=
  if s.status = .full ∧ s.lastOne ≠ s2.lastOne then some false
  else
    match s.block with
    | none => some true
    | some b => s2.block.map b.isEqual

namespace Filter

/-- A block that is full up to `lastOne` against the mixed block `b` of `f`. -/
def comparePrefix (f : Filter) (b lastOne : Nat) : Option Bool :=
  let bstart := b / 65536
  let bstop := bstart + (f.blockSize b - 1)
  (f.isFullBetween bstart (bstart + lastOne)).bind fun full =>
    if !full then some false
    else if bstart + lastOne < bstop then f.isEmptyBetween (bstart + lastOne + 1) bstop
    else some true

def isEqualFrom (f g : Filter) : Nat → Nat → Option Bool
  | 0, _ => some true
  | left + 1, b =>
    let s := f.slots b
    let s2 := g.slots b
    if s.status = s2.status then
      (s.isEqual s2).bind fun same => if !same then some false else isEqualFrom f g left (b + 1)
    else if s.status = .full ∧ s2.status = .mixed then g.comparePrefix b s.lastOne
    else if s2.status = .full ∧ s.status = .mixed then f.comparePrefix b s2.lastOne
    else some false

def isEqual (f g : Filter) : Option Bool :=
  if f.noBlocks ≠ g.noBlocks ∨ f.noOfBitsInLastBlock ≠ g.noOfBitsInLastBlock then some false
  else f.isEqualFrom g f.noBlocks 0

end Filter

/-! ## Blocks -/

theorem masked_eq_iff {w w2 : BitVec 32} {k : Nat} (le : k ≤ 32) :
    w &&& (0xFFFFFFFF#32 >>> (32 - k)) = w2 &&& (0xFFFFFFFF#32 >>> (32 - k)) ↔
      ∀ i < k, w.getLsbD i = w2.getLsbD i := by
  have bit : ∀ i, (0xFFFFFFFF#32 >>> (32 - k)).getLsbD i = decide (i < k) := by
    intro i
    rw [show 0xFFFFFFFF#32 = allOnes 32 from rfl, getLsbD_ushiftRight,
      getLsbD_allOnes]
    exact decide_eq_decide.mpr (by omega)
  constructor
  · intro same i lt
    have here := congrArg (getLsbD · i) same
    simpa only [getLsbD_and, bit, lt, decide_true, Bool.and_true] using here
  · intro all
    apply eq_of_getLsbD_eq
    intro i _
    rw [getLsbD_and, getLsbD_and, bit]
    by_cases lt : i < k
    · rw [all i lt]
    · simp [lt]

theorem Block.isEqual_iff {b b2 : Block} (positive : 0 < b.noObj) :
    b.isEqual b2 = true ↔ ∀ m < b.noObj, b.get m = b2.get m := by
  have word : ∀ n, b.blockTable n = b2.blockTable n ↔
      ∀ i < 32, (b.blockTable n).getLsbD i = (b2.blockTable n).getLsbD i := fun n =>
    ⟨fun same i _ => by rw [same], fun all => eq_of_getLsbD_eq all⟩
  simp only [isEqual, Bool.and_eq_true, List.all_eq_true, List.mem_range, beq_iff_eq, word,
    masked_eq_iff (by omega : (b.noObj - 1) % 32 + 1 ≤ 32), get_eq_testBit, testBit_eq]
  constructor
  · rintro ⟨words, last⟩ m lt
    by_cases inner : m / 32 < (b.noObj - 1) / 32
    · exact words _ inner _ (mod_lt m (by decide))
    · rw [show m / 32 = (b.noObj - 1) / 32 by omega]
      exact last _ (by omega)
  · intro all
    have row : ∀ n i, i < 32 → n * 32 + i < b.noObj →
        (b.blockTable n).getLsbD i = (b2.blockTable n).getLsbD i := by
      intro n i inWord lt
      have same := all _ lt
      rwa [show (n * 32 + i) / 32 = n by omega, show (n * 32 + i) % 32 = i by omega] at same
    exact ⟨fun n lt i inWord => row n i inWord (by omega),
      fun i lt => row _ i (by omega) (by omega)⟩

namespace Slot

variable {s s2 : Slot} {size : Nat} {bits bits2 : Nat → Bool}

section
variable (shown : s.Shows size bits) (shown2 : s2.Shows size bits2) (positive : 0 < size)
include shown shown2 positive

theorem Shows.isEqual (same : s.status = s2.status) :
    Tells (s.isEqual s2) (∀ m < size, bits m = bits2 m) := by
  cases shown with
  | empty lastOne noBit =>
    cases shown2 with
    | empty _ noBit2 =>
      exact tells_some ⟨fun _ m lt => by rw [noBit m lt, noBit2 m lt], fun _ => rfl⟩
    | full => cases same
    | mixed => cases same
  | full lastOne inBlock upTo =>
    cases shown2 with
    | empty => cases same
    | full lastOne2 inBlock2 upTo2 =>
      by_cases equal : lastOne = lastOne2
      · subst equal
        rw [Slot.isEqual, if_neg (by simp)]
        exact tells_some ⟨fun _ m lt => by rw [upTo m lt, upTo2 m lt], fun _ => rfl⟩
      · rw [Slot.isEqual, if_pos ⟨rfl, equal⟩]
        refine tells_some ⟨nofun, fun all => absurd ?_ equal⟩
        have low := all lastOne inBlock
        have high := all lastOne2 inBlock2
        rw [upTo _ inBlock, upTo2 _ inBlock, decide_eq_decide] at low
        rw [upTo _ inBlock2, upTo2 _ inBlock2, decide_eq_decide] at high
        omega
    | mixed => cases same
  | mixed lastOne b holds _ _ =>
    cases shown2 with
    | empty => cases same
    | full => cases same
    | mixed lastOne2 b2 holds2 _ _ =>
      refine tells_some ((Block.isEqual_iff (by rw [holds.noObj_eq]; exact positive)).trans ?_)
      rw [holds.noObj_eq]
      exact forall₂_congr fun m lt => by rw [holds.get_eq m lt, holds2.get_eq m lt]

theorem Shows.empty_of_same (same : ∀ m < size, bits m = bits2 m) (empty : s.status = .empty) :
    s2.status = .empty := by
  rw [shown.status_empty_iff positive] at empty
  rw [shown2.status_empty_iff positive]
  exact fun m lt => (same m lt).symm.trans (empty m lt)

end

end Slot

/-! ## Filters -/

theorem Tells.iff {answer : Option Bool} {p q : Prop} (tells : Tells answer p) :
    Tells answer q ↔ (p ↔ q) := by
  obtain ⟨a, rfl, same⟩ := tells
  rw [← same]
  constructor
  · rintro ⟨a2, called, same2⟩
    rwa [Option.some.inj called]
  · exact fun same2 => tells_some same2

namespace Filter

variable {f g : Filter} {rows b lastOne : Nat}

/-- A full block against a mixed one. -/
def Unlike (f g : Filter) (b : Nat) : Prop :=
  (f.slots b).status = .full ∧ (g.slots b).status = .mixed ∨
    (g.slots b).status = .full ∧ (f.slots b).status = .mixed

/-- The loop of `IsEqual` comes to block `b`. -/
def Reaches (f g : Filter) (b : Nat) : Prop :=
  (∀ n < f.noObj, n / 65536 < b → f.get n = g.get n) ∧ ∀ c < b, ¬f.Unlike g c

def AgreeAt (f g : Filter) (b : Nat) : Prop :=
  ∀ m < f.blockSize b, f.get (b * 65536 + m) = g.get (b * 65536 + m)

theorem Shows.agree_iff (shown : f.Shows rows f.get) (P : Nat → Prop) :
    (∀ n < f.noObj, P (n / 65536) → f.get n = g.get n) ↔
      ∀ b < f.noBlocks, P b → f.AgreeAt g b := by
  rw [shown.noObj_eq]
  constructor
  · intro all b inFilter chosen m small
    have inBlock := shown.blockSize_le inFilter
    have block : (b * 65536 + m) / 65536 = b := by omega
    refine all _ ?_ (block.symm ▸ chosen)
    rw [shown.blockSize_eq inFilter, Nat.lt_min, Nat.lt_sub_iff_add_lt'] at small
    exact small.2
  · intro all n lt chosen
    have row := all _ (shown.block_lt lt) chosen _ (shown.offset_lt lt)
    rwa [div_add_mod'] at row

theorem Shows.comparePrefix_first (shown : f.Shows rows f.get) (inFilter : 0 < f.noBlocks)
    (small : lastOne < f.blockSize 0) :
    Tells (f.comparePrefix 0 lastOne) (∀ m < f.blockSize 0, decide (m ≤ lastOne) = f.get m) := by
  have inRows : f.blockSize 0 ≤ rows := by
    rw [shown.blockSize_eq inFilter]
    omega
  have full := shown.isFullBetween (zero_le lastOne) (by omega)
    fun missing => missing.2.1 (zero_mod 65536)
  rw [fullFrom, zero_mod, Slot.fullFrom_zero, Nat.zero_div, Nat.zero_mul] at full
  have empty : Tells (if lastOne < f.blockSize 0 - 1 then
        f.isEmptyBetween (lastOne + 1) (f.blockSize 0 - 1) else some true)
      (∀ m, lastOne + 1 ≤ m → m ≤ f.blockSize 0 - 1 → f.get m = false) := by
    split
    · exact shown.isEmptyBetween (by omega) (by omega)
    · exact tells_some ⟨fun _ m low high => by omega, fun _ => rfl⟩
  have both := full.and empty
  rw [comparePrefix, Nat.zero_div, zero_add, zero_add, both.iff]
  constructor
  · rintro ⟨set, clear⟩ m lt
    by_cases le : m ≤ lastOne
    · rw [set m (zero_le m) le, decide_eq_true le]
    · rw [clear m (by omega) (by omega), decide_eq_false le]
  · intro all
    constructor
    · intro m _ le
      rw [← all m (by omega), decide_eq_true le]
    · intro m low high
      rw [← all m (by omega), decide_eq_false (by omega)]

section
variable (shown : f.Shows rows f.get) (shown2 : g.Shows rows g.get)
include shown shown2

theorem comparePrefix_agrees (inFilter : 0 < f.noBlocks) (full : (f.slots 0).status = .full) :
    Tells (g.comparePrefix 0 (f.slots 0).lastOne) (f.AgreeAt g 0) := by
  have sizes := shown.blockSize_same shown2.toShaped 0
  obtain ⟨inBlock, upTo⟩ := (shown.slot 0 inFilter).of_full full
  rw [shown.noBlocks_same shown2.toShaped] at inFilter
  have compared := shown2.comparePrefix_first inFilter (sizes ▸ inBlock)
  rw [← sizes] at compared
  refine compared.iff.mpr (forall₂_congr fun m lt => ?_)
  rw [upTo m lt, Nat.zero_mul, zero_add]

theorem isEqualFrom_unlike (left : Nat) (inFilter : 0 < f.noBlocks) (unlike : f.Unlike g 0) :
    Tells (f.isEqualFrom g (left + 1) 0) (f.AgreeAt g 0) := by
  rw [isEqualFrom]
  rcases unlike with ⟨full, mixed⟩ | ⟨full, mixed⟩
  · rw [if_neg (by simp [full, mixed]), if_pos ⟨full, mixed⟩]
    exact comparePrefix_agrees shown shown2 inFilter full
  · rw [if_neg (by simp [full, mixed]), if_neg (by simp [full]), if_pos ⟨full, mixed⟩]
    refine (comparePrefix_agrees shown2 shown ?_ full).iff.mpr ?_
    · rw [← shown.noBlocks_same shown2.toShaped]
      exact inFilter
    · rw [AgreeAt, AgreeAt, shown.blockSize_same shown2.toShaped]
      exact forall₂_congr fun m _ => eq_comm

theorem isEqualFrom_like (left : Nat) : ∀ b, b + left = f.noBlocks →
    (∀ c < f.noBlocks, (∀ d < c, b ≤ d → f.AgreeAt g d) → ¬f.Unlike g c) →
    Tells (f.isEqualFrom g left b) (∀ c < f.noBlocks, b ≤ c → f.AgreeAt g c) := by
  induction left with
  | zero =>
    intro b last _
    exact tells_some ⟨fun _ c lt low => absurd lt (by omega), fun _ => rfl⟩
  | succ left ih =>
    intro b last like
    have inFilter : b < f.noBlocks := by omega
    have inFilter2 : b < g.noBlocks := by rw [← shown.noBlocks_same shown2.toShaped]; exact inFilter
    have slot := shown.slot b inFilter
    have slot2 := shown2.slot b inFilter2
    rw [← shown.blockSize_same shown2.toShaped b] at slot2
    have positive := shown.blockSize_pos inFilter
    have likeHere := like b inFilter fun d less le => absurd less (by omega)
    rw [isEqualFrom]
    by_cases same : (f.slots b).status = (g.slots b).status
    · obtain ⟨ok, called, tells⟩ := slot.isEqual slot2 positive same
      rw [if_pos same, called]
      cases ok with
      | false =>
        exact tells_some ⟨nofun, fun all => tells.mpr (all b inFilter le_rfl)⟩
      | true =>
        have later := ih (b + 1) (by omega) fun c lt agree => like c lt fun d less le => by
          rcases eq_or_lt_of_le le with rfl | low
          · exact tells.mp rfl
          · exact agree d less low
        refine later.iff.mpr ⟨fun all c lt low => ?_, fun all c lt low => all c lt (by omega)⟩
        rcases eq_or_lt_of_le low with rfl | low
        · exact tells.mp rfl
        · exact all c lt low
    · rw [if_neg same, if_neg fun pair => likeHere (Or.inl pair),
        if_neg fun pair => likeHere (Or.inr pair)]
      refine tells_some ⟨nofun, fun all => ?_⟩
      -- Of the pairs of different statuses only those with an empty block are left.
      have agree := all b inFilter le_rfl
      have empty := slot.empty_of_same slot2 positive agree
      have empty2 := slot2.empty_of_same slot positive fun m lt => (agree m lt).symm
      rw [Unlike] at likeHere
      cases status : (f.slots b).status <;> cases status2 : (g.slots b).status <;> simp_all

end

/-- Filters with the same number of rows.  If no full block meets a mixed one behind block 0, the
answer is right unless such a pair in block 0 hides a later difference. -/
theorem isEqual_exact_iff (built : Built ResetSafe f) (built2 : Built ResetSafe g)
    (sameRows : f.noObj = g.noObj)
    (first : ∀ b < f.noBlocks, f.Reaches g b → f.Unlike g b → b = 0) :
    Tells (f.isEqual g) (∀ n < f.noObj, f.get n = g.get n) ↔
      (f.Unlike g 0 → (∀ n < f.noObj, n < 65536 → f.get n = g.get n) →
        ∀ n < f.noObj, f.get n = g.get n) := by
  have shown := shows_of_built built
  have shown2 := shows_of_built built2
  rw [← sameRows] at shown2
  have blocks := shown.noBlocks_same shown2.toShaped
  have bits := shown.bits_eq
  rw [blocks, ← shown2.bits_eq] at bits
  have all : (∀ n < f.noObj, f.get n = g.get n) ↔ ∀ b < f.noBlocks, 0 ≤ b → f.AgreeAt g b := by
    rw [← shown.agree_iff (0 ≤ ·)]
    exact forall₂_congr fun n _ => (imp_iff_right (zero_le _)).symm
  have block0 : (∀ n < f.noObj, n < 65536 → f.get n = g.get n) ↔
      ∀ b < f.noBlocks, b = 0 → f.AgreeAt g b := by
    rw [← shown.agree_iff (· = 0)]
    exact forall₂_congr fun n _ => by rw [Nat.div_eq_zero_iff, or_iff_right (by decide)]
  rw [isEqual, if_neg (by simp [blocks, bits]), all, block0]
  by_cases unlike : 0 < f.noBlocks ∧ f.Unlike g 0
  · obtain ⟨left, count⟩ := Nat.exists_eq_add_one.mpr unlike.1
    have tells := isEqualFrom_unlike shown shown2 left unlike.1 unlike.2
    rw [count, tells.iff, ← count]
    constructor
    · intro same _ agree
      exact same.mp (agree 0 unlike.1 rfl)
    · intro same
      refine ⟨fun agree => same unlike.2 fun b _ zero => zero ▸ agree, fun agree => ?_⟩
      exact agree 0 unlike.1 le_rfl
  · refine iff_of_true (isEqualFrom_like shown shown2 f.noBlocks 0 (zero_add _) ?_) ?_
    · intro c
      induction c using Nat.strong_induction_on with
      | _ c ih =>
        intro lt agree unlikeHere
        have like : ∀ d < c, ¬f.Unlike g d := fun d less =>
          ih d less (less.trans lt) fun e before => agree e (before.trans less)
        have before := (shown.agree_iff (· < c)).mpr fun d _ less => agree d less (zero_le d)
        obtain rfl := first c lt ⟨before, like⟩ unlikeHere
        exact unlike ⟨lt, unlikeHere⟩
    · intro unlike0 _ b lt _
      exact absurd ⟨by omega, unlike0⟩ unlike

theorem isEqual_full_mixed :
    ((construct 1 3 true).reset 2).Unlike ((((construct 1 3 true).reset 1).reset 2).set 1) 0 ∧
      Tells (((construct 1 3 true).reset 2).isEqual
        ((((construct 1 3 true).reset 1).reset 2).set 1))
        (∀ n < 3, ((construct 1 3 true).reset 2).get n =
          ((((construct 1 3 true).reset 1).reset 2).set 1).get n) := by
  have all : Built ResetSafe (construct 1 3 true) := .ofRows (by decide : 3 ≤ rowLimit) rfl
  have built := all.update (.reset 2) (by decide : 2 < 3)
  have built1 := all.update (.reset 1) (by decide : 1 < 3)
  have built2 := built1.update (.reset 2) (by decide : 2 < 3)
  have built3 := built2.update (.set 1) (by decide : 1 < 3)
  refine ⟨Or.inl (by decide), (isEqual_exact_iff built built3 (by decide) ?_).mpr ?_⟩
  · exact fun b lt _ _ => Nat.lt_one_iff.mp lt
  · exact fun _ agree n lt => agree n lt (lt_trans lt (by decide))

/-- All rows but the last of three rows in the second block, which is full in one filter and
mixed in the other.  Rows 0 to 2 are asked in its place. -/
theorem isEqual_misses_equal :
    ¬∀ f g : Filter, Built ResetSafe f → Built ResetSafe g → f.noObj = g.noObj →
      Tells (f.isEqual g) (∀ n < f.noObj, f.get n = g.get n) := by
  intro exact_always
  have all : Built ResetSafe (construct 2 3 true) := .ofRows (by decide : 65539 ≤ rowLimit) rfl
  have built := all.update (.reset 65538) (by decide : 65538 < 65539)
  have built1 := all.update (.reset 65537) (by decide : 65537 < 65539)
  have built2 := built1.update (.reset 65538) (by decide : 65538 < 65539)
  have built3 := built2.update (.set 65537) (by decide : 65537 < 65539)
  obtain ⟨answer, called, right⟩ := exact_always _ _ built built3 (by decide)
  have no : answer = false := Option.some.inj (called.symm.trans (by decide))
  have yes := right.mpr fun n lt => by
    have shown := shows_of_built all
    have row := (shown.update (.reset 65538) (by decide : 65538 < 65539)).get_eq lt
    have row3 := (((shown.update (.reset 65537) (by decide : 65537 < 65539)).update (.reset 65538)
      (by decide : 65538 < 65539)).update (.set 65537) (by decide : 65537 < 65539)).get_eq lt
    rw [row, row3]
    simp only [Update.apply, Function.update_apply]
    by_cases second : n = 65537
    · subst second
      decide
    · simp only [second, if_false]
  rw [no] at yes
  cases yes

end Filter

end Brighthouse.Core
