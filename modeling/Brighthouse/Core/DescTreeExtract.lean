import Brighthouse.Core.DescTree

/-!
# When the extraction of a condition preserves the meaning

`ExtractDescriptor` deletes the leaves with the extracted condition without looking at the
operator above them.  Below `AND` this is right once the condition is known to hold; below `OR`
it drops a branch that would have made the node true.
-/

set_option autoImplicit false

namespace Brighthouse.Core.DescTreeNode

open List Bool

variable {D : Type}

/-! ## Values of trees -/

section Values
variable {value other : D → Bool} {t : DescTreeNode D}

theorem checkCondition_mono (le : ∀ e ∈ t.leaves, value e = true → other e = true)
    (holds : t.checkCondition value = true) : t.checkCondition other = true := by
  induction t with
  | leaf desc => exact le desc (by simp [leaves]) holds
  | node lop left right ihLeft ihRight =>
    have onLeft := ihLeft fun e mem => le e (mem_append_left _ mem)
    have onRight := ihRight fun e mem => le e (mem_append_right _ mem)
    cases lop with
    | and =>
      rw [checkCondition, and_eq_true] at holds ⊢
      exact ⟨onLeft holds.1, onRight holds.2⟩
    | or =>
      rw [checkCondition, or_eq_true] at holds ⊢
      exact holds.imp onLeft onRight

end Values

variable [DecidableEq D]

/-! ## Steps that keep the meaning -/

/-- What is known to hold once `d` has been extracted. -/
def known (oTrue d : D) (e : D) : Bool := decide (e = oTrue) || decide (e = d)

def holdsWith (oTrue d : D) (t : DescTreeNode D) : Bool := t.checkCondition (known oTrue d)

/-- A leaf `d` beside the branch can be deleted: below `AND`, and below `OR` if the branch holds
together with `d`. -/
def droppable (oTrue d : D) (lop : LogicalOperator) (branch : DescTreeNode D) : Bool :=
  lop == .and || branch.holdsWith oTrue d

/-- `ExtractDescriptor` makes harmless steps only: each leaf it deletes can be deleted from the
tree of that moment, and the last leaf of a root, which becomes `oTrue`, holds together with
`d`. -/
def harmless (oTrue d : D) (hasParent : Bool) : DescTreeNode D → Bool
  | leaf _ => true
  | node lop left right =>
    if left = leaf d then
      droppable oTrue d lop right &&
        if right.isLeaf then hasParent || right.holdsWith oTrue d
        else harmless oTrue d hasParent right
    else
      match extractDescriptor oTrue d true left with
      | ⟨newLeft, _⟩ =>
        harmless oTrue d true left &&
          if right = leaf d then
            droppable oTrue d lop newLeft &&
              if newLeft.isLeaf then hasParent || newLeft.holdsWith oTrue d
              else harmless oTrue d hasParent newLeft
          else harmless oTrue d true right
termination_by t => t.size
decreasing_by
  all_goals simp only [size]; omega

/-- The values under which the trees are compared. -/
def Admits (oTrue d : D) (value : D → Bool) : Prop := value oTrue = true ∧ value d = true

section Steps
variable {oTrue d : D} {t branch : DescTreeNode D}

theorem admits_known (oTrue d : D) : Admits oTrue d (known oTrue d) := by
  simp [Admits, known]

theorem holdsWith_iff : t.holdsWith oTrue d = true ↔
    ∀ value, Admits oTrue d value → t.checkCondition value = true := by
  refine ⟨fun holds value admits => checkCondition_mono (fun e _ isKnown => ?_) holds,
    fun always => always _ (admits_known oTrue d)⟩
  simp only [known, or_eq_true, decide_eq_true_eq] at isKnown
  rcases isKnown with rfl | rfl
  · exact admits.1
  · exact admits.2

/-- The deletion of a leaf beside the branch keeps the meaning exactly if it is droppable. -/
theorem droppable_iff (lop : LogicalOperator) : droppable oTrue d lop branch = true ↔
    ∀ value, Admits oTrue d value →
      branch.checkCondition value = (node lop (leaf d) branch).checkCondition value := by
  cases lop with
  | and =>
    refine iff_of_true rfl fun value admits => ?_
    rw [checkCondition, checkCondition, admits.2, Bool.true_and]
  | or =>
    have beside : ∀ value, Admits oTrue d value →
        (node .or (leaf d) branch).checkCondition value = true := fun value admits => by
      rw [checkCondition, checkCondition, admits.2, Bool.true_or]
    rw [droppable, show (LogicalOperator.or == .and) = false from rfl, Bool.false_or, holdsWith_iff]
    exact forall₂_congr fun value admits => by rw [beside value admits]

omit [DecidableEq D] in
theorem checkCondition_swap (lop : LogicalOperator) (left right : DescTreeNode D)
    (value : D → Bool) :
    (node lop left right).checkCondition value = (node lop right left).checkCondition value := by
  cases lop with
  | and => exact Bool.and_comm _ _
  | or => exact Bool.or_comm _ _

omit [DecidableEq D] in
theorem checkCondition_node_congr (lop : LogicalOperator) {left left' right right' : DescTreeNode D}
    {value : D → Bool} (onLeft : left'.checkCondition value = left.checkCondition value)
    (onRight : right'.checkCondition value = right.checkCondition value) :
    (node lop left' right').checkCondition value = (node lop left right).checkCondition value := by
  cases lop <;> rw [checkCondition, checkCondition, onLeft, onRight]

theorem checkCondition_last {hasParent : Bool}
    (kept : (hasParent || branch.holdsWith oTrue d) = true) {value : D → Bool}
    (admits : Admits oTrue d value) :
    (if hasParent then branch else leaf oTrue).checkCondition value =
      branch.checkCondition value := by
  cases hasParent with
  | true => rfl
  | false => exact admits.1.trans (holdsWith_iff.mp kept value admits).symm

/-- A run of harmless steps keeps the meaning.  The induction is on the size, since the second
extraction on the left works on the result of the first one. -/
theorem checkCondition_extractDescriptor (n : Nat) : ∀ (t : DescTreeNode D) (hasParent : Bool),
    t.size ≤ n → t.harmless oTrue d hasParent = true → ∀ value, Admits oTrue d value →
      (t.extractDescriptor oTrue d hasParent).1.checkCondition value = t.checkCondition value := by
  induction n with
  | zero =>
    intro t hasParent small
    have := t.size_pos
    omega
  | succ n ih =>
    intro t hasParent small steps value admits
    cases t with
    | leaf e => rw [extractDescriptor]
    | node lop left right =>
      have sizes : left.size + right.size + 1 ≤ n + 1 := small
      have := left.size_pos
      have := right.size_pos
      rw [harmless] at steps
      rw [extractDescriptor]
      by_cases isLeft : left = leaf d
      · subst isLeft
        rw [if_pos rfl, and_eq_true] at steps
        obtain ⟨drop, last⟩ := steps
        rw [if_pos rfl, ← (droppable_iff lop).mp drop value admits]
        split
        · rename_i isLeaf
          rw [if_pos isLeaf] at last
          exact checkCondition_last last admits
        · rename_i isNode
          rw [if_neg isNode] at last
          exact ih right hasParent (by omega) last value admits
      · rw [if_neg isLeft] at steps ⊢
        have smaller := (left.extractDescriptor oTrue d true).2
        dsimp only at steps ⊢
        rw [and_eq_true] at steps
        obtain ⟨onLeft, rest⟩ := steps
        have first := ih left true (by omega) onLeft value admits
        split
        · rename_i isRight
          subst isRight
          rw [if_pos rfl, and_eq_true] at rest
          obtain ⟨drop, last⟩ := rest
          rw [← checkCondition_node_congr lop first rfl, checkCondition_swap,
            ← (droppable_iff lop).mp drop value admits]
          split
          · rename_i isLeaf
            rw [if_pos isLeaf] at last
            exact checkCondition_last last admits
          · rename_i isNode
            rw [if_neg isNode] at last
            exact ih _ hasParent (by omega) last value admits
        · rename_i otherRight
          rw [if_neg otherRight] at rest
          exact checkCondition_node_congr lop first (ih right true (by omega) rest value admits)

end Steps

/-! ## The extraction from a whole tree -/

theorem canBeExtracted_implies {le : D → D → Bool} {d : D} {value : D → Bool} (t : DescTreeNode D)
    (respects : ∀ e ∈ t.leaves, le e d = true → value e = true → value d = true) :
    ∀ parent, t.canBeExtracted le d parent = true → t.checkCondition value = true →
      value d = true := by
  induction t with
  | leaf e =>
    intro parent can holds
    have inLeaf := respects e (mem_singleton_self e)
    simp only [canBeExtracted, or_eq_true, and_eq_true, beq_iff_eq] at can
    rcases can with ⟨_, rfl | isLe⟩ | ⟨_, rfl⟩
    · exact holds
    · exact inLeaf isLe holds
    · exact holds
  | node lop left right ihLeft ihRight =>
    intro parent can holds
    have onLeft := ihLeft fun e mem => respects e (mem_append_left _ mem)
    have onRight := ihRight fun e mem => respects e (mem_append_right _ mem)
    cases lop with
    | and =>
      rw [canBeExtracted, or_eq_true] at can
      rw [checkCondition, and_eq_true] at holds
      exact can.elim (fun l => onLeft _ l holds.1) fun r => onRight _ r holds.2
    | or =>
      rw [canBeExtracted, and_eq_true] at can
      rw [checkCondition, or_eq_true] at holds
      exact holds.elim (onLeft _ can.1) (onRight _ can.2)

def Preserves (le : D → D → Bool) (oTrue d : D) (t rest : DescTreeNode D) : Prop :=
  ∀ value : D → Bool, value oTrue = true →
    (∀ e ∈ t.leaves, le e d = true → value e = true → value d = true) →
    (t.checkCondition value = true ↔ value d = true ∧ rest.checkCondition value = true)

/-- The extraction is harmless, or nothing is left of a tree that holds together with `d`. -/
def Extractable (oTrue d : D) (t : DescTreeNode D) : Prop :=
  t.harmless oTrue d false = true ∨
    (t.extractDescriptor oTrue d false).1 = leaf oTrue ∧ t.holdsWith oTrue d = true

theorem Extractable.checkCondition_eq {oTrue d : D} {t : DescTreeNode D}
    (extractable : t.Extractable oTrue d) {value : D → Bool} (admits : Admits oTrue d value) :
    (t.extractDescriptor oTrue d false).1.checkCondition value = t.checkCondition value := by
  rcases extractable with steps | ⟨nothing, holds⟩
  · exact checkCondition_extractDescriptor t.size t false (le_refl _) steps value admits
  · rw [nothing, holdsWith_iff.mp holds value admits]
    exact admits.1

end DescTreeNode

open DescTreeNode

variable {D : Type} [DecidableEq D]

def insertionOrder (D : Type) : DescriptorSort D where
  sort := List.insertionSort fun a b => a.1 ≤ b.1
  perm := List.perm_insertionSort _
  sorted := fun descCounts => by
    have : Std.Total fun a b : Nat × D => a.1 ≤ b.1 := ⟨fun a b => Nat.le_total a.1 b.1⟩
    have : IsTrans (Nat × D) fun a b => a.1 ≤ b.1 := ⟨fun a b c => Nat.le_trans⟩
    exact List.pairwise_insertionSort _ _

end Brighthouse.Core
