import Mathlib

/-!
# Trees of conditions

A tree of `AND` and `OR` nodes with conditions in its leaves, and the extraction of a
condition that is common to all branches.  The source works on nodes with pointers to the
children and the parent; here a node is its subtree, and an operation that replaces the node
below its parent returns the new subtree.  Conditions are compared by `operator==`, so equal
conditions are one value of `D`; `operator<=` is the argument `le`.
-/

set_option autoImplicit false

namespace Brighthouse.Core

inductive LogicalOperator where
  | and
  | or
  deriving DecidableEq, Repr

inductive DescTreeNode (D : Type) where
  | leaf (desc : D)
  | node (lop : LogicalOperator) (left right : DescTreeNode D)
  deriving DecidableEq, Repr

namespace DescTreeNode

variable {D : Type}

def size : DescTreeNode D → Nat
  | leaf _ => 1
  | node _ left right => left.size + right.size + 1

theorem size_pos (t : DescTreeNode D) : 0 < t.size := by
  cases t <;> simp [size]

def isLeaf : DescTreeNode D → Bool
  | leaf _ => true
  | node _ _ _ => false

def leaves : DescTreeNode D → List D
  | leaf desc => [desc]
  | node _ left right => left.leaves ++ right.leaves

/-- `CheckCondition`, with the values of the conditions in the leaves. -/
def checkCondition (value : D → Bool) : DescTreeNode D → Bool
  | leaf desc => value desc
  | node .and left right => left.checkCondition value && right.checkCondition value
  | node .or left right => left.checkCondition value || right.checkCondition value

variable [DecidableEq D]

/-! ## Candidates -/

def increaseDescriptorCount (desc : D) : List (Nat × D) → List (Nat × D)
  | [] => [(1, desc)]
  | (count, other) :: rest =>
    if desc = other then (count + 1, other) :: rest
    else (count, other) :: increaseDescriptorCount desc rest

def collectDescriptor : DescTreeNode D → List (Nat × D) → List (Nat × D)
  | leaf desc, descCounts => increaseDescriptorCount desc descCounts
  | node _ left right, descCounts => right.collectDescriptor (left.collectDescriptor descCounts)

def canBeExtracted (le : D → D → Bool) (searchedDesc : D) :
    Option LogicalOperator → DescTreeNode D → Bool
  | parent, leaf desc =>
    (parent == some .and && (desc == searchedDesc || le desc searchedDesc)) ||
      (parent == some .or && desc == searchedDesc)
  | _, node .and left right =>
    left.canBeExtracted le searchedDesc (some .and) ||
      right.canBeExtracted le searchedDesc (some .and)
  | _, node .or left right =>
    left.canBeExtracted le searchedDesc (some .or) &&
      right.canBeExtracted le searchedDesc (some .or)

/-! ## Extraction -/

/-- `DescTreeNode::ExtractDescriptor` and the new subtree in the place of the node.  The source
calls it for nodes only; a leaf stays as it is.  Where the last child replaces a node without a
parent, the tree becomes the single condition `oTrue`. -/
def extractDescriptor (oTrue searchedDesc : D) (hasParent : Bool) :
    (t : DescTreeNode D) → { result : DescTreeNode D // result.size ≤ t.size }
  | leaf desc => ⟨leaf desc, le_refl _⟩
  | node lop left right =>
    if left = leaf searchedDesc then
      if right.isLeaf then
        ⟨if hasParent then right else leaf oTrue, by
          have := right.size_pos
          split <;> simp only [size] <;> omega⟩
      else
        let ⟨result, small⟩ := extractDescriptor oTrue searchedDesc hasParent right
        ⟨result, by simp only [size]; omega⟩
    else
      match extractDescriptor oTrue searchedDesc true left with
      | ⟨newLeft, smallLeft⟩ =>
        if right = leaf searchedDesc then
          if newLeft.isLeaf then
            ⟨if hasParent then newLeft else leaf oTrue, by
              have := left.size_pos
              split <;> simp only [size] <;> omega⟩
          else
            let ⟨result, small⟩ := extractDescriptor oTrue searchedDesc hasParent newLeft
            ⟨result, by simp only [size]; omega⟩
        else
          let ⟨newRight, smallRight⟩ := extractDescriptor oTrue searchedDesc true right
          ⟨node lop newLeft newRight, by simp only [size]; omega⟩
termination_by t => t.size
decreasing_by
  all_goals simp only [size]; omega

end DescTreeNode

/-! ## The tree -/

/-- `std::sort` by the numbers of occurrences.  Conditions with the same number are ordered by
their estimated cost, which is left open. -/
structure DescriptorSort (D : Type) where
  sort : List (Nat × D) → List (Nat × D)
  perm : ∀ descCounts, (sort descCounts).Perm descCounts
  sorted : ∀ descCounts, (sort descCounts).Pairwise fun a b => a.1 ≤ b.1

variable {D : Type} [DecidableEq D]

/-- `DescTree::ExtractDescriptor`, with the tree that is left.  The result is `none` for the
empty descriptor. -/
def DescTree.extractDescriptor (order : DescriptorSort D) (le : D → D → Bool) (oTrue : D)
    (root : DescTreeNode D) : Option (D × DescTreeNode D) :=
  let descCounts := order.sort (root.collectDescriptor [])
  (descCounts.reverse.find? fun entry => root.canBeExtracted le entry.2 none).map fun entry =>
    (entry.2, (root.extractDescriptor oTrue entry.2 false).1)

end Brighthouse.Core
