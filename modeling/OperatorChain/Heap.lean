/-!
# Heaps

A priority queue over any type with a decidable order: the least element comes out first.  The heap
is leftist, that is, no node's right spine is longer than its left subtree's, so that merging walks
along two short spines only.

* `Heap.insert`, `Heap.ofList` — filling a heap.
* `Heap.popMin?` — the element at the root, and the heap without it.
* `Heap.toList` — the elements, in no particular order.
-/

namespace OperatorChain

/-- A binary tree whose nodes carry the length of their right spine. -/
inductive Heap (α : Type) where
  | empty
  | node (rank : Nat) (least : α) (left right : Heap α)
  deriving Repr

namespace Heap

variable {α : Type}

/-- The length of the right spine. -/
def rank : Heap α → Nat
  | .empty => 0
  | .node rank _ _ _ => rank

/-- The elements, each node before its subtrees. -/
def toList : Heap α → List α
  | .empty => []
  | .node _ least left right => least :: (left.toList ++ right.toList)

/-- The heap of one element. -/
def singleton (a : α) : Heap α :=
  .node 1 a .empty .empty

/-- A node over two subtrees, the one with the shorter right spine to the right. -/
def branch (least : α) (left right : Heap α) : Heap α :=
  if right.rank ≤ left.rank then .node (right.rank + 1) least left right
  else .node (left.rank + 1) least right left

variable [LE α] [DecidableLE α]

/-- Merges a node with a second heap, walking down the right spine of the second.  The node is
`whole`, with `least` above `left` and a right subtree that `mergeRight` merges with a heap. -/
def mergeNode (whole : Heap α) (least : α) (left : Heap α) (mergeRight : Heap α → Heap α) :
    Heap α → Heap α
  | .empty => whole
  | .node rank b left₂ right₂ =>
    if least ≤ b then branch least left (mergeRight (.node rank b left₂ right₂))
    else branch b left₂ (mergeNode whole least left mergeRight right₂)

/-- The elements of two heaps in one: the smaller root stays on top, and its right subtree is
merged with the other heap. -/
def merge : Heap α → Heap α → Heap α
  | .empty, second => second
  | .node rank a left right, second =>
    mergeNode (.node rank a left right) a left (merge right) second

/-- The heap with one element more. -/
def insert (heap : Heap α) (a : α) : Heap α :=
  heap.merge (singleton a)

/-- The heap of the elements of a list. -/
def ofList (elements : List α) : Heap α :=
  elements.foldl insert .empty

/-- The element at the root, with the heap of the others. -/
def popMin? : Heap α → Option (α × Heap α)
  | .empty => none
  | .node _ least left right => some (least, left.merge right)

end Heap

end OperatorChain
