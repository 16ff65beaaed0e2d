/-!
# Trees

Ordered trees whose nodes carry labels and have any number of children. Both ways of rebuilding the
nesting of tokens, from spans (`Forest`) and from depths (`Walk`), give trees of this type.

* `Tree` — a label and the list of children.
* `Tree.subtrees` — the subtrees of a tree in pre-order, each with its distance from the root.
* `Tree.forestSubtrees` — the same for a list of trees.
-/

namespace RiftLang

/-- A label and any number of children, in order. -/
inductive Tree (α : Type) where
  | node (label : α) (children : List (Tree α))
  deriving Repr

namespace Tree

variable {α : Type}

/-- What a node carries. -/
def label : Tree α → α
  | node a _ => a

/-- The trees right below a node, in order. -/
def children : Tree α → List (Tree α)
  | node _ ts => ts

mutual

/-- The subtrees in pre-order with their levels, the root being at the given level. -/
def subtrees (level : Nat) : Tree α → List (Nat × Tree α)
  | node a ts => (level, node a ts) :: forestSubtrees (level + 1) ts

/-- The subtrees of several trees in pre-order with their levels, the roots being at the given
level. -/
def forestSubtrees (level : Nat) : List (Tree α) → List (Nat × Tree α)
  | [] => []
  | t :: ts => subtrees level t ++ forestSubtrees level ts

end

end Tree

end RiftLang
