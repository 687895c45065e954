/-!
# Ordered trees

Trees whose nodes carry values and have their children in order.

* `Tree.preorder`: the values, a node before what is below it, child after child.
* `Tree.levels`, `Tree.breadthFirst`: the values by their distance from the root; the values
  of a level in order.
* `Tree.map`: the tree with every value changed.
-/

universe u v

namespace Deployment

/-- A value with subtrees in order. -/
inductive Tree (α : Type u) where
  | node (value : α) (children : List (Tree α))
deriving Inhabited

namespace Tree

variable {α : Type u} {β : Type v}

/-- The value at the root. -/
def value : Tree α → α
  | .node value _ => value

/-- The subtrees below the root. -/
def children : Tree α → List (Tree α)
  | .node _ children => children

mutual

/-- The number of nodes. -/
def size : Tree α → Nat
  | .node _ children => sizes children + 1

/-- The number of nodes of some trees. -/
def sizes : List (Tree α) → Nat
  | [] => 0
  | t :: ts => t.size + sizes ts

end

mutual

/-- The values, a node before what is below it. -/
def preorder : Tree α → List α
  | .node value children => value :: preorders children

/-- The values of some trees, tree after tree. -/
def preorders : List (Tree α) → List α
  | [] => []
  | t :: ts => t.preorder ++ preorders ts

end

mutual

/-- Every value changed. -/
def map (f : α → β) : Tree α → Tree β
  | .node value children => .node (f value) (mapAll f children)

/-- Every value of some trees changed. -/
def mapAll (f : α → β) : List (Tree α) → List (Tree β)
  | [] => []
  | t :: ts => t.map f :: mapAll f ts

end

/-- Two lists of levels, level by level. -/
def mergeLevels : List (List α) → List (List α) → List (List α)
  | [], ms => ms
  | ls, [] => ls
  | l :: ls, m :: ms => (l ++ m) :: mergeLevels ls ms

mutual

/-- The values by their distance from the root. -/
def levels : Tree α → List (List α)
  | .node value children => [value] :: levelsAll children

/-- The levels of some trees side by side. -/
def levelsAll : List (Tree α) → List (List α)
  | [] => []
  | t :: ts => mergeLevels t.levels (levelsAll ts)

end

/-- The values, nearest to the root first. -/
def breadthFirst (t : Tree α) : List α := t.levels.flatten

mutual

/-- Whether two trees have the same shape and related values. -/
def same (eq : α → α → Bool) : Tree α → Tree α → Bool
  | .node a as, .node b bs => eq a b && sameAll eq as bs

/-- Whether two lists of trees have the same shape and related values. -/
def sameAll (eq : α → α → Bool) : List (Tree α) → List (Tree α) → Bool
  | [], [] => true
  | t :: ts, u :: us => t.same eq u && sameAll eq ts us
  | _, _ => false

end

end Tree

end Deployment
