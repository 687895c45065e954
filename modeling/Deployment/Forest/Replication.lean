import Deployment.Forest

/-!
# Replication

A copy of an instance with everything below it, as new nodes of the same forest. The copy
stands alone: it is no root and has no parent.

The copies are numbered breadth-first, as the hierarchy that is copied: its first instance
gets the next free index, and the children of each copy in turn the indices after those that
were given before.

* `Forest.copies`: which instance each new node copies, and the new node itself.
* `Forest.replicate`: the forest with the copy, and each instance copied with its copy.
-/

namespace Deployment.Forest

variable (f : Forest)

/-- An instance about to be copied. -/
structure Copy where
  /-- The instance. -/
  source : Nat
  /-- The index of its copy. -/
  index : Nat
  /-- The index of the copy of its parent. -/
  parent : Option Nat

/-- The children of an instance about to be copied, their copies numbered from `next` on. -/
def childCopies (next : Nat) (c : Copy) : List Copy :=
  (f.children c.source).zipIdx.map fun (child, i) => ⟨child, next + i, some c.index⟩

/-- A level with the children of each of its instances, numbered from `next` on. -/
def withChildren (next : Nat) : List Copy → List (Copy × List Copy)
  | [] => []
  | c :: cs =>
    let children := f.childCopies next c
    (c, children) :: withChildren (next + children.length) cs

/-- The copies of a level and of the levels below it, those of the next level numbered from
    `next` on, each with the copies of its children. -/
def copiesFrom : Nat → Nat → List Copy → List (Copy × List Copy)
  | 0, _, _ => []
  | fuel + 1, next, level =>
    if level.isEmpty then []
    else
      let level := f.withChildren next level
      let below := level.flatMap Prod.snd
      level ++ copiesFrom fuel (next + below.length) below

/-- The copies of an instance and of everything below it. -/
def copies (id : Nat) : List (Copy × List Copy) :=
  f.copiesFrom f.nodes.size (f.nodes.size + 1) [⟨id, f.nodes.size, none⟩]

/-- The node of a copy. -/
def copyNode (c : Copy × List Copy) : Node :=
  { body := (f.get? c.1.source).getD default
    parent := c.1.parent
    children := c.2.map (·.index) }

/-- The forest with a copy of an instance and of everything below it, and the pairs of
    instances and their copies; the first pair is that of the instance itself. -/
def replicate (id : Nat) : Forest × List (Nat × Nat) :=
  let copies := f.copies id
  ({ f with nodes := f.nodes ++ (copies.map f.copyNode).toArray },
    copies.map fun c => (c.1.source, c.1.index))

end Deployment.Forest
