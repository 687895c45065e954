import Deployment.Forest.Replication
import Deployment.InstanceBuilder

/-!
# Copies of declared instances

Once all files are built, instances that ask for several copies get them, by replication in the
forest. The instances below a root are gone through from the deepest to the root, so that what is
below an instance is final before the instance is copied. The copies of an instance are attached
beside it, as the last children of its parent; those of a root become roots when all roots have
been gone through. The instance itself is then the first of its copies, and its name gets a
number, too.

* `Replication.copyInstance`, `Replication.replicateInstance`: one copy, and all copies that an
  instance asks for.
* `InstanceBuilder.replicate`: all copies of all instances.
* `InstanceBuilder.checkInferred`: the copies that have the name of another instance beside them.
-/

namespace Deployment

/-- The state of making copies. -/
structure Replication extends InstanceBuilder where
  /-- The copies, in the order in which they were made. -/
  inferred : List Nat
  /-- The copies of roots, which are no roots yet. -/
  extraRoots : List Nat

namespace Replication

/-- The origins with those of copies, for pairs of instances and their copies. -/
def copyOrigins (origins : Table Nat Site) (pairs : List (Nat × Nat)) : Table Nat Site :=
  pairs.foldl (fun origins (original, copy) =>
    match origins.get? original with
    | some site => origins.insert copy site
    | none => origins) origins

/-- One copy of an instance under a name, beside the instance if it has a parent. -/
def copyInstance (s : Replication) (id : Nat) (parent : Option Nat) (name : String) :
    Replication :=
  let copy := s.forest.nodes.size
  let (forest, pairs) := s.forest.replicate id
  let forest := forest.rename copy name
  { s with
    forest :=
      match parent with
      | some parent => forest.attach parent copy
      | none => forest
    origins := copyOrigins s.origins pairs
    inferred := s.inferred ++ [copy]
    extraRoots :=
      match parent with
      | some _ => s.extraRoots
      | none => s.extraRoots ++ [copy] }

/-- The copies that an instance asks for. It is asked only once. -/
def replicateInstance (s : Replication) (id : Nat) : Replication :=
  match s.counts.get? id with
  | none => s
  | some text =>
    let s := { s with counts := s.counts.erase id }
    let count := Draft.countOf text
    if count ≤ 1 then s
    else
      let name (copy : Nat) := ((s.forest.get? id).map (·.name)).getD "" ++
        Text.padded (Text.width count) copy
      let parent := s.forest.parent? id
      let s := (List.range' 2 (count - 1)).foldl
        (fun s' copy => copyInstance s' id parent (name copy)) s
      { s with forest := s.forest.rename id (name 1) }

/-- The copies that a root and what is below it ask for, from the deepest to the root. -/
def replicateBelow (s : Replication) (root : Nat) : Replication :=
  (s.forest.hierarchy root).reverse.foldl replicateInstance s

end Replication

namespace InstanceBuilder

/-- Whether another instance beside an instance has its name. -/
def isTaken (f : Forest) (id : Nat) : Bool :=
  let siblings :=
    match f.parent? id with
    | some parent => f.children parent
    | none => f.roots
  siblings.any fun sibling => sibling != id &&
    (f.get? sibling).map (·.name) == (f.get? id).map (·.name)

/-- Reports the copies whose name another instance beside them has, each path once. -/
def checkInferred (s : InstanceBuilder) (inferred : List Nat) : InstanceBuilder :=
  let paths := (inferred.filter (isTaken s.forest)).map s.forest.path
  { s with
    diagnostics := s.diagnostics ++ (NameSet.ofList paths).toList.map fun path =>
      ⟨.conflictingInferredInstance, [⟨.instancePath, path⟩]⟩ }

/-- All copies that the instances ask for. -/
def replicate (s : InstanceBuilder) : InstanceBuilder :=
  let r := s.forest.roots.foldl Replication.replicateBelow ⟨s, [], []⟩
  { r.toInstanceBuilder with forest := r.extraRoots.foldl Forest.addRoot r.forest }.checkInferred
    r.inferred

end InstanceBuilder

end Deployment
