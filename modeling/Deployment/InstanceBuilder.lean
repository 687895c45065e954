import Deployment.Draft
import Deployment.SourceMap
import Deployment.TypeGraph

/-!
# Building a forest from declarations

A forest is built from the declarations of one file after the other. An instance is created for
each declaration as it is met: a declaration at the top level first, then what is declared inside
it, breadth-first. The instances get their places only when the whole file has been gone through.
Instances are told apart by their indices all the while, as their names are not final before all
copies have been made.

* `InstanceBuilder.create`: the instance of a declaration, without a place.
* `InstanceBuilder.createBelow`: the instances declared inside others, and who is below whom.
* `InstanceBuilder.buildFile`: the trees of instances that the blocks of a file declare.
* `InstanceBuilder.checkUniqueness`: the declarations whose instances have the same path.
-/

namespace Deployment

/-- The state of building a forest. -/
structure InstanceBuilder where
  /-- The instances. -/
  forest : Forest
  /-- Everything found, in the order in which it was found. -/
  diagnostics : List Diagnostic
  /-- Where every instance was declared; a copy was declared where what it copies was. -/
  origins : Table Nat Site
  /-- The instances created for declarations, in order. -/
  declared : List Nat
  /-- What declarations say about copies, as long as it has not been read. -/
  counts : Table Nat String

namespace InstanceBuilder

/-- Nothing built, and something found before. -/
def start (diagnostics : List Diagnostic) : InstanceBuilder :=
  { forest := .empty, diagnostics, origins := .empty, declared := [], counts := .empty }

/-! ### Declarations -/

/-- One more instance, read from its declaration. It has no place, and its index is the number of
    instances before. -/
def create (g : TypeGraph) (s : InstanceBuilder) (b : InstanceDeclaration) : InstanceBuilder :=
  let draft := Draft.read b
  let id := s.forest.nodes.size
  { forest := s.forest.insert draft.body
    diagnostics :=
      if g.components.contains b.component then s.diagnostics
      else s.diagnostics ++ [.found b.site .inexistingComponent [⟨.component, b.component⟩]]
    origins := s.origins.insert id b.site
    declared := s.declared ++ [id]
    counts :=
      match draft.countText with
      | some text => s.counts.insert id text
      | none => s.counts }

/-- The instances of some declarations, each declaration with the index of its instance. -/
def createAll (g : TypeGraph) :
    InstanceBuilder → List InstanceDeclaration → InstanceBuilder × List (Nat × InstanceDeclaration)
  | s, [] => (s, [])
  | s, b :: bs =>
    let (s', rest) := createAll g (s.create g b) bs
    (s', (s.forest.nodes.size, b) :: rest)

/-- The instances declared inside the declarations of a queue: the first of the queue has its own
    created, which join at the end. With them come the pairs of parents and children, in the order
    in which the children were created. -/
def createBelow (g : TypeGraph) : Nat → InstanceBuilder → List (Nat × InstanceDeclaration) →
    InstanceBuilder × List (Nat × Nat)
  | 0, s, _ => (s, [])
  | _ + 1, s, [] => (s, [])
  | fuel + 1, s, (parent, b) :: queue =>
    let (s, children) := s.createAll g (Block.instances b.inner)
    let (s, staged) := createBelow g fuel s (queue ++ children)
    (s, children.map (fun child => (parent, child.1)) ++ staged)

/-- The instances of some declarations and of what is declared inside them, one tree after the
    other, with the roots and the pairs of parents and children. -/
def createTrees (g : TypeGraph) : InstanceBuilder → List InstanceDeclaration →
    InstanceBuilder × List Nat × List (Nat × Nat)
  | s, [] => (s, [], [])
  | s, b :: bs =>
    let root := s.forest.nodes.size
    let (s, staged) := createBelow g (Block.populations b.inner + 1) (s.create g b) [(root, b)]
    let (s, roots, later) := createTrees g s bs
    (s, root :: roots, staged ++ later)

/-- The children of pairs attached to their parents. -/
def attachAll (f : Forest) (staged : List (Nat × Nat)) : Forest :=
  staged.foldl (fun f (parent, child) => f.attach parent child) f

/-- The trees of the instances that the blocks of a file declare. -/
def buildFile (g : TypeGraph) (s : InstanceBuilder) (blocks : List Block) : InstanceBuilder :=
  let (s, roots, staged) := s.createTrees g (Block.instances blocks)
  { s with forest := roots.foldl Forest.addRoot (attachAll s.forest staged) }

/-! ### Paths of declarations -/

/-- The paths of the instances created for declarations, with the places of the declarations. -/
def declaredPaths (s : InstanceBuilder) : List (String × Site) :=
  s.declared.filterMap fun id => (s.origins.get? id).map fun site => (s.forest.path id, site)

/-- The places at which one path stands with others, path by path. -/
def repetitions (declared : List (String × Site)) : List Diagnostic :=
  (NameSet.ofList (declared.map Prod.fst)).toList.flatMap fun path =>
    let same := declared.filter fun p => p.1 == path
    if same.length < 2 then []
    else same.map fun p => .found p.2 .alreadyDefinedInstance [⟨.instancePath, path⟩]

/-- Reports the declarations whose instances have the same path. -/
def checkUniqueness (s : InstanceBuilder) : InstanceBuilder :=
  { s with diagnostics := s.diagnostics ++ repetitions s.declaredPaths }

/-- Where the instances below the roots were declared, by their paths. -/
def sourceMap (s : InstanceBuilder) : SourceMap :=
  Table.empty.extend <| s.forest.all.filterMap fun id =>
    (s.origins.get? id).map fun site => (.instanceAt (s.forest.path id), site)

end InstanceBuilder

end Deployment
