import Deployment.Status
import Deployment.Table
import Deployment.Tree

/-!
# Forests of instances

The instances of a deployment stand in a forest: an instance runs on its parent, and the
ones without parent are machines. A forest keeps its instances in a list of nodes and links
them by their indices: a node knows the index of its parent and those of its children, in
order. Indices stay valid under every change, names need not.

An instance is designated by its *path*, the names from its root down, each after a slash.

* `Forest.insert`, `Forest.attach`, `Forest.addRoot`: a new node, and its place in the forest.
  They link what they are told to link; that the links make a forest is up to the caller.
* `Forest.hierarchy`, `Forest.all`: an instance with all below it, and every instance below
  a root, breadth-first.
* `Forest.path`, `Forest.find?`: the path of an instance, and the instance with a path.
* `Forest.ofTrees`, `Forest.toTrees`: the forest of some trees, and back.
* `Forest.same`: equality of what is below the roots, indices aside.

Walks are bounded by the number of nodes, which no walk in a forest exceeds.
-/

namespace Deployment

/-- An instance by itself. -/
structure Instance where
  /-- Its name. -/
  name : String
  /-- The component that it is an instance of. -/
  component : String
  /-- How far its deployment has come. -/
  status : Status
  /-- The channels it belongs to. -/
  channels : NameSet
  /-- The exported variables to which it gives values of its own. -/
  overrides : Table String String
  /-- Data that come along with it. -/
  data : Table String String
deriving Inhabited

namespace Instance

/-- The instance with nothing but a name and a component. -/
def named (name component : String) : Instance :=
  { name, component, status := .notDeployed, channels := .empty, overrides := .empty,
    data := .empty }

/-- Equality up to the order of tables and sets. -/
def same (a b : Instance) : Bool :=
  a.name == b.name && a.component == b.component && a.status == b.status &&
    a.channels.same b.channels && a.overrides.same (· == ·) b.overrides &&
    a.data.same (· == ·) b.data

end Instance

/-- An instance with its links. -/
structure Node where
  /-- The instance. -/
  body : Instance
  /-- The index of its parent. -/
  parent : Option Nat
  /-- The indices of its children. -/
  children : List Nat
deriving Inhabited

/-- Instances and their links. -/
structure Forest where
  /-- The instances, by index. -/
  nodes : Array Node
  /-- The indices of the roots. -/
  roots : List Nat
deriving Inhabited

namespace Forest

/-- The forest without instances. -/
def empty : Forest := ⟨#[], []⟩

variable (f : Forest)

/-! ### Links -/

/-- The node at an index. -/
def node? (id : Nat) : Option Node := f.nodes[id]?

/-- The instance at an index. -/
def get? (id : Nat) : Option Instance := (f.node? id).map (·.body)

/-- The children of an instance. -/
def children (id : Nat) : List Nat := ((f.node? id).map (·.children)).getD []

/-- The parent of an instance. -/
def parent? (id : Nat) : Option Nat := (f.node? id).bind (·.parent)

/-- Whether the forest has no root. -/
def isEmpty : Bool := f.roots.isEmpty

/-! ### Change -/

/-- A node changed. -/
def modify (id : Nat) (change : Node → Node) : Forest :=
  { f with nodes := f.nodes.modify id change }

/-- An instance changed, its links left alone. -/
def modifyInstance (id : Nat) (change : Instance → Instance) : Forest :=
  f.modify id fun n => { n with body := change n.body }

/-- An instance with another name, its place left alone. -/
def rename (id : Nat) (name : String) : Forest :=
  f.modifyInstance id fun body => { body with name }

/-- The forest with one more instance, without links; its index is the number of nodes
    before. -/
def insert (body : Instance) : Forest :=
  { f with nodes := f.nodes.push ⟨body, none, []⟩ }

/-- An instance made the last child of another. -/
def attach (parent child : Nat) : Forest :=
  (f.modify child fun n => { n with parent := some parent }).modify parent fun n =>
    { n with children := n.children ++ [child] }

/-- An instance made the last root. -/
def addRoot (id : Nat) : Forest :=
  let f := f.modify id fun n => { n with parent := none }
  { f with roots := f.roots ++ [id] }

/-! ### Walks -/

/-- The instances of a level and of the levels below it. -/
def levelsFrom : Nat → List Nat → List Nat
  | 0, _ => []
  | fuel + 1, level =>
    if level = [] then [] else level ++ levelsFrom fuel (level.flatMap f.children)

/-- The instance and everything below it, breadth-first. -/
def hierarchy (id : Nat) : List Nat := f.levelsFrom f.nodes.size [id]

/-- Everything below the roots, root by root. -/
def all : List Nat := f.roots.flatMap f.hierarchy

/-- The names from the root down to an instance. -/
def namesTo : Nat → Nat → List String
  | 0, _ => []
  | fuel + 1, id =>
    match f.node? id with
    | none => []
    | some n =>
      match n.parent with
      | none => [n.body.name]
      | some parent => namesTo fuel parent ++ [n.body.name]

/-- The path that some names make. -/
def pathOf (names : List String) : String := "/" ++ Text.join "/" names

/-- The path of an instance. -/
def path (id : Nat) : String := pathOf (f.namesTo f.nodes.size id)

/-- Whether an instance has a name. -/
def hasName (name : List Char) (id : Nat) : Bool :=
  (f.get? id).any fun body => body.name.toList == name

/-- The instance below some instances that a list of names leads to, the first name at the
    instances themselves; where a name occurs twice, the first instance counts. -/
def descend : List (List Char) → List Nat → Option Nat
  | [], _ => none
  | [name], ids => ids.find? (f.hasName name)
  | name :: names, ids => (ids.find? (f.hasName name)).bind fun id => descend names (f.children id)

/-- The instance with a path; leading slashes do not matter. -/
def find? (path : String) : Option Nat :=
  f.descend (Chars.splitAll '/' (path.toList.dropWhile (· = '/'))) f.roots

/-! ### Trees -/

mutual

/-- The nodes of a tree laid out from the index `next` on. -/
def layOut (parent : Option Nat) (next : Nat) : Tree Instance → List Node
  | .node body children =>
    ⟨body, parent, indices (next + 1) children⟩ :: layOutAll (some next) (next + 1) children

/-- The nodes of some trees laid out one after the other. -/
def layOutAll (parent : Option Nat) (next : Nat) : List (Tree Instance) → List Node
  | [] => []
  | t :: ts => layOut parent next t ++ layOutAll parent (next + t.size) ts

/-- The indices of the roots of trees laid out one after the other. -/
def indices (next : Nat) : List (Tree Instance) → List Nat
  | [] => []
  | t :: ts => next :: indices (next + t.size) ts

end

/-- The forest of some trees: a parent comes before what is below it, tree after tree. -/
def ofTrees (trees : List (Tree Instance)) : Forest :=
  ⟨(layOutAll none 0 trees).toArray, indices 0 trees⟩

/-- The trees below some instances, down to a depth. -/
def treesFrom : Nat → List Nat → List (Tree Instance)
  | 0, _ => []
  | fuel + 1, ids => ids.filterMap fun id =>
      (f.node? id).map fun n => .node n.body (treesFrom fuel n.children)

/-- The trees below the roots. -/
def toTrees : List (Tree Instance) := f.treesFrom f.nodes.size f.roots

/-- Same roots, same instances, same children in the same order; indices do not matter. -/
def same (g : Forest) : Bool := Tree.sameAll Instance.same f.toTrees g.toTrees

end Forest

end Deployment
