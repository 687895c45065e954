import Deployment.Table
import Deployment.Variable

/-!
# Type graphs

What can be deployed, and how its parts relate. A *component* is a type that instances are
made of; a *facet* is a bundle of exports and children that components share. Three
relations connect them, all by name:

* a component extends at most one component, a facet any number of facets;
* a component carries facets;
* a component or a facet has children, components and facets that may be placed below it.

A graph compiled without diagnostics mentions declared names only and has no loop in the
first and the third relation. Everything said about a graph is nevertheless defined for any
graph, with loops and unknown names.

* `TypeGraph.find?`: a type by name; a component hides a facet of the same name.
* `TypeGraph.same`: equality of graphs up to the order of tables and sets.
-/

namespace Deployment

/-- A type that instances are made of. -/
structure Component where
  /-- Its name. -/
  name : String
  /-- What installs it, if it says so itself. -/
  installer : Option String
  /-- The variables it exports, by name. -/
  exports : Table String ExportedVariable
  /-- The variables it imports, by name. -/
  imports : Table String ImportedVariable
  /-- The component it extends. -/
  base : Option String
  /-- The facets it carries. -/
  facets : NameSet
  /-- The types that may be placed below it. -/
  children : NameSet
deriving Inhabited

namespace Component

/-- The component with nothing but a name. -/
def named (name : String) : Component :=
  { name, installer := none, exports := .empty, imports := .empty, base := none,
    facets := .empty, children := .empty }

/-- Equality up to the order of tables and sets. -/
def same (c d : Component) : Bool :=
  c.name == d.name && c.installer == d.installer && c.exports.same (· == ·) d.exports &&
    c.imports.same (· == ·) d.imports && c.base == d.base && c.facets.same d.facets &&
    c.children.same d.children

end Component

/-- A bundle of exports and children that components share. -/
structure Facet where
  /-- Its name. -/
  name : String
  /-- The variables it exports, by name. -/
  exports : Table String ExportedVariable
  /-- The facets it extends. -/
  bases : NameSet
  /-- The types that may be placed below its carriers. -/
  children : NameSet
deriving Inhabited

namespace Facet

/-- The facet with nothing but a name. -/
def named (name : String) : Facet :=
  { name, exports := .empty, bases := .empty, children := .empty }

/-- Equality up to the order of tables and sets. -/
def same (f g : Facet) : Bool :=
  f.name == g.name && f.exports.same (· == ·) g.exports && f.bases.same g.bases &&
    f.children.same g.children

end Facet

/-- Components and facets with their relations. -/
structure TypeGraph where
  /-- The components, by name. -/
  components : Table String Component
  /-- The facets, by name. -/
  facets : Table String Facet
  /-- The names of the components that instances without parent are made of. -/
  roots : NameSet
deriving Inhabited

/-- A component or a facet. -/
inductive TypeEntry where
  | component (c : Component)
  | facet (f : Facet)

namespace TypeEntry

/-- The name of a type. -/
def name : TypeEntry → String
  | .component c => c.name
  | .facet f => f.name

/-- The variables that a type itself exports. -/
def exports : TypeEntry → Table String ExportedVariable
  | .component c => c.exports
  | .facet f => f.exports

/-- The children that a type itself declares. -/
def children : TypeEntry → NameSet
  | .component c => c.children
  | .facet f => f.children

end TypeEntry

namespace TypeGraph

/-- The graph without types. -/
def empty : TypeGraph := ⟨.empty, .empty, .empty⟩

/-- The component with a name. -/
def component? (g : TypeGraph) (name : String) : Option Component := g.components.get? name

/-- The facet with a name. -/
def facet? (g : TypeGraph) (name : String) : Option Facet := g.facets.get? name

/-- The type with a name; a component comes before a facet. -/
def find? (g : TypeGraph) (name : String) : Option TypeEntry :=
  ((g.component? name).map .component).or ((g.facet? name).map .facet)

/-- Whether the graph has no type. -/
def isEmpty (g : TypeGraph) : Bool := g.components.isEmpty && g.facets.isEmpty

/-- Every child that some type declares. -/
def declaredChildren (g : TypeGraph) : List String :=
  g.components.values.flatMap (·.children.toList) ++ g.facets.values.flatMap (·.children.toList)

/-- The components that no type declares as a child. -/
def computedRoots (g : TypeGraph) : NameSet :=
  .ofList (g.components.keys.filter fun name => !g.declaredChildren.contains name)

/-- The graph with its roots computed anew. -/
def withRoots (g : TypeGraph) : TypeGraph := { g with roots := g.computedRoots }

/-- The root components that are declared. -/
def rootComponents (g : TypeGraph) : List Component := g.roots.toList.filterMap g.component?

/-- Equality up to the order of tables and sets. -/
def same (g h : TypeGraph) : Bool :=
  g.components.same Component.same h.components && g.facets.same Facet.same h.facets &&
    g.roots.same h.roots

end TypeGraph

end Deployment
