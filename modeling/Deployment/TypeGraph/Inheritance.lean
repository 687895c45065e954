import Deployment.Reach
import Deployment.TypeGraph

/-!
# Inheritance

What a component has beyond what it declares itself: it inherits from the component that it
extends, and from its facets and the facets that those extend.

* `TypeGraph.ancestors`: the components that a component extends, nearest first.
* `TypeGraph.descendants`: the components that extend a component, directly or not.
* `TypeGraph.facetHierarchy`: a facet and the facets it extends, directly or not.
* `TypeGraph.allFacets`: the facets of a component and of its ancestors, with those that
  they extend.
* `TypeGraph.effectiveInstaller`, `TypeGraph.allExports`: the installer and the variables of
  a component, inherited ones included.

Loops are harmless: a walk along a relation stops where it meets a name again.
-/

namespace Deployment.TypeGraph

variable (g : TypeGraph)

/-- The component that a component extends, if it is declared. -/
def baseOf (c : Component) : Option Component := c.base.bind g.component?

/-- The chain of extended components above `c`, up to the first name in `seen`. -/
def chain : Nat → List String → Option Component → List Component
  | 0, _, _ => []
  | fuel + 1, seen, c =>
    match c.bind g.baseOf with
    | none => []
    | some base =>
      if base.name ∈ seen then [] else base :: chain fuel (base.name :: seen) (some base)

/-- The extended components, nearest first. A chain has no more components than the graph. -/
def ancestors (name : String) : List Component :=
  g.chain g.components.size [name] (g.component? name)

/-- The component and its ancestors, nearest first. -/
def lineage (name : String) : List Component :=
  match g.component? name with
  | none => []
  | some c => c :: g.ancestors name

/-- The components that extend a component, directly or not. -/
def descendants (name : String) : List Component :=
  g.components.values.filter fun c =>
    c.name != name && (g.ancestors c.name).any (·.name == name)

/-- The installer of a component, or of its nearest ancestor that has one. -/
def effectiveInstaller (name : String) : Option String :=
  (g.lineage name).findSome? (·.installer)

/-- The facets that a facet extends; none if it is not declared. -/
def basesOf (facet : String) : List String :=
  match g.facet? facet with
  | none => []
  | some f => f.bases.toList

/-- Enough visits for any walk along the extension of facets: one for the start and one for
    every extension declared. -/
def facetFuel : Nat := (g.facets.values.flatMap (·.bases.toList)).length + 1

/-- The facet and the facets it extends, directly or not, nearest first; only declared ones. -/
def facetHierarchy (facet : String) : List Facet :=
  (breadthFirst g.basesOf g.facetFuel [facet]).filterMap g.facet?

/-- The names of the facets of a component and of its ancestors, with those they extend. -/
def allFacets (name : String) : NameSet :=
  .ofList <| (g.lineage name).flatMap fun c =>
    c.facets.toList.flatMap fun f => (g.facetHierarchy f).map (·.name)

/-- The variables that a component exports, each with the type that declares it: those of the
    facets, then those of the ancestors, farthest first, then its own. -/
def allExports (name : String) : List (String × ExportedVariable) :=
  (((g.allFacets name).toList.filterMap g.facet?).flatMap fun f =>
    f.exports.values.map fun v => (f.name, v)) ++
  ((g.ancestors name).reverse.flatMap fun c => c.exports.values.map fun v => (c.name, v)) ++
  ((g.component? name).toList.flatMap fun c => c.exports.values.map fun v => (c.name, v))

/-- Whether a component exports a variable, named with its owner or without. -/
def exportsVariable (name key : String) : Bool :=
  (g.allExports name).any fun (owner, v) => v.designatedBy owner key

/-- Whether a component or a facet exports a variable. -/
def typeExports (owner key : String) : Bool :=
  match g.find? owner with
  | some (.component c) => g.exportsVariable c.name key
  | some (.facet f) => (g.facetHierarchy f.name).any fun f =>
      f.exports.values.any fun v => v.designatedBy f.name key || v.designatedBy owner key
  | none => false

end Deployment.TypeGraph
