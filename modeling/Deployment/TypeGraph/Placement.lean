import Deployment.TypeGraph.Inheritance

/-!
# Placement

Which components an instance may have below it.

* `TypeGraph.effectiveChildren`: the components that may be placed below a component. It
  inherits the children that its ancestors and all its facets declare. A component as a
  child stands for itself and its descendants, a facet for every component that carries it.
* `TypeGraph.reachable`: the components that can occur in a deployment at all, reached from
  the roots through effective children.
-/

namespace Deployment.TypeGraph

variable (g : TypeGraph)

/-- The children that a component declares or inherits. -/
def inheritedChildren (name : String) : NameSet :=
  .ofList <| ((g.lineage name).flatMap fun c => c.children.toList) ++
    ((g.allFacets name).toList.filterMap g.facet?).flatMap fun f => f.children.toList

/-- The components that a name admits as a child. -/
def admitted (child : String) : List String :=
  match g.find? child with
  | some (.component c) => c.name :: (g.descendants c.name).map (·.name)
  | some (.facet f) => g.components.keys.filter fun name => (g.allFacets name).contains f.name
  | none => []

/-- The components that may be placed below a component. -/
def effectiveChildren (name : String) : NameSet :=
  .ofList ((g.inheritedChildren name).toList.flatMap g.admitted)

/-- Enough visits for any walk along effective children: one for each root, and for every
    component one for each component that may be placed below it. -/
def placementFuel : Nat := g.roots.size + g.components.size * g.components.size

/-- The roots and what can be reached from them through effective children. -/
def reachable : List String :=
  breadthFirst (fun name => (g.effectiveChildren name).toList) g.placementFuel g.roots.toList

end Deployment.TypeGraph
