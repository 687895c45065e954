import Deployment.Catalogue
import Deployment.Relation

/-!
# Resolution of references

A catalogue says what types mention; resolution makes it hold together. A reference to a
name that is not declared is dropped, and of every cycle in what components extend, in what
facets extend, and in what types have as children, the edge that closes it.

* `Catalogue.references`: everything that the types mention, in order.
* `Catalogue.dangling`: the references to undeclared names.
* `Catalogue.withoutDangling`, `Catalogue.withoutCycles`: the two steps of resolution, each
  with what it reports.
* `Catalogue.resolve`: both.
-/

namespace Deployment

/-- The ways in which one type mentions another. -/
inductive Bond where
  /-- A component extends a component. -/
  | extendsComponent
  /-- A component carries a facet. -/
  | carries
  /-- A component has a child. -/
  | componentChild
  /-- A facet extends a facet. -/
  | extendsFacet
  /-- A facet has a child. -/
  | facetChild
deriving DecidableEq, Inhabited

/-- A mention of one type by another. -/
structure Reference where
  /-- The type that mentions. -/
  owner : String
  /-- How. -/
  bond : Bond
  /-- The name mentioned. -/
  target : String
  /-- Where the owner was declared. -/
  site : Site
deriving DecidableEq, Inhabited

namespace Reference

/-- The detail that names the owner. -/
def ownerDetail (r : Reference) : Detail :=
  match r.bond with
  | .extendsComponent | .carries | .componentChild => ⟨.component, r.owner⟩
  | .extendsFacet | .facetChild => ⟨.facet, r.owner⟩

/-- The code for a mention of an undeclared name. -/
def danglingCode (r : Reference) : Code :=
  match r.bond with
  | .extendsComponent => .inexistingComponent
  | .carries | .extendsFacet => .inexistingFacet
  | .componentChild | .facetChild => .inexistingChild

/-- What is reported if the name mentioned is not declared. -/
def report (r : Reference) : Diagnostic :=
  .found r.site r.danglingCode [r.ownerDetail, ⟨.unrecognized, r.target⟩]

end Reference

namespace Catalogue

/-- What a component mentions: what it extends, its facets, its children. -/
def componentReferences (name : String) (d : Declared Component) : List Reference :=
  (d.model.base.toList.map fun target => ⟨name, .extendsComponent, target, d.site⟩) ++
  (d.model.facets.toList.map fun target => ⟨name, .carries, target, d.site⟩) ++
  (d.model.children.toList.map fun target => ⟨name, .componentChild, target, d.site⟩)

/-- What a facet mentions: what it extends, its children. -/
def facetReferences (name : String) (d : Declared Facet) : List Reference :=
  (d.model.bases.toList.map fun target => ⟨name, .extendsFacet, target, d.site⟩) ++
  (d.model.children.toList.map fun target => ⟨name, .facetChild, target, d.site⟩)

/-- Everything that the types mention, component by component, then facet by facet. -/
def references (c : Catalogue) : List Reference :=
  (c.components.entries.flatMap fun (name, d) => componentReferences name d) ++
  (c.facets.entries.flatMap fun (name, d) => facetReferences name d)

/-- Whether the name that a reference mentions is declared as what it should be. -/
def isDeclared (c : Catalogue) (r : Reference) : Bool :=
  match r.bond with
  | .extendsComponent => c.components.contains r.target
  | .carries | .extendsFacet => c.facets.contains r.target
  | .componentChild | .facetChild => c.hasType r.target

/-- The references to undeclared names. -/
def dangling (c : Catalogue) : List Reference := c.references.filter fun r => !c.isDeclared r

/-- The catalogue with one component changed. -/
def modifyComponent (c : Catalogue) (name : String) (f : Component → Component) : Catalogue :=
  { c with components := c.components.modify name (Declared.modify f) }

/-- The catalogue with one facet changed. -/
def modifyFacet (c : Catalogue) (name : String) (f : Facet → Facet) : Catalogue :=
  { c with facets := c.facets.modify name (Declared.modify f) }

/-- The catalogue in which `owner` does not mention `target` in the given way. -/
def drop (c : Catalogue) (owner : String) (bond : Bond) (target : String) : Catalogue :=
  match bond with
  | .extendsComponent => c.modifyComponent owner fun m =>
      if m.base = some target then { m with base := none } else m
  | .carries => c.modifyComponent owner fun m => { m with facets := m.facets.erase target }
  | .componentChild =>
    c.modifyComponent owner fun m => { m with children := m.children.erase target }
  | .extendsFacet => c.modifyFacet owner fun m => { m with bases := m.bases.erase target }
  | .facetChild => c.modifyFacet owner fun m => { m with children := m.children.erase target }

/-- The catalogue without references to undeclared names, and a report for each of them. -/
def withoutDangling (c : Catalogue) : Catalogue × List Diagnostic :=
  (c.dangling.foldl (fun c r => c.drop r.owner r.bond r.target) c,
    c.dangling.map Reference.report)

/-! ### Cycles -/

/-- What components extend. -/
def componentInheritance (c : Catalogue) : Relation :=
  c.components.map fun _ d => d.model.base.toList

/-- What facets extend. -/
def facetInheritance (c : Catalogue) : Relation :=
  c.facets.map fun _ d => d.model.bases.toList

/-- What types have as children. Under a name declared both as a component and as a facet
    stand the children of both. -/
def containment (c : Catalogue) : Relation :=
  c.facets.entries.foldl
    (fun r (name, d) => r.insert name (r.targets name ++ d.model.children.toList))
    (c.components.map fun _ d => d.model.children.toList)

/-- A cycle among components, or among components and facets, at the type it starts from. -/
def reportCycle (c : Catalogue) (code : Code) (cycle : Cycle) : List Diagnostic :=
  match c.components.get? cycle.start, c.facets.get? cycle.start with
  | some d, _ => [.found d.site code [⟨.component, cycle.start⟩, .cycle cycle.names]]
  | none, some d => [.found d.site code [⟨.facet, cycle.start⟩, .cycle cycle.names]]
  | none, none => []

/-- A cycle among facets, at the facet it starts from. -/
def reportFacetCycle (c : Catalogue) (cycle : Cycle) : List Diagnostic :=
  match c.facets.get? cycle.start with
  | some d => [.found d.site .cycleInFacetsInheritance
      [⟨.facet, cycle.start⟩, .cycle cycle.names]]
  | none => []

/-- The catalogue without the last edges of some cycles, in every given way. -/
def dropClosing (c : Catalogue) (bonds : List Bond) (cycles : List Cycle) : Catalogue :=
  cycles.foldl (fun c cycle => bonds.foldl (fun c bond => c.drop cycle.last bond cycle.start) c)
    c

/-- The catalogue without the edges that close cycles, and a report for each of them. -/
def withoutCycles (c : Catalogue) : Catalogue × List Diagnostic :=
  let components := c.componentInheritance.breakCycles.2
  let facets := c.facetInheritance.breakCycles.2
  let children := c.containment.breakCycles.2
  (((c.dropClosing [.extendsComponent] components).dropClosing [.extendsFacet] facets).dropClosing
      [.componentChild, .facetChild] children,
    components.flatMap (c.reportCycle .cycleInComponentsInheritance) ++
      facets.flatMap c.reportFacetCycle ++
      children.flatMap (c.reportCycle .cycleInChildren))

/-- The catalogue that holds together, and what was found. -/
def resolve (c : Catalogue) : Catalogue × List Diagnostic :=
  let (closed, dangling) := c.withoutDangling
  let (acyclic, cycles) := closed.withoutCycles
  (acyclic, dangling ++ cycles)

end Catalogue

end Deployment
