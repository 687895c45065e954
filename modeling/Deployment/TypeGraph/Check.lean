import Deployment.SourceMap
import Deployment.TypeGraph.Placement

/-!
# Checks of a type graph

What makes a graph unfit for deployment although all its names are declared: a component
that nothing installs, a root that is not a machine, an import that no type exports, a facet
that nobody uses, a component that no instance can be made of.

* `TypeGraph.check`: everything found, component by component, then facet by facet, then
  the unreachable components.
-/

namespace Deployment.TypeGraph

variable (g : TypeGraph)

/-- The installer of root components: they are the machines that all else runs on. -/
def targetInstaller : String := "target"

/-- A component needs an installer, and a root the one of machines. -/
def checkInstaller (name : String) : List Finding :=
  match g.effectiveInstaller name with
  | none => [.about (.component name) .emptyComponentInstaller []]
  | some installer =>
    if g.roots.contains name ∧ installer ≠ targetInstaller then
      [.about (.component name) .rootInstallerMustBeTarget [⟨.value, installer⟩]]
    else []

/-- Whether a type exports what an import names; `*` asks for nothing in particular. -/
def resolves (owner key : String) : Bool :=
  (g.find? owner).isSome && (key == "*" || g.typeExports owner key)

/-- The code for an import that nothing exports. -/
def unresolvedCode (owner : String) : Code :=
  match g.find? owner with
  | some (.facet _) => .unresolvableFacetVariable
  | _ => .unresolvableVariable

/-- An import that the component cannot do without and that no other application serves
    must be exported by the type that it names. -/
def checkImport (name : String) (v : ImportedVariable) : List Finding :=
  if v.optional || v.external then []
  else match v.split with
    | none => []
    | some (owner, key) =>
      if g.resolves owner key then []
      else [.about (.component name) (g.unresolvedCode owner) [⟨.variable, v.name⟩]]

/-- What is wrong with a component. -/
def checkComponent (name : String) (c : Component) : List Finding :=
  g.checkInstaller name ++ c.imports.values.flatMap (g.checkImport name)

/-- Whether a component carries a facet, or a facet extends it. -/
def usesFacet (name : String) : Bool :=
  g.components.values.any (·.facets.contains name) || g.facets.values.any (·.bases.contains name)

/-- A facet should be used. -/
def checkFacet (name : String) (f : Facet) : List Finding :=
  if g.usesFacet name then []
  else [.about (.facet name)
    (if f.children.isEmpty then .orphanFacet else .orphanFacetWithChildren) []]

/-- What is wrong with a graph. -/
def check : List Finding :=
  (g.components.entries.flatMap fun (name, c) => g.checkComponent name c) ++
  (g.facets.entries.flatMap fun (name, f) => g.checkFacet name f) ++
  let reached := g.reachable
  (g.components.keys.filter fun name => !reached.contains name).map fun name =>
    .about (.component name) .unreachableComponent []

end Deployment.TypeGraph
