import Deployment.Block
import Deployment.SourceMap
import Deployment.TypeGraph

/-!
# Catalogues of declared types

Before any name is resolved, the declarations of all files are gathered in a catalogue: for
every name of a component, and for every name of a facet, the type that its first
declaration describes, and the places of all its declarations. A type may thus mention one
that a later file declares.

* `Component.ofBlocks`, `Facet.ofBlocks`: the type that a declaration describes.
* `Catalogue.ofBlocks`: the catalogue of some blocks.
* `Catalogue.collisions`, `Catalogue.repetitions`: what is declared both as a component and
  as a facet, and what is declared twice as the same; every declaration is reported.
* `Catalogue.graph`, `Catalogue.sourceMap`: the types as they stand, and where they were
  declared first.
-/

namespace Deployment

/-- The variables that the readable entries of a list value declare, by name. -/
def exportsOf (exports : Table String ExportedVariable) (value : String) :
    Table String ExportedVariable :=
  ((Text.entries value).filterMap ExportedVariable.parse).foldl
    (fun t v => t.insert v.name v) exports

/-- The imports that the readable entries of a list value declare, by name. -/
def importsOf (imports : Table String ImportedVariable) (value : String) :
    Table String ImportedVariable :=
  ((Text.entries value).filterMap ImportedVariable.parse).foldl
    (fun t v => t.insert v.name v) imports

namespace Component

/-- A component with one more property. Lists of names and variables grow; an installer or
    an extended component replaces the one before. -/
def addProperty (c : Component) : String × String → Component
  | ("installer", value) => { c with installer := some (Text.unquote value) }
  | ("extends", value) => { c with base := (Text.names value).head? }
  | ("facets", value) => { c with facets := c.facets.insertMany (Text.names value) }
  | ("children", value) => { c with children := c.children.insertMany (Text.names value) }
  | ("imports", value) => { c with imports := importsOf c.imports value }
  | ("exports", value) => { c with exports := exportsOf c.exports value }
  | _ => c

/-- The component that a declaration describes. -/
def ofBlocks (name : String) (inner : List Block) : Component :=
  (Block.properties inner).foldl addProperty (.named name)

end Component

namespace Facet

/-- A facet with one more property. -/
def addProperty (f : Facet) : String × String → Facet
  | ("extends", value) => { f with bases := f.bases.insertMany (Text.names value) }
  | ("children", value) => { f with children := f.children.insertMany (Text.names value) }
  | ("exports", value) => { f with exports := exportsOf f.exports value }
  | _ => f

/-- The facet that a declaration describes. -/
def ofBlocks (name : String) (inner : List Block) : Facet :=
  (Block.properties inner).foldl addProperty (.named name)

end Facet

/-- A type and the places of its declarations. -/
structure Declared (α : Type) where
  /-- The type that the first declaration describes. -/
  model : α
  /-- The place of the first declaration. -/
  site : Site
  /-- The places of the others. -/
  repeated : List Site

namespace Declared

/-- The places of all declarations. -/
def sites {α : Type} (d : Declared α) : List Site := d.site :: d.repeated

/-- The type changed. -/
def modify {α : Type} (f : α → α) (d : Declared α) : Declared α := { d with model := f d.model }

end Declared

/-- The declared types. -/
structure Catalogue where
  /-- The components, by name. -/
  components : Table String (Declared Component)
  /-- The facets, by name. -/
  facets : Table String (Declared Facet)

namespace Catalogue

/-- Nothing declared. -/
def empty : Catalogue := ⟨.empty, .empty⟩

/-- One more declaration of a name: the first one describes the type. -/
def declare {α : Type} (t : Table String (Declared α)) (name : String) (model : α)
    (site : Site) : Table String (Declared α) :=
  match t.get? name with
  | none => t.insert name ⟨model, site, []⟩
  | some d => t.insert name { d with repeated := d.repeated ++ [site] }

/-- The catalogue with one more block; only declarations of types matter. -/
def add (c : Catalogue) : Block → Catalogue
  | .declaration site .component name inner =>
    { c with components := declare c.components name (.ofBlocks name inner) site }
  | .declaration site .facet name inner =>
    { c with facets := declare c.facets name (.ofBlocks name inner) site }
  | _ => c

/-- The catalogue of some blocks. -/
def ofBlocks (blocks : List Block) : Catalogue := blocks.foldl add empty

/-- Whether a name is that of a component or a facet. -/
def hasType (c : Catalogue) (name : String) : Bool :=
  c.components.contains name || c.facets.contains name

/-! ### Names declared more than once -/

/-- The names declared both as a component and as a facet, at every declaration. -/
def collisions (c : Catalogue) : List Diagnostic :=
  c.components.entries.flatMap fun (name, component) =>
    match c.facets.get? name with
    | none => []
    | some facet => (component.sites ++ facet.sites).map fun site =>
        .found site .conflictingName [⟨.conflicting, name⟩]

/-- A name declared more than once, at every declaration. -/
def repetition {α : Type} (code : Code) (detail : Detail) (d : Declared α) : List Diagnostic :=
  if d.repeated = [] then [] else d.sites.map fun site => .found site code [detail]

/-- The components and the facets declared more than once. -/
def repetitions (c : Catalogue) : List Diagnostic :=
  (c.components.entries.flatMap fun (name, d) =>
    repetition .alreadyDefinedComponent ⟨.component, name⟩ d) ++
  (c.facets.entries.flatMap fun (name, d) =>
    repetition .alreadyDefinedFacet ⟨.facet, name⟩ d)

/-! ### What the catalogue describes -/

/-- The types as they stand, with the roots that follow from them. -/
def graph (c : Catalogue) : TypeGraph :=
  TypeGraph.withRoots
    { components := c.components.map fun _ d => d.model
      facets := c.facets.map fun _ d => d.model
      roots := .empty }

/-- Where the types were declared first. -/
def sourceMap (c : Catalogue) : SourceMap :=
  Table.empty.extend <|
    (c.components.entries.map fun (name, d) => (.component name, d.site)) ++
    (c.facets.entries.map fun (name, d) => (.facet name, d.site))

end Catalogue

end Deployment
