import Deployment.Document
import Deployment.Forest
import Deployment.Options
import Deployment.SourceMap
import Deployment.TypeGraph
import Deployment.Write

/-!
# Models as documents

The document forms of diagnostics, blocks, files, type graphs, forests and options, as
instances of `Documented`. Nothing is checked beyond the form: names need not be declared,
and indices need not designate an instance.
-/

namespace Deployment

open Documented

instance : Documented Path where
  encode p := encode p.text
  decode d := (decode d).map Path.mk

instance : Documented Site where
  encode s := .object [("file", encode s.file), ("line", encode s.line)]
  decode d := do
    let [file, line] ← d.parts false ["file", "line"] | none
    return { file := ← part file, line := ← part line }

/-! ### Diagnostics -/

instance : Documented Code where
  encode c := .text c.key
  decode d := d.plainChoice.bind Code.ofKey?

instance : Documented DetailKind where
  encode k := .text k.key
  decode d := d.plainChoice.bind fun key => DetailKind.all.find? (·.key = key)

instance : Documented Detail where
  encode x := .object [("kind", encode x.kind), ("text", encode x.text)]
  decode d := do
    let [kind, text] ← d.parts false ["kind", "text"] | none
    return { kind := ← part kind, text := ← part text }

instance : Documented Diagnostic where
  encode x := .object [("code", encode x.code), ("details", encode x.details)]
  decode d := do
    let [code, details] ← d.parts false ["code", "details"] | none
    return { code := ← part code, details := ← part details }

instance : Documented Subject where
  encode
    | .component name => .object [("Component", encode name)]
    | .facet name => .object [("Facet", encode name)]
    | .instanceAt path => .object [("Instance", encode path)]
  decode d :=
    match d.choice with
    | some ("Component", some content) => (decode content).map .component
    | some ("Facet", some content) => (decode content).map .facet
    | some ("Instance", some content) => (decode content).map .instanceAt
    | _ => none

instance : Documented Finding where
  encode f := .object [("error", encode f.diagnostic), ("subject", encode f.subject)]
  decode d := do
    let [diagnostic, subject] ← d.parts false ["error", "subject"] | none
    return { diagnostic := ← part diagnostic, subject := ← part subject }

/-! ### Blocks and files -/

/-- A place and what stands there. -/
def Document.placed (site : Site) (kind : String) (content : Document) : Document :=
  .object [("location", encode site), ("kind", .object [(kind, content)])]

/-- The name under which a kind of declaration is kept. -/
def DeclarationKind.key : DeclarationKind → String
  | .component => "Component"
  | .facet => "Facet"
  | .instanceOf => "InstanceOf"

mutual

/-- The document of a block. -/
def Block.encode : Block → Document
  | .declaration site kind name inner =>
    .placed site kind.key (.object [("name", .text name), ("inner", .list (encodeAll inner))])
  | .importOf site uri => .placed site "Import" (.object [("uri", .text uri)])
  | .property site name value =>
    .placed site "Property" (.object [("name", .text name), ("value", .text value)])
  | .comment site text => .placed site "Comment" (.text text)
  | .blank site text => .placed site "Blank" (.text text)

/-- The documents of some blocks. -/
def Block.encodeAll : List Block → List Document
  | [] => []
  | b :: bs => b.encode :: encodeAll bs

end

/-- The name and the documents of the inner blocks of a declaration. -/
def Block.decodeRegion (content : Document) : Option (String × List Document) := do
  let [name, inner] ← content.parts false ["name", "inner"] | none
  let .list inner ← inner | none
  return (← part name, inner)

/-- The block of a document, nested at most as deeply as `fuel` says. -/
def Block.decode : Nat → Document → Option Block
  | 0, _ => none
  | fuel + 1, d => do
    let [site, kind] ← d.parts false ["location", "kind"] | none
    let site ← part site
    match ← kind.bind Document.choice with
    | ("Component", some content) => do
      let (name, inner) ← decodeRegion content
      return .declaration site .component name (← inner.mapM (Block.decode fuel))
    | ("Facet", some content) => do
      let (name, inner) ← decodeRegion content
      return .declaration site .facet name (← inner.mapM (Block.decode fuel))
    | ("InstanceOf", some content) => do
      let (name, inner) ← decodeRegion content
      return .declaration site .instanceOf name (← inner.mapM (Block.decode fuel))
    | ("Import", some content) => do
      let [uri] ← content.namedParts ["uri"] | none
      return .importOf site (← part uri)
    | ("Property", some content) => do
      let [name, value] ← content.namedParts ["name", "value"] | none
      return .property site (← part name) (← part value)
    | ("Comment", some content) => return .comment site (← Documented.decode content)
    | ("Blank", some content) => return .blank site (← Documented.decode content)
    | _ => none

instance : Documented Block where
  encode := Block.encode
  decode d := Block.decode d.depth d

instance : Documented FileKind where
  encode k := .text k.key
  decode d := d.plainChoice.bind fun key => FileKind.all.find? (·.key = key)

instance : Documented FileDefinition where
  encode f := .object
    [("file", encode f.file), ("kind", encode f.kind), ("blocks", encode f.blocks),
      ("errors", encode f.diagnostics)]
  decode d := do
    let [file, kind, blocks, diagnostics] ← d.parts false ["file", "kind", "blocks", "errors"]
      | none
    return { file := ← part file, kind := ← part kind, blocks := ← part blocks
             diagnostics := ← part diagnostics }

/-! ### Type graphs -/

instance : Documented RandomKind where
  encode
    | .port => .text "Port"
  decode d :=
    match d.plainChoice with
    | some "Port" => some .port
    | _ => none

instance : Documented ExportedVariable where
  encode v := .object
    [("name", encode v.name), ("value", encode v.value), ("random", encode v.random)]
  decode d := do
    let [name, value, random] ← d.parts false ["name", "value", "random"] | none
    return { name := ← part name, value := ← part value, random := ← part random }

instance : Documented ImportedVariable where
  encode v := .object
    [("name", encode v.name), ("optional", encode v.optional), ("external", encode v.external)]
  decode d := do
    let [name, optional, external] ← d.parts false ["name", "optional", "external"] | none
    return { name := ← part name, optional := ← part optional, external := ← part external }

instance : Documented Component where
  encode c := .object
    [("name", encode c.name), ("installer_name", encode c.installer),
      ("exported_variables", encode c.exports), ("imported_variables", encode c.imports),
      ("extended_component", encode c.base), ("facets", encode c.facets),
      ("children", encode c.children)]
  decode d := do
    let [name, installer, exports, imports, base, facets, children] ← d.parts false
      ["name", "installer_name", "exported_variables", "imported_variables",
        "extended_component", "facets", "children"] | none
    return { name := ← part name, installer := ← part installer, exports := ← part exports
             imports := ← part imports, base := ← part base, facets := ← part facets
             children := ← part children }

instance : Documented Facet where
  encode f := .object
    [("name", encode f.name), ("exported_variables", encode f.exports),
      ("extended_facets", encode f.bases), ("children", encode f.children)]
  decode d := do
    let [name, exports, bases, children] ← d.parts false
      ["name", "exported_variables", "extended_facets", "children"] | none
    return { name := ← part name, exports := ← part exports, bases := ← part bases
             children := ← part children }

instance : Documented TypeGraph where
  encode g := .object
    [("components", encode g.components), ("facets", encode g.facets),
      ("root_components", encode g.roots)]
  decode d := do
    let [components, facets, roots] ← d.parts false ["components", "facets", "root_components"]
      | none
    return { components := ← part components, facets := ← part facets, roots := ← part roots }

/-! ### Forests -/

instance : Documented Status where
  encode s := .text s.key
  decode d := d.plainChoice.bind fun key => Status.all.find? (·.key = key)

instance : Documented Node where
  encode n := .object
    [("name", encode n.body.name), ("component", encode n.body.component),
      ("parent", encode n.parent), ("children", encode n.children),
      ("status", encode n.body.status), ("channels", encode n.body.channels),
      ("overridden_exports", encode n.body.overrides), ("data", encode n.body.data)]
  decode d := do
    let [name, component, parent, children, status, channels, overrides, data] ← d.parts false
      ["name", "component", "parent", "children", "status", "channels", "overridden_exports",
        "data"] | none
    let body : Instance :=
      { name := ← part name, component := ← part component, status := ← part status
        channels := ← part channels, overrides := ← part overrides, data := ← part data }
    return { body, parent := ← part parent, children := ← part children }

instance : Documented Forest where
  encode f := .object [("nodes", encode f.nodes.toList), ("roots", encode f.roots)]
  decode d := do
    let [nodes, roots] ← d.parts false ["nodes", "roots"] | none
    let nodes : List Node ← part nodes
    return { nodes := nodes.toArray, roots := ← part roots }

/-! ### Options -/

instance : Documented CompileOptions where
  encode o := .object [("flexible", encode o.flexible), ("recipe", encode o.recipe)]
  decode d := do
    let [flexible, recipe] ← d.parts true ["flexible", "recipe"] | none
    return { flexible := ← partOr false flexible, recipe := ← partOr false recipe }

instance : Documented WriteOptions where
  encode o := .object
    [("comments", encode o.comments), ("annotations", encode o.remarks),
      ("state", encode o.state), ("data", encode o.data),
      ("overridden_exports", encode o.overrides)]
  decode d := do
    let [comments, remarks, state, data, overrides] ← d.parts true
      ["comments", "annotations", "state", "data", "overridden_exports"] | none
    return { comments := ← partOr false comments, remarks := ← partOr .empty remarks
             state := ← partOr false state, data := ← partOr false data
             overrides := ← partOr false overrides }

end Deployment
