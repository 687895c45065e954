import Deployment.Block.Render
import Deployment.Forest
import Deployment.TypeGraph

/-!
# Models as files

A compiled model written back as the blocks of one file, from which it compiles again. Every
property that a compilation reads is written under the same name; properties with nothing to
say are left out.

Blocks are placed while they are written: a writer counts the lines, a property, a comment and
a blank take one line each, and a declaration takes one before and one after what is inside.

* `WriteOptions`: what is written beyond the structure of a model.
* `BlockWriter`: the file that is written, and its next line.
* `TypeGraph.toFile`: a graph, the components before the facets.
* `Forest.toFile`: a forest, tree by tree.
-/

namespace Deployment

/-- What is written beyond the structure of a model. -/
structure WriteOptions where
  /-- A generated comment above every declaration without remark. -/
  comments : Bool
  /-- Remarks, written as comments above what they are on, by name. -/
  remarks : Table String String
  /-- The statuses of instances. -/
  state : Bool
  /-- The data of instances. -/
  data : Bool
  /-- The values that instances give to exported variables. -/
  overrides : Bool
deriving Inhabited

namespace WriteOptions

/-- The structure only. -/
def plain : WriteOptions :=
  { comments := false, remarks := .empty, state := false, data := false, overrides := false }

/-- Everything that an instance holds. -/
def full : WriteOptions := { plain with state := true, data := true, overrides := true }

end WriteOptions

/-- The file that is written. -/
structure BlockWriter where
  /-- Its name. -/
  file : Path
  /-- The line that the next block begins on. -/
  next : Nat

/-- What writes some blocks. -/
abbrev Writing := StateM BlockWriter (List Block)

namespace BlockWriter

/-! ### Lines -/

/-- The next line; the one after it is next then. -/
def takeLine : StateM BlockWriter Nat :=
  modifyGet fun w => (w.next, { w with next := w.next + 1 })

/-- A line of the file as a place. -/
def place (line : Nat) : StateM BlockWriter Site := do
  return ⟨(← get).file, line⟩

/-- A block of one line. -/
def oneLine (block : Site → Block) : Writing := do
  let line ← takeLine
  return [block (← place line)]

/-- A declaration: the line that opens it, what is inside, and the line that closes it. -/
def declaration (kind : DeclarationKind) (name : String) (inside : Writing) : Writing := do
  let line ← takeLine
  let inner ← inside
  let _ ← takeLine
  return [.declaration (← place line) kind name inner]

/-- Some parts, one after the other. -/
def inOrder : List Writing → Writing
  | [] => return []
  | part :: parts => return (← part) ++ (← inOrder parts)

/-! ### Properties and comments -/

/-- A property. -/
def property (name value : String) : Writing := oneLine fun site => .property site name value

/-- A property with a list of entries, if there are any. -/
def listProperty (name : String) (entries : List String) : Writing :=
  if entries = [] then return [] else property name (Text.join ", " entries)

/-- A property, if there is a value. -/
def optionalProperty (name : String) : Option String → Writing
  | none => return []
  | some value => property name value

/-- A comment. -/
def comment (text : String) : Writing := oneLine fun site => .comment site ("# " ++ text)

/-- A blank line. -/
def blank : Writing := oneLine fun site => .blank site ""

/-- The comments above a declaration: its remark, line by line, or else, if asked for, what
    it declares. -/
def heading (options : WriteOptions) (what name : String) : Writing :=
  match options.remarks.get? name with
  | some remark => inOrder ((Text.lines remark).map comment)
  | none => if options.comments then comment (what ++ " " ++ name) else return []

/-- A declaration under its comments, with a blank line after it. -/
def paragraph (options : WriteOptions) (what name : String) (declaration : Writing) : Writing :=
  inOrder [heading options what name, declaration, blank]

/-! ### Declarations -/

/-- The declaration of a component. -/
def component (c : Component) : Writing :=
  declaration .component c.name <| inOrder
    [optionalProperty "installer" c.installer,
      optionalProperty "extends" c.base,
      listProperty "facets" c.facets.toList,
      listProperty "imports" (c.imports.values.map ImportedVariable.text),
      listProperty "exports" (c.exports.values.map ExportedVariable.text),
      listProperty "children" c.children.toList]

/-- The declaration of a facet. -/
def facet (f : Facet) : Writing :=
  declaration .facet f.name <| inOrder
    [listProperty "extends" f.bases.toList,
      listProperty "exports" (f.exports.values.map ExportedVariable.text),
      listProperty "children" f.children.toList]

/-- The properties of an instance. -/
def instanceProperties (options : WriteOptions) (i : Instance) : Writing :=
  inOrder
    [property "name" i.name,
      listProperty "channels" i.channels.toList,
      if options.state && i.status != .notDeployed then property "state" i.status.name
      else return [],
      if options.data then
        inOrder (i.data.entries.map fun (key, value) =>
          property ("data." ++ key) (Text.quoted value))
      else return [],
      if options.overrides then
        inOrder (i.overrides.entries.map fun (key, value) => property key (Text.quoted value))
      else return []]

mutual

/-- The declaration of an instance, with those of the instances below it. -/
def tree (options : WriteOptions) : Tree Instance → Writing
  | .node i children => declaration .instanceOf i.component <|
      inOrder [instanceProperties options i, trees options children]

/-- The declarations of some instances. -/
def trees (options : WriteOptions) : List (Tree Instance) → Writing
  | [] => return []
  | t :: ts => return (← tree options t) ++ (← trees options ts)

end

/-- The file that is written from its first line on. -/
def fileOf (path : Path) (blocks : Writing) : FileDefinition :=
  .ofBlocks path (blocks.run ⟨path, 1⟩).run.1

end BlockWriter

open BlockWriter in
/-- The graph as a file. -/
def TypeGraph.toFile (g : TypeGraph) (path : Path) (options : WriteOptions) : FileDefinition :=
  fileOf path <| inOrder
    [inOrder (g.components.values.map fun c => paragraph options "component" c.name (component c)),
      inOrder (g.facets.values.map fun f => paragraph options "facet" f.name (facet f))]

open BlockWriter in
/-- The forest as a file. -/
def Forest.toFile (f : Forest) (path : Path) (options : WriteOptions) : FileDefinition :=
  fileOf path <| inOrder <|
    f.toTrees.map fun t => paragraph options "instance" t.value.name (tree options t)

end Deployment
