import Deployment.Descriptor
import Deployment.Diagnostic.Order
import Deployment.Forest.Check
import Deployment.GraphCompilation
import Deployment.InstanceCompilation
import Deployment.TypeGraph.Check

/-!
# Applications

A project as a whole: its descriptor, its types, its instances, and everything found wrong
with them. Loading goes as far as it can. Without a descriptor nothing else is looked at;
without types no instances are; unless the compilation is flexible, something severe keeps
what would build on it from being done. In a recipe instances are not expected, and what
makes no sense for a recipe is left out of the report.

* `Application.load`: the application of a project. Only a file that cannot be loaded makes
  it fail.
-/

namespace Deployment

/-- What is known about an application. -/
structure Application where
  /-- Its descriptor; none if it is missing or describes nothing. -/
  descriptor : Option Descriptor
  /-- Its types. -/
  graph : TypeGraph
  /-- Its instances. -/
  forest : Forest
  /-- The remarks on its types, by name. -/
  remarks : Table String String
  /-- Where its types and instances were declared. -/
  sourceMap : SourceMap
  /-- Everything found, in order and without repetitions. -/
  diagnostics : List Diagnostic

namespace Application

/-- An application about which only some diagnostics are known. -/
def unknown (diagnostics : List Diagnostic) : Application :=
  { descriptor := none, graph := .empty, forest := .empty, remarks := .empty,
    sourceMap := .empty, diagnostics }

/-- Whether something severe was found. -/
def isSevere (a : Application) : Bool := Diagnostic.anySevere a.diagnostics

/-- How the application is compiled. -/
def options (a : Application) : CompileOptions :=
  match a.descriptor with
  | none => .strict
  | some d => d.options

/-- The report of a finished application: for a recipe without what makes no sense there, in
    order and without repetitions. -/
def report (options : CompileOptions) (diagnostics : List Diagnostic) : List Diagnostic :=
  Diagnostic.sorted (if options.recipe then Diagnostic.forRecipe diagnostics else diagnostics)

/-- The application with a finished report. -/
def finish (options : CompileOptions) (a : Application) : Application :=
  { a with diagnostics := report options a.diagnostics }

/-- Whether the next step is taken. -/
def goesOn (options : CompileOptions) (a : Application) : Bool := options.flexible || !a.isSevere

/-- One more diagnostic. -/
def note (a : Application) (d : Diagnostic) : Application :=
  { a with diagnostics := a.diagnostics ++ [d] }

/-- The application with its types. -/
def addTypes (a : Application) (c : GraphCompilation) : Application :=
  { a with
    graph := c.graph
    remarks := c.remarks
    sourceMap := a.sourceMap.merge c.sourceMap
    diagnostics := a.diagnostics ++ c.diagnostics }

/-- The application with its instances. -/
def addInstances (a : Application) (c : InstanceCompilation) : Application :=
  { a with
    forest := c.forest
    sourceMap := a.sourceMap.merge c.sourceMap
    diagnostics := a.diagnostics ++ c.diagnostics }

/-- The application with its instances compiled from a file, if they can be. -/
def loadInstances (loader : Loader) (options : CompileOptions) (dir : Path) (a : Application)
    (file : Path) : Except LoadFailure Application :=
  let a := if options.recipe then a.note ⟨.unexpectedInstances, [.file file]⟩ else a
  if !loader.has file then .ok (a.note ⟨.missingInstanceEp, [.file file]⟩)
  else if goesOn options a then
    (InstanceCompilation.compile loader Block.check a.graph file dir).map a.addInstances
  else .ok a

/-- What the checks of the compiled models find, located. -/
def findings (a : Application) : List Diagnostic :=
  (a.graph.check ++ a.forest.check a.graph).map fun f => f.located a.sourceMap

/-- The application with what the checks of the compiled models find, if they are made. -/
def checkModels (options : CompileOptions) (a : Application) : Application :=
  if goesOn options a then { a with diagnostics := a.diagnostics ++ a.findings } else a

/-- The application that a descriptor describes. -/
def loadDescribed (loader : Loader) (project : Path) (d : Descriptor) :
    Except LoadFailure Application := do
  let a := { unknown [] with descriptor := some d }
  let file := d.graphFile project
  if !loader.has file then
    return (a.note ⟨.missingGraphEp, [.file file]⟩).finish d.options
  let types ← GraphCompilation.compile loader Block.check file
    (Descriptor.graphDirectory project) d.options.flexible
  let a := a.addTypes types
  let a ← match d.instanceFile project with
    | none => pure a
    | some file =>
      loadInstances loader d.options (Descriptor.instanceDirectory project) a file
  return (a.checkModels d.options).finish d.options

/-- The application of a project, given the bytes of its descriptor, if it has that file. -/
def load (loader : Loader) (project : Path) (descriptor : Option ByteArray) :
    Except LoadFailure Application :=
  let file := Descriptor.file project
  match descriptor with
  | none => .ok (unknown [⟨.noDescFile, [.file file]⟩])
  | some bytes =>
    match Descriptor.parseBytes bytes with
    | .error e => .ok (unknown [⟨.invalidDescFile, [.file file, ⟨.exception, e.message⟩]⟩])
    | .ok d => loadDescribed loader project d

end Application

end Deployment
