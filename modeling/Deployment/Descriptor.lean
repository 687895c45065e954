import Deployment.Options
import Deployment.Path
import Deployment.Yaml.Read
import Deployment.Yaml.Write

/-!
# Application descriptors

Every project has a descriptor, a YAML file with the name of the application, where its
types and its instances start, and how it is compiled:

    name: Legacy LAMP
    qualifier: sample
    graphEntryPoint: main.graph
    instanceEntryPoint: model.instances
    options:
      flexible: false

* `Descriptor.parse`: the descriptor that a text describes, or why there is none.
* `Descriptor.yaml`: the text of a descriptor.
* `Descriptor.graphFile`, `Descriptor.instanceFile`: the entry points within a project.
-/

namespace Deployment

/-- What is known about an application before it is compiled. -/
structure Descriptor where
  /-- Its name. -/
  name : String
  /-- Which variant of it this is. -/
  qualifier : Option String
  /-- What it is for. -/
  description : Option String
  /-- The language that its files are written in. -/
  language : Option String
  /-- The file with its types. -/
  graphEntryPoint : String
  /-- The file with its instances, if it has any. -/
  instanceEntryPoint : Option String
  /-- How it is compiled. -/
  options : CompileOptions
deriving DecidableEq, Inhabited

/-- Why a text describes no application. -/
inductive DescriptorError where
  /-- The text is no YAML, or of another form. -/
  | malformed
  /-- A required text is blank. -/
  | missingField (field : String)
  /-- The files are written in another language. -/
  | otherLanguage (language : String)
  /-- The text has no characters, only bytes. -/
  | notText
deriving DecidableEq, Inhabited

namespace DescriptorError

/-- The error in words. What exactly is malformed is not told. -/
def message : DescriptorError → String
  | .malformed => "failed to parse descriptor YAML"
  | .missingField field => "missing required field: " ++ field
  | .otherLanguage language =>
    "invalid dslId: expected 'roboconf-1.0', got '" ++ language ++ "'"
  | .notText => "failed to read descriptor: stream did not contain valid UTF-8"

end DescriptorError

namespace Descriptor

/-- The language that files are written in. -/
def languageId : String := "roboconf-1.0"

/-- The file with types, unless the descriptor names another. -/
def defaultGraphEntryPoint : String := "main.graph"

/-- A truth value that is no, unless it is given. -/
def readFlag (fields : List (String × Yaml)) (key : String) : Option Bool := do
  match ← Yaml.field? fields key with
  | some value => value.bool?
  | none => some false

/-- A text that may be absent. -/
def readOptional (fields : List (String × Yaml)) (key : String) : Option (Option String) := do
  match ← Yaml.field? fields key with
  | some value => value.optionalText?
  | none => some none

/-- The options; where nothing is written, all have their defaults. -/
def readOptions (graph : Yaml.Graph) (fields : List (String × Yaml)) : Option CompileOptions := do
  match ← Yaml.field? fields "options" with
  | some value => do
    let fields ← graph.fields? value
    return { flexible := ← readFlag fields "flexible", recipe := ← readFlag fields "recipe" }
  | none => some .strict

/-- The descriptor that YAML values describe, whatever its texts are. Keys of other names
    are passed over. -/
def ofYaml (graph : Yaml.Graph) : Option Descriptor := do
  let fields ← graph.fields? graph.root
  let name ← (← Yaml.field? fields "name").bind Yaml.text?
  let graphEntryPoint ← match ← Yaml.field? fields "graphEntryPoint" with
    | some value => value.text?
    | none => some defaultGraphEntryPoint
  return {
    name
    qualifier := ← readOptional fields "qualifier"
    description := ← readOptional fields "description"
    language := ← readOptional fields "dslId"
    graphEntryPoint
    instanceEntryPoint := ← readOptional fields "instanceEntryPoint"
    options := ← readOptions graph fields }

/-- The descriptor itself, if its required texts are there and its language is the one that
    is understood. -/
def validate (d : Descriptor) : Except DescriptorError Descriptor :=
  if Text.isBlank d.name then .error (.missingField "name")
  else if Text.isBlank d.graphEntryPoint then .error (.missingField "graphEntryPoint")
  else match d.language with
    | none => .ok d
    | some language =>
      if language = languageId then .ok d else .error (.otherLanguage language)

/-- The descriptor that a text describes. -/
def parse (text : String) : Except DescriptorError Descriptor :=
  match (Yaml.parse text).bind ofYaml with
  | none => .error .malformed
  | some d => d.validate

/-- The descriptor that the bytes of a file describe. -/
def parseBytes (bytes : ByteArray) : Except DescriptorError Descriptor :=
  match String.fromUTF8? bytes with
  | none => .error .notText
  | some text => parse text

/-- A key with a text that may be absent. -/
def optionalLine (key : String) (value : Option String) : String :=
  key ++ ": " ++ match value with
    | some text => Yaml.scalarText text
    | none => "null\n"

/-- A key with a truth value. -/
def flagLine (key : String) (value : Bool) : String :=
  "  " ++ key ++ ": " ++ (if value then "true" else "false") ++ "\n"

/-- The text of a descriptor. -/
def yaml (d : Descriptor) : String :=
  optionalLine "name" (some d.name) ++
  optionalLine "qualifier" d.qualifier ++
  optionalLine "description" d.description ++
  optionalLine "dslId" d.language ++
  optionalLine "graphEntryPoint" (some d.graphEntryPoint) ++
  optionalLine "instanceEntryPoint" d.instanceEntryPoint ++
  "options:\n" ++
  flagLine "flexible" d.options.flexible ++
  flagLine "recipe" d.options.recipe

/-! ### Files of a project -/

/-- Where the descriptor stands in a project. -/
def file (project : Path) : Path := project.join ⟨"descriptor/application.yaml"⟩

/-- The directory with the types of a project. -/
def graphDirectory (project : Path) : Path := project.join ⟨"graph"⟩

/-- The directory with the instances of a project. -/
def instanceDirectory (project : Path) : Path := project.join ⟨"instances"⟩

/-- The file with the types. -/
def graphFile (d : Descriptor) (project : Path) : Path :=
  (graphDirectory project).join ⟨d.graphEntryPoint⟩

/-- The file with the instances. -/
def instanceFile (d : Descriptor) (project : Path) : Option Path :=
  d.instanceEntryPoint.map fun entry => (instanceDirectory project).join ⟨entry⟩

end Descriptor

end Deployment
