import Deployment.Block
import Deployment.Status
import Deployment.Variable

/-!
# Checks of single blocks

Before any names are compared across files, every block is checked by itself: the name it
declares, the properties it has, and what their values look like. Whether a name that a
value mentions exists is not asked here.

* `Block.check`: the diagnostics of a top-level block, those of its inner blocks included.
* `BlockCheck`: what a compilation may use in its place; `BlockCheck.none` accepts
  everything.
-/

namespace Deployment

/-- The properties that a component may have. -/
def componentProperties : List String :=
  ["installer", "extends", "facets", "imports", "exports", "children"]

/-- The properties that a facet may have. -/
def facetProperties : List String := ["extends", "exports", "children"]

namespace Block

/-- A declared type name must be there and be valid. -/
def checkTypeName (site : Site) (name : String) : List Diagnostic :=
  if Text.isBlank name then [.found site .emptyTypeName []]
  else if isTypeName name then []
  else [.found site .invalidTypeName [⟨.name, name⟩]]

/-- A property must have a value and must not repeat one of the names in `seen`. -/
def checkShape (seen : List String) : List Block → List Diagnostic
  | [] => []
  | .property site name value :: rest =>
    (if Text.unquote value = "" then [.found site .emptyPropertyValue [⟨.name, name⟩]] else []) ++
    (if name ∈ seen then [.found site .duplicateProperty [⟨.name, name⟩]] else []) ++
    checkShape (name :: seen) rest
  | _ :: rest => checkShape seen rest

/-- The entries of a list value must be readable. -/
def checkEntries (site : Site) (name value : String) : List Diagnostic :=
  if name = "exports" then
    ((Text.entries value).filter fun e => (ExportedVariable.parse e).isNone).map fun e =>
      .found site .invalidExportedVariable [⟨.malformed, e⟩]
  else if name = "imports" then
    ((Text.entries value).filter fun e => (ImportedVariable.parse e).isNone).map fun e =>
      .found site .invalidImportedVariable [⟨.malformed, e⟩]
  else if name = "extends" ∨ name = "facets" ∨ name = "children" then
    ((Text.names value).filter fun n => !isTypeName n).map fun n =>
      .found site .invalidTypeName [⟨.name, n⟩]
  else []

/-- A property of a type must be known, have readable entries and, if it is what a component
    extends, name one component only. -/
def checkTypeProperty (kind : DeclarationKind) (owner : String) (allowed : List String)
    (site : Site) (name value : String) : List Diagnostic :=
  if name ∈ allowed then
    checkEntries site name value ++
    (if name = "extends" ∧ kind = .component ∧ 1 < (Text.entries value).length then
      [.found site .extendsMultipleComponents [⟨.component, owner⟩, ⟨.value, value⟩]]
    else [])
  else [.found site .unknownPropertyName [⟨.name, name⟩]]

/-- The declaration of a type has properties, comments and blanks only. -/
def checkType (site : Site) (kind : DeclarationKind) (allowed : List String) (name : String)
    (inner : List Block) : List Diagnostic :=
  checkTypeName site name ++ checkShape [] inner ++ inner.flatMap fun
    | .property site key value => checkTypeProperty kind name allowed site key value
    | .comment .. => []
    | .blank .. => []
    | b => [.found b.site .unrecognizedBlock []]

/-- An instance must have a valid name. -/
def checkInstanceName (site : Site) (inner : List Block) : List Diagnostic :=
  match (lookup inner "name").map Text.unquote with
  | none => [.found site .missingInstanceName []]
  | some name =>
    if name = "" then [.found site .missingInstanceName []]
    else if isInstanceName name then []
    else [.found site .invalidInstanceName [⟨.name, name⟩]]

/-- A number of copies must be readable, and so must a status. -/
def checkInstanceProperty (site : Site) (name value : String) : List Diagnostic :=
  if name = "count" then
    if (parseCount value).isSome then []
    else [.found site .invalidInstanceCount [⟨.value, Text.unquote value⟩]]
  else if name = "state" then
    if (Status.parse (Text.unquote value)).isSome then []
    else [.found site .unknownInstanceState [⟨.value, Text.unquote value⟩]]
  else []

/-- What is wrong with an instance itself: the name of its component, the shape of its
    properties, and its own name. -/
def checkInstanceItself (site : Site) (component : String) (inner : List Block) :
    List Diagnostic :=
  checkTypeName site component ++ checkShape [] inner ++ checkInstanceName site inner

mutual

/-- The diagnostics of an inner block of an instance, those of an instance below it
    included. -/
def checkInner : Block → List Diagnostic
  | .property site name value => checkInstanceProperty site name value
  | .declaration site .instanceOf component inner =>
    checkInstanceItself site component inner ++ checkInners inner
  | .declaration site .component _ _ => [.found site .unrecognizedBlock []]
  | .declaration site .facet _ _ => [.found site .unrecognizedBlock []]
  | .importOf site _ => [.found site .unrecognizedBlock []]
  | .comment .. => []
  | .blank .. => []

/-- The diagnostics of the inner blocks of an instance. -/
def checkInners : List Block → List Diagnostic
  | [] => []
  | b :: bs => checkInner b ++ checkInners bs

end

/-- The diagnostics of an instance and of the instances below it. -/
def checkInstance (site : Site) (component : String) (inner : List Block) : List Diagnostic :=
  checkInstanceItself site component inner ++ checkInners inner

/-- The diagnostics of a top-level block. -/
def check : Block → List Diagnostic
  | .declaration site .component name inner =>
    checkType site .component componentProperties name inner
  | .declaration site .facet name inner => checkType site .facet facetProperties name inner
  | .declaration site .instanceOf component inner => checkInstance site component inner
  | .importOf site uri =>
    if Text.isBlank uri then [.found site .emptyPropertyValue [⟨.name, "import"⟩]] else []
  | _ => []

end Block

/-- What single blocks are checked with. -/
abbrev BlockCheck := Block → List Diagnostic

/-- No check at all. -/
def BlockCheck.none : BlockCheck := fun _ => []

end Deployment
