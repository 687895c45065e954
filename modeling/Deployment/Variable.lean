import Deployment.Name

/-!
# Variables

Types exchange variables: a type *exports* some, with a value or with a generator that will
pick one, and a component *imports* others, each named `Prefix.variable` after the type that
exports it, or `Prefix.*` for all of them.

A variable has a written form, an entry of an `exports` or `imports` list:

* exported: `port`, `port = 8080`, `random[port] port`;
* imported: `Db.port`, `external Db.port`, `Db.* (optional)`; a trailing `optional` without
  brackets reads like the one with brackets.

`ExportedVariable.parse` and `ImportedVariable.parse` read entries,
`ExportedVariable.text` and `ImportedVariable.text` write them.
-/

namespace Deployment

/-- Generators of values. -/
inductive RandomKind where
  /-- A free network port. -/
  | port
deriving DecidableEq, Inhabited

namespace RandomKind

/-- The written name of a generator. -/
def name : RandomKind → String
  | .port => "port"

/-- The generator with a given name, blanks around it and the case of its letters aside. -/
def parse (s : String) : Option RandomKind :=
  if (Chars.trim s.toList).map Char.toLower = ['p', 'o', 'r', 't'] then some .port else none

end RandomKind

/-- A variable that a type exports. -/
structure ExportedVariable where
  /-- The name, perhaps qualified by the name of a type. -/
  name : String
  /-- The value, if it is set. -/
  value : Option String
  /-- The generator of the value, if it is to be picked. -/
  random : Option RandomKind
deriving DecidableEq, Inhabited

namespace ExportedVariable

/-- A name without the qualification by `owner`, if it has it. -/
def shorten (owner name : String) : String :=
  (Text.after? (owner ++ ".") name).getD name

/-- Whether `key` designates the variable of a type called `owner`: both may be qualified by
    the owner or not. -/
def designatedBy (v : ExportedVariable) (owner key : String) : Bool :=
  shorten owner v.name == shorten owner key

/-- The generator and the name that an entry declares before its value. -/
def parseDeclaration (declaration : String) : Option (Option RandomKind × String) :=
  match Text.after? "random[" declaration with
  | none => some (none, declaration)
  | some rest => do
    let (kind, name) ← Text.cut ']' rest
    let kind ← RandomKind.parse kind
    return (some kind, Text.trim name)

/-- The variable of an `exports` entry. An entry with an invalid name, or with both a
    generator and a value, is malformed. -/
def parse (entry : String) : Option ExportedVariable := do
  let entry := Text.trim entry
  let (declaration, value) := match Text.cut '=' entry with
    | some (left, right) => (Text.trim left, some (Text.unquote right))
    | none => (entry, none)
  let (random, name) ← parseDeclaration declaration
  if isVariableName name && !(random.isSome && value.isSome) then
    some { name, value, random }
  else none

/-- The entry of a variable. -/
def text (v : ExportedVariable) : String :=
  (match v.random with
    | some kind => "random[" ++ kind.name ++ "] "
    | none => "") ++
  v.name ++
  (match v.value with
    | some value => " = " ++ Text.quoted value
    | none => "")

end ExportedVariable

/-- A variable that a component imports. -/
structure ImportedVariable where
  /-- The qualified name. -/
  name : String
  /-- Whether the component can do without it. -/
  optional : Bool
  /-- Whether another application exports it. -/
  external : Bool
deriving DecidableEq, Inhabited

namespace ImportedVariable

/-- The name of the exporting type and the name of the variable. -/
def split (v : ImportedVariable) : Option (String × String) := Text.cut '.' v.name

/-- An entry without the leading `external`, and whether it was there. -/
def cutExternal (entry : List Char) : List Char × Bool :=
  match Chars.after? "external".toList entry with
  | some (c :: rest) => if Chars.isBlank c then (Chars.trimStart rest, true) else (entry, false)
  | _ => (entry, false)

/-- An entry without the trailing `optional`, in brackets or after a blank, and whether it
    was there. -/
def cutOptional (entry : List Char) : List Char × Bool :=
  match Chars.before? "(optional)".toList entry with
  | some rest => (Chars.trimEnd rest, true)
  | none =>
    match Chars.before? "optional".toList entry with
    | some rest => if rest.getLast?.any Chars.isBlank then (Chars.trimEnd rest, true)
                   else (entry, false)
    | none => (entry, false)

/-- Whether a text is a type name, a point, and a variable name or `*`. -/
def isQualified (name : String) : Bool :=
  match Text.cut '.' name with
  | some (owner, key) => isTypeName owner && (key == "*" || isVariableName key)
  | none => false

/-- The variable of an `imports` entry. An entry without a qualified name is malformed. -/
def parse (entry : String) : Option ImportedVariable :=
  let (entry, external) := cutExternal (Chars.trim entry.toList)
  let (entry, optional) := cutOptional entry
  let name := String.ofList entry
  if isQualified name then some { name, optional, external } else none

/-- The entry of a variable. -/
def text (v : ImportedVariable) : String :=
  (if v.external then "external " else "") ++ v.name ++
    (if v.optional then " (optional)" else "")

end ImportedVariable

end Deployment
