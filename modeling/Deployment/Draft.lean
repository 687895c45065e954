import Deployment.Block
import Deployment.Forest
import Deployment.Name

/-!
# Drafts of instances

What the declaration of an instance says by itself, without the instances declared inside it, is
a *draft*: an instance, the place of its declaration, and what it says about copies. A draft that
asks for several copies stands for as many instances side by side.

* `Instance.addProperty`: the instance with one more property.
* `Draft.read`: the draft that a declaration makes.
-/

namespace Deployment

namespace Instance

/-- An entry of a `data` list: a key, `=` and a value; other entries say nothing. -/
def dataEntry (entry : String) : Option (String × String) :=
  (Text.cut '=' entry).map fun (key, value) => (Text.trim key, Text.unquote value)

/-- Data with further entries. -/
def insertAll (data : Table String String) (entries : List (String × String)) :
    Table String String :=
  entries.foldl (fun t (key, value) => t.insert key value) data

/-- An instance with one more property. What is not a property of its own is a value for a
    variable that its component exports. -/
def addProperty (i : Instance) : String × String → Instance
  | ("name", value) => { i with name := Text.unquote value }
  | ("channels", value) => { i with channels := i.channels.insertMany (Text.names value) }
  | ("state", value) => { i with status := (Status.parse (Text.unquote value)).getD .notDeployed }
  | ("count", _) => i
  | ("data", value) =>
    { i with data := insertAll i.data ((Text.entries value).filterMap dataEntry) }
  | (key, value) =>
    match Text.after? "data." key with
    | some key => { i with data := i.data.insert key (Text.unquote value) }
    | none => { i with overrides := i.overrides.insert key (Text.unquote value) }

end Instance

/-- An instance as it is declared. -/
structure Draft where
  /-- The instance. -/
  body : Instance
  /-- The place of its declaration. -/
  site : Site
  /-- What the declaration says about copies. -/
  countText : Option String
deriving Inhabited

namespace Draft

/-- The draft that a declaration makes; of several values for copies, the last one counts. -/
def read (b : InstanceDeclaration) : Draft :=
  let properties := Block.properties b.inner
  { body := properties.foldl Instance.addProperty (.named "" b.component)
    site := b.site
    countText := ((properties.filter (·.1 = "count")).getLast?).map fun p => Text.unquote p.2 }

/-- The number of copies that a text asks for; one that is not readable asks for one copy. -/
def countOf (text : String) : Nat := (parseCount text).getD 1

end Draft

end Deployment
