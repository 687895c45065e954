import Deployment.Table

/-!
# Documents

Models are exchanged as documents: texts, numbers, truth values, lists, and objects with
named fields. A value is kept in a document as follows.

* A record is an object with a field for each part. It is also read from a list of its
  parts, in order. Fields of other names are passed over; a missing field makes the document
  unreadable, except where the part is optional or has a default.
* A choice without content is the text of its name, a choice with content an object whose
  only field has that name.
* A table is an object, a set a list; what a list repeats is kept once.
* A number is a nonnegative integer below `2 ^ 64`.

`Documented.encode` makes a document of a value, `Documented.decode` reads it back.
-/

namespace Deployment

/-- A value in exchange. -/
inductive Document where
  | null
  | bool (b : Bool)
  /-- The number `mantissa / 10 ^ places`; integers have no places. -/
  | number (mantissa : Int) (places : Nat)
  | text (s : String)
  | list (items : List Document)
  | object (fields : List (String × Document))
deriving Inhabited

namespace Document

mutual

/-- How deeply a document is nested. -/
def depth : Document → Nat
  | .list items => depthList items + 1
  | .object fields => depthFields fields + 1
  | .null => 1
  | .bool _ => 1
  | .number .. => 1
  | .text _ => 1

/-- How deeply the deepest of some documents is nested. -/
def depthList : List Document → Nat
  | [] => 0
  | d :: ds => max d.depth (depthList ds)

/-- How deeply the deepest of some fields is nested. -/
def depthFields : List (String × Document) → Nat
  | [] => 0
  | (_, d) :: fields => max d.depth (depthFields fields)

end

/-- The parts of the content of a choice, in order, as far as they are there. They stand
    under their names. -/
def namedParts (names : List String) : Document → Option (List (Option Document))
  | .object fields => some (names.map fun name => fields.lookup name)
  | _ => none

/-- The parts of a record, in order, as far as they are there. A list must have them all,
    unless parts have defaults. -/
def parts (defaults : Bool) (names : List String) : Document → Option (List (Option Document))
  | .object fields => namedParts names (.object fields)
  | .list items =>
    if items.length = names.length ∨ (defaults ∧ items.length < names.length) then
      some (items.map some ++ List.replicate (names.length - items.length) none)
    else none
  | _ => none

/-- A choice and its content. -/
def choice : Document → Option (String × Option Document)
  | .text name => some (name, none)
  | .object [(name, content)] => some (name, some content)
  | _ => none

/-- A choice without content. -/
def plainChoice (d : Document) : Option String :=
  match d.choice with
  | some (name, none) => some name
  | some (name, some .null) => some name
  | _ => none

end Document

/-- Values that are kept in documents. -/
class Documented (α : Type) where
  /-- The document of a value. -/
  encode : α → Document
  /-- The value of a document. -/
  decode : Document → Option α
  /-- The value of a part that is not there. -/
  absent : Option α := none

namespace Documented

/-- The value of a part of a record. -/
def part {α : Type} [Documented α] : Option Document → Option α
  | some d => decode d
  | none => absent

/-- The value of a part of a record that has a default. -/
def partOr {α : Type} [Documented α] (default : α) : Option Document → Option α
  | some d => decode d
  | none => some default

instance : Documented Bool where
  encode b := .bool b
  decode
    | .bool b => some b
    | _ => none

instance : Documented String where
  encode s := .text s
  decode
    | .text s => some s
    | _ => none

instance : Documented Nat where
  encode n := .number n 0
  decode
    | .number (.ofNat n) 0 => if n < Nat.pow 2 64 then some n else none
    | _ => none

instance {α : Type} [Documented α] : Documented (Option α) where
  encode
    | none => .null
    | some a => encode a
  decode
    | .null => some none
    | d => (decode d).map some
  absent := some none

instance {α : Type} [Documented α] : Documented (List α) where
  encode items := .list (items.map encode)
  decode
    | .list items => items.mapM decode
    | _ => none

instance {α : Type} [Documented α] : Documented (Table String α) where
  encode t := .object (t.entries.map fun (key, value) => (key, encode value))
  decode
    | .object fields =>
      (fields.mapM fun field : String × Document =>
        (decode field.2).map fun value : α => (field.1, value)).map Table.ofList
    | _ => none

instance : Documented NameSet where
  encode s := encode s.toList
  decode d := (decode d).map NameSet.ofList

end Documented

end Deployment
