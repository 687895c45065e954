/-!
# YAML values

What a YAML text says: scalars, sequences and mappings. Whether a scalar was written plainly
or between quotes matters, for only a plain one may mean a truth value or nothing at all; a
tag may say more about it. A value that has an anchor may be meant again elsewhere, even
within itself, so a text says a *graph* of values.

* `Yaml.text?`: any scalar as a text.
* `Yaml.optionalText?`: a scalar as a text that may be absent.
* `Yaml.bool?`: a plain truth value.
* `Graph.fields?`: the entries of a mapping whose keys are scalars.
-/

namespace Deployment

namespace Yaml

/-- How a scalar is written. -/
inductive Style where
  /-- As it is. -/
  | plain
  /-- Between quotes. -/
  | quoted
  /-- On lines of its own. -/
  | literal
  /-- On lines of its own that are joined. -/
  | folded
deriving DecidableEq, Inhabited

end Yaml

/-- A YAML value. -/
inductive Yaml where
  | scalar (text : String) (style : Yaml.Style) (tag : Option String)
  | sequence (items : List Yaml)
  | mapping (entries : List (Yaml × Yaml))
  /-- The value with an anchor, by the number of anchors before it. -/
  | reference (anchor : Nat)
deriving Inhabited

namespace Yaml

/-- The value of a key after which nothing stands. -/
def nothing : Yaml := .scalar "" .plain none

/-- The words that mean that there is no value. -/
def nullWords : List String := ["~", "null", "Null", "NULL"]

/-- The words that mean yes. -/
def trueWords : List String := ["true", "True", "TRUE"]

/-- The words that mean no. -/
def falseWords : List String := ["false", "False", "FALSE"]

/-- The tag of values that mean nothing. -/
def nullTag : String := "tag:yaml.org,2002:null"

/-- The tag of truth values. -/
def boolTag : String := "tag:yaml.org,2002:bool"

/-- The text of a scalar. -/
def text? : Yaml → Option String
  | .scalar text _ _ => some text
  | _ => none

/-- The text of a scalar; absent for a plain scalar that means nothing. One with a tag means
    nothing only if the tag says so, and then it must. -/
def optionalText? : Yaml → Option (Option String)
  | .scalar text .plain none =>
    if text = "" ∨ text ∈ nullWords then some none else some (some text)
  | .scalar text .plain (some tag) =>
    if tag ≠ nullTag then some (some text)
    else if text ∈ nullWords then some none
    else none
  | .scalar text _ _ => some (some text)
  | _ => none

/-- The truth value of a word. -/
def truth? (word : String) : Option Bool :=
  if word ∈ trueWords then some true else if word ∈ falseWords then some false else none

/-- The truth value of a plain scalar, or of a literal one with the tag of truth values. -/
def bool? : Yaml → Option Bool
  | .scalar text .plain _ => truth? text
  | .scalar text .literal (some tag) => if tag = boolTag then truth? text else none
  | _ => none

/-- The value of a key that a mapping has at most once: unreadable if it has it twice. -/
def field? (fields : List (String × Yaml)) (key : String) : Option (Option Yaml) :=
  match fields.filter (·.1 == key) with
  | [] => some none
  | [(_, value)] => some (some value)
  | _ => none

/-- A value, and those that are meant within it by their anchors. -/
structure Graph where
  /-- The value. -/
  root : Yaml
  /-- The values with anchors, by the number of anchors before. -/
  anchored : List (Nat × Yaml)

namespace Graph

/-- The value that a reference means; any other is itself. -/
def resolve (g : Graph) : Yaml → Yaml
  | .reference anchor => (g.anchored.lookup anchor).getD nothing
  | value => value

/-- The entries of a mapping whose keys are scalars. Where nothing is written, nothing is
    mapped. -/
def fields? (g : Graph) : Yaml → Option (List (String × Yaml))
  | .mapping entries => entries.mapM fun (key, value) =>
      (g.resolve key).text?.map fun key => (key, g.resolve value)
  | .scalar "" .plain _ => some []
  | _ => none

end Graph

end Yaml

end Deployment
