import Deployment.Diagnostic.Code
import Deployment.Path

/-!
# Diagnostics

Problems in a deployment are values: a *diagnostic* is a code with an ordered list of
details, each a text of some kind. Steps collect them in lists and never fail because of
them.

* `Diagnostic.located`: the diagnostic with the file and line it is about, as two further
  details.
* `Diagnostic.text`: the diagnostic in one line, `NAME [SEVERITY]: kind=text, …`.
* `Diagnostic.anySevere`: whether a list has a severe diagnostic.
* `Diagnostic.recipeIrrelevant`: the codes that make no sense for a recipe, a fragment
  without root machine, whose facets and variables are used by the graphs that import it.
-/

namespace Deployment

/-- What a detail tells. -/
inductive DetailKind where
  | application
  /-- The path of an instance. -/
  | instancePath
  | component
  | facet
  | variable
  | name
  | value
  | file
  | directory
  | line
  /-- A chain of names that ends where it begins. -/
  | cycle
  | alreadyDefined
  | conflicting
  | unrecognized
  | unreachable
  | expected
  | unexpected
  | malformed
  | exception
deriving DecidableEq, Inhabited

namespace DetailKind

/-- The kinds, in their order. -/
def all : List DetailKind :=
  [.application, .instancePath, .component, .facet, .variable, .name, .value, .file,
    .directory, .line, .cycle, .alreadyDefined, .conflicting, .unrecognized, .unreachable,
    .expected, .unexpected, .malformed, .exception]

/-- The spelling of a kind in reports. -/
def text : DetailKind → String
  | .application => "application"
  | .instancePath => "instance"
  | .component => "component"
  | .facet => "facet"
  | .variable => "variable"
  | .name => "name"
  | .value => "value"
  | .file => "file"
  | .directory => "directory"
  | .line => "line"
  | .cycle => "cycle"
  | .alreadyDefined => "already-defined"
  | .conflicting => "conflicting"
  | .unrecognized => "unrecognized"
  | .unreachable => "unreachable"
  | .expected => "expected"
  | .unexpected => "unexpected"
  | .malformed => "malformed"
  | .exception => "exception"

/-- The spelling of a kind in documents. -/
def key : DetailKind → String
  | .application => "Application"
  | .instancePath => "Instance"
  | .component => "Component"
  | .facet => "Facet"
  | .variable => "Variable"
  | .name => "Name"
  | .value => "Value"
  | .file => "File"
  | .directory => "Directory"
  | .line => "Line"
  | .cycle => "Cycle"
  | .alreadyDefined => "AlreadyDefined"
  | .conflicting => "Conflicting"
  | .unrecognized => "Unrecognized"
  | .unreachable => "Unreachable"
  | .expected => "Expected"
  | .unexpected => "Unexpected"
  | .malformed => "Malformed"
  | .exception => "Exception"

/-- The place of a kind in the list of all kinds. -/
def index (k : DetailKind) : Nat := k.ctorIdx

/-- Every kind stands in the list at its own place. -/
theorem all_index (k : DetailKind) : all[k.index]? = some k := by cases k <;> rfl

/-- Kinds at the same place are equal. -/
theorem index_inj {k l : DetailKind} (h : k.index = l.index) : k = l := by
  have := all_index l
  rw [← h, all_index k] at this
  exact Option.some.inj this

end DetailKind

/-- A text of some kind. -/
structure Detail where
  /-- What the text tells. -/
  kind : DetailKind
  /-- The text. -/
  text : String
deriving DecidableEq, Inhabited

namespace Detail

/-- A file, as its path is written. -/
def file (path : Path) : Detail := ⟨.file, path.text⟩

/-- The number of a line. -/
def line (n : Nat) : Detail := ⟨.line, toString n⟩

/-- A chain of names, joined by arrows. -/
def cycle (names : List String) : Detail := ⟨.cycle, Text.join " -> " names⟩

/-- The detail as `kind=text`. -/
def render (d : Detail) : String := d.kind.text ++ "=" ++ d.text

end Detail

/-- A problem found: a code and its details, in order. -/
structure Diagnostic where
  /-- What is wrong. -/
  code : Code
  /-- What it is about. -/
  details : List Detail
deriving DecidableEq, Inhabited

namespace Diagnostic

/-- One more detail, at the end. -/
def add (d : Diagnostic) (detail : Detail) : Diagnostic :=
  { d with details := d.details ++ [detail] }

/-- The diagnostic with the place it is about. -/
def located (d : Diagnostic) (site : Site) : Diagnostic :=
  (d.add (.file site.file)).add (.line site.line)

/-- A code with details, at a place. -/
def found (site : Site) (code : Code) (details : List Detail) : Diagnostic :=
  (Diagnostic.mk code details).located site

/-- The weight of a diagnostic. -/
def severity (d : Diagnostic) : Severity := d.code.severity

/-- Whether a diagnostic is severe. -/
def isSevere (d : Diagnostic) : Bool := d.code.isSevere

/-- The text of the first detail of a kind. -/
def find? (d : Diagnostic) (kind : DetailKind) : Option String :=
  (d.details.find? (·.kind = kind)).map (·.text)

/-- Whether a diagnostic names a file. -/
def hasLocation (d : Diagnostic) : Bool := (d.find? .file).isSome

/-- The diagnostic in one line. -/
def text (d : Diagnostic) : String :=
  d.code.name ++ " [" ++ d.severity.name ++ "]" ++
    (if d.details = [] then "" else ": ") ++ Text.join ", " (d.details.map Detail.render)

/-! ### Lists of diagnostics -/

/-- Whether a list has a severe diagnostic. -/
def anySevere (ds : List Diagnostic) : Bool := ds.any isSevere

theorem anySevere_append (ds es : List Diagnostic) :
    anySevere (ds ++ es) = (anySevere ds || anySevere es) :=
  List.any_append

theorem anySevere_eq_false {ds : List Diagnostic} :
    anySevere ds = false ↔ ∀ d ∈ ds, d.isSevere = false := by
  simp [anySevere]

theorem anySevere_of_subset {ds es : List Diagnostic} (h : ds ⊆ es)
    (hes : anySevere es = false) : anySevere ds = false :=
  anySevere_eq_false.2 fun d hd => anySevere_eq_false.1 hes d (h hd)

/-- Among severe diagnostics, nothing is severe only if there are none. -/
theorem anySevere_eq_false_iff_eq_nil {ds : List Diagnostic} (h : ∀ d ∈ ds, d.isSevere = true) :
    anySevere ds = false ↔ ds = [] := by
  constructor
  · intro hmild
    refine List.eq_nil_iff_forall_not_mem.2 fun d hd => ?_
    exact Bool.false_ne_true ((anySevere_eq_false.1 hmild d hd).symm.trans (h d hd))
  · rintro rfl
    rfl

/-- The warnings of a list. -/
def warnings (ds : List Diagnostic) : List Diagnostic := ds.filter (·.severity = .warning)

/-- The diagnostics whose code is not listed. -/
def without (codes : List Code) (ds : List Diagnostic) : List Diagnostic :=
  ds.filter fun d => !codes.contains d.code

/-- The codes that make no sense for a recipe. -/
def recipeIrrelevant : List Code :=
  [.rootInstallerMustBeTarget, .orphanFacet, .orphanFacetWithChildren, .unreachableComponent,
    .unresolvableFacetVariable]

/-- The diagnostics that make sense for a recipe. -/
def forRecipe (ds : List Diagnostic) : List Diagnostic := without recipeIrrelevant ds

end Diagnostic

end Deployment
