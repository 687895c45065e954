import Deployment.Diagnostic.Basic
import Deployment.Table

/-!
# Source maps

Where the parts of a compiled model were declared. Checks of compiled models know names and
paths only; what they find is about a *subject*, and the source map gives it back the file
and line of the subject's declaration.

* `SourceMap.record`: a place for a subject; the first place recorded stays.
* `Finding.located`: a diagnostic about a subject, located at the subject's declaration.
-/

namespace Deployment

/-- A part of a compiled model. -/
inductive Subject where
  | component (name : String)
  | facet (name : String)
  /-- An instance, by its path. -/
  | instanceAt (path : String)
deriving DecidableEq, Inhabited

namespace Subject

/-- The detail that names a subject. -/
def detail : Subject → Detail
  | .component name => ⟨.component, name⟩
  | .facet name => ⟨.facet, name⟩
  | .instanceAt path => ⟨.instancePath, path⟩

/-- The subject in words. -/
def text : Subject → String
  | .component name => "component " ++ name
  | .facet name => "facet " ++ name
  | .instanceAt path => "instance " ++ path

end Subject

/-- The places of subjects, in the order in which they were recorded. -/
abbrev SourceMap := Table Subject Site

namespace SourceMap

/-- A place for a subject, unless it has one. -/
def record (m : SourceMap) (subject : Subject) (site : Site) : SourceMap :=
  m.insertNew subject site

/-- The records of another map, for the subjects without a place. -/
def merge (m other : SourceMap) : SourceMap := m.extend other.entries

/-- Whether two maps give the same subjects the same places. -/
def sameAs (m other : SourceMap) : Bool := m.same Site.same other

end SourceMap

/-- A diagnostic about a part of a compiled model. -/
structure Finding where
  /-- What is wrong. -/
  diagnostic : Diagnostic
  /-- What it is about. -/
  subject : Subject
deriving DecidableEq, Inhabited

namespace Finding

/-- A code about a subject, which its first detail names, and further details. -/
def about (subject : Subject) (code : Code) (details : List Detail) : Finding :=
  ⟨⟨code, subject.detail :: details⟩, subject⟩

/-- The diagnostic with the place of its subject's declaration, unless it names a file
    already or the place is unknown. -/
def located (f : Finding) (m : SourceMap) : Diagnostic :=
  match m.get? f.subject with
  | some site => if f.diagnostic.hasLocation then f.diagnostic else f.diagnostic.located site
  | none => f.diagnostic

end Finding

end Deployment
