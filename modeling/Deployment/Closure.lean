import Deployment.Block.Check
import Deployment.FileStore

/-!
# Import closures

A compilation starts from one file and takes in everything that it imports, directly or not.
Files are visited in the order in which they are first asked for, each once, however many
imports designate it.

* `Closure.walk`: the visits of a compilation.
* `Closure.files`, `Closure.diagnostics`: the files visited, and everything found on the way.
  A missing file is reported where it was first asked for, a file of a kind that does not
  belong there under its own path.
-/

namespace Deployment

/-- What a compilation expects of every file. -/
structure Expectation where
  /-- The kinds that belong. -/
  accepted : List FileKind
  /-- Raised against a file of another kind. -/
  wrongKind : Code

namespace Expectation

/-- Files with types, or with imports only. -/
def types : Expectation := ⟨[.graph, .aggregator, .empty], .notAGraph⟩

/-- Files with instances, or with imports only. -/
def instances : Expectation := ⟨[.instances, .aggregator, .empty], .notInstances⟩

end Expectation

/-- A path that was asked for. -/
structure Request where
  /-- The path. -/
  path : Path
  /-- The import that asked first; none for the start. -/
  importer : Option Site
deriving DecidableEq, Inhabited

namespace Request

/-- What is reported if the path designates no file. -/
def unreachable (r : Request) : Diagnostic :=
  let d : Diagnostic := ⟨.unreachableFile, [⟨.unreachable, r.path.text⟩]⟩
  match r.importer with
  | none => d
  | some site => d.located site

end Request

/-- A file of a closure, with what was found wrong in it alone. -/
structure LoadedFile where
  /-- Its content. -/
  definition : FileDefinition
  /-- The diagnostics of its reader, of the checks of its blocks, and of its kind. -/
  diagnostics : List Diagnostic
deriving Inhabited

namespace LoadedFile

/-- Whether something severe was found in the file alone. -/
def isSevere (f : LoadedFile) : Bool := Diagnostic.anySevere f.diagnostics

end LoadedFile

/-- What became of a path that was asked for. -/
inductive Visit where
  | missing (request : Request)
  | loaded (file : LoadedFile)
deriving Inhabited

namespace Visit

/-- What was found on a visit. -/
def diagnostics : Visit → List Diagnostic
  | .missing request => [request.unreachable]
  | .loaded file => file.diagnostics

/-- The file visited. -/
def file? : Visit → Option LoadedFile
  | .missing _ => none
  | .loaded file => some file

end Visit

/-- The visits of a compilation, in order. -/
abbrev Closure := List Visit

namespace Closure

/-- The files visited. -/
def files (c : Closure) : List LoadedFile := c.filterMap Visit.file?

/-- Everything found. -/
def diagnostics (c : Closure) : List Diagnostic := c.flatMap Visit.diagnostics

/-- A file as it is taken in: the path that was asked for is the one reported. -/
def takeIn (check : BlockCheck) (expected : Expectation) (path : Path) (d : FileDefinition) :
    LoadedFile where
  definition := d
  diagnostics := d.diagnostics ++ d.blocks.flatMap check ++
    (if expected.accepted.contains d.kind then []
      else [⟨expected.wrongKind, [.file path]⟩])

/-- The queue with the imports of a file that were not asked for before. -/
def enqueue (dir : Path) (visited : List Path) (queue : List Request) :
    List (String × Site) → List Request
  | [] => queue
  | (uri, site) :: rest =>
    let target := Path.resolve dir uri
    if visited.any (·.same target) || queue.any (·.path.same target) then
      enqueue dir visited queue rest
    else enqueue dir visited (queue ++ [⟨target, some site⟩]) rest

/-- The visits to the requests of a queue and to all that they lead to. -/
def walkFrom (loader : Loader) (check : BlockCheck) (expected : Expectation) (dir : Path) :
    Nat → List Path → List Request → Except LoadFailure Closure
  | _, _, [] => .ok []
  | 0, _, _ :: _ => .error .tooManyFiles
  | fuel + 1, visited, request :: queue =>
    if loader.has request.path then
      match loader.load request.path with
      | .error failure => .error failure
      | .ok d =>
        let visited := request.path :: visited
        (walkFrom loader check expected dir fuel visited
            (enqueue dir visited queue d.imports)).map
          (.loaded (takeIn check expected request.path d) :: ·)
    else
      (walkFrom loader check expected dir fuel (request.path :: visited) queue).map
        (.missing request :: ·)

/-- The visits of a compilation that starts from `root`, its imports resolved against `dir`. -/
def walk (loader : Loader) (check : BlockCheck) (expected : Expectation) (root dir : Path) :
    Except LoadFailure Closure :=
  walkFrom loader check expected dir loader.limit [] [⟨root.normalize, none⟩]

end Closure

end Deployment
