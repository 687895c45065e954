import Deployment.Block.Remarks
import Deployment.Catalogue.Resolution
import Deployment.Closure

/-!
# Compilation of type graphs

From a file with types to the type graph of its import closure. The declarations of the
closure are gathered, names declared more than once are reported, and references are
resolved.

A *strict* compilation passes over the files in which something severe was found, and leaves
references unresolved if anything severe was found at all: the graph is then what was
declared. A *flexible* one takes every file and always resolves; what does not hold together
is dropped, so that a graph results that holds as much as possible.

* `GraphCompilation.compile`: the compilation. Only a file that cannot be loaded makes it
  fail.
-/

namespace Deployment

/-- What comes of compiling types. -/
structure GraphCompilation where
  /-- The graph. -/
  graph : TypeGraph
  /-- Everything found, in the order in which it was found. -/
  diagnostics : List Diagnostic
  /-- Where the types were declared. -/
  sourceMap : SourceMap
  /-- The remarks on types, by name. -/
  remarks : Table String String

namespace GraphCompilation

/-- Whether something severe was found. -/
def isSevere (c : GraphCompilation) : Bool := Diagnostic.anySevere c.diagnostics

/-- The files whose declarations count. -/
def acceptedFiles (flexible : Bool) (closure : Closure) : List LoadedFile :=
  closure.files.filter fun file => flexible || !file.isSevere

/-- The blocks of some files, in order. -/
def blocksOf (files : List LoadedFile) : List Block := files.flatMap (·.definition.blocks)

/-- The remarks in some files; the first one on a name stays. -/
def remarksOf (files : List LoadedFile) : Table String String :=
  Table.empty.extend (files.flatMap fun file => Block.remarks file.definition.blocks)

/-- The catalogue of a closure, what was found in gathering it included. -/
def gather (flexible : Bool) (closure : Closure) : Catalogue × List Diagnostic :=
  let catalogue := Catalogue.ofBlocks (blocksOf (acceptedFiles flexible closure))
  (catalogue, closure.diagnostics ++ catalogue.collisions ++ catalogue.repetitions)

/-- The catalogue after resolution, if it takes place. -/
def settle (flexible : Bool) (gathered : Catalogue × List Diagnostic) :
    Catalogue × List Diagnostic :=
  if !flexible && Diagnostic.anySevere gathered.2 then gathered
  else (gathered.1.resolve.1, gathered.2 ++ gathered.1.resolve.2)

/-- The compilation of a closure. -/
def ofClosure (flexible : Bool) (closure : Closure) : GraphCompilation :=
  let settled := settle flexible (gather flexible closure)
  { graph := settled.1.graph
    diagnostics := settled.2
    sourceMap := settled.1.sourceMap
    remarks := remarksOf (acceptedFiles flexible closure) }

/-- The compilation of the closure of `root`, with imports resolved against `dir`. -/
def compile (loader : Loader) (check : BlockCheck) (root dir : Path) (flexible : Bool) :
    Except LoadFailure GraphCompilation :=
  (Closure.walk loader check .types root dir).map (ofClosure flexible)

end GraphCompilation

end Deployment
