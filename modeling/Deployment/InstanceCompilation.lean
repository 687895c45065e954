import Deployment.Closure
import Deployment.InstanceBuilder.Replication

/-!
# Compilation of instances

From a file with instances to the forest of its import closure. The declarations of the closure
are built file by file; if nothing severe was found, instances that ask for several copies get
them, and otherwise each declaration stands for one instance. Instances are told apart by their
paths, so that no two may have the same.

* `InstanceCompilation.build`: the forest of the declarations, before any copy is made.
* `InstanceCompilation.compile`: the compilation. Only a file that cannot be loaded makes it
  fail.
-/

namespace Deployment

/-- What comes of compiling instances. -/
structure InstanceCompilation where
  /-- The instances. -/
  forest : Forest
  /-- Everything found, in the order in which it was found. -/
  diagnostics : List Diagnostic
  /-- Where the instances were declared; a copy was declared where its declaration was. -/
  sourceMap : SourceMap

namespace InstanceCompilation

/-- Whether something severe was found. -/
def isSevere (c : InstanceCompilation) : Bool := Diagnostic.anySevere c.diagnostics

/-- The forest of the declarations of a closure, file by file. -/
def build (g : TypeGraph) (closure : Closure) : InstanceBuilder :=
  closure.files.foldl (fun s file => s.buildFile g file.definition.blocks)
    (.start closure.diagnostics)

/-- The compilation of a closure. -/
def ofClosure (g : TypeGraph) (closure : Closure) : InstanceCompilation :=
  let s := build g closure
  let s := if Diagnostic.anySevere s.diagnostics then s else s.replicate
  let s := s.checkUniqueness
  { forest := s.forest
    diagnostics := s.diagnostics
    sourceMap := if Diagnostic.anySevere s.diagnostics then .empty else s.sourceMap }

/-- The compilation of the closure of `root` against a graph, with imports resolved against
    `dir`. -/
def compile (loader : Loader) (check : BlockCheck) (g : TypeGraph) (root dir : Path) :
    Except LoadFailure InstanceCompilation :=
  (Closure.walk loader check .instances root dir).map (ofClosure g)

end InstanceCompilation

end Deployment
