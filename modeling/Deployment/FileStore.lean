import Deployment.Block
import Deployment.Table

/-!
# Where files come from

Compilations never read text: a *loader* says which paths exist, and hands over the blocks
of a file. It also says how many paths one compilation may ask for, so that a loader may
well invent files without end.

* `Loader`: what a compilation asks for files.
* `LoadFailure`: why a file could not be had. Nothing else makes a compilation fail; what is
  wrong in the files is reported by diagnostics.
* `FileStore`: files kept in memory, under their normalized paths, and paths that are known
  to fail; `FileStore.loader` serves them.
-/

namespace Deployment

/-- Why a file could not be had. -/
inductive LoadFailure where
  /-- The file exists but could not be read. -/
  | unreadable (path : Path) (reason : String)
  /-- The text of the file could not be understood. -/
  | unparsable (path : Path) (reason : String)
  /-- More paths were asked for than the loader admits. -/
  | tooManyFiles
deriving DecidableEq, Inhabited

namespace LoadFailure

/-- The failure in words. -/
def message : LoadFailure → String
  | .unreadable path reason => "failed to read " ++ path.text ++ ": " ++ reason
  | .unparsable path reason => "failed to parse " ++ path.text ++ ": " ++ reason
  | .tooManyFiles => "too many files"

end LoadFailure

/-- What a compilation asks for files. -/
structure Loader where
  /-- Whether a path designates a file. -/
  has : Path → Bool
  /-- The content of a file. -/
  load : Path → Except LoadFailure FileDefinition
  /-- How many paths one compilation may ask for. -/
  limit : Nat

/-- What a store holds under a path that is known to fail. -/
inductive Fault where
  | unreadable (reason : String)
  | unparsable (reason : String)
deriving DecidableEq, Inhabited

/-- The failure of a path that was asked for. -/
def Fault.failure (path : Path) : Fault → LoadFailure
  | .unreadable reason => .unreadable path reason
  | .unparsable reason => .unparsable path reason

/-- Files kept in memory. -/
structure FileStore where
  /-- The files, by normalized path. -/
  files : Table String FileDefinition
  /-- The paths that exist but cannot be loaded, by normalized path. -/
  faults : Table String Fault
deriving Inhabited

namespace FileStore

/-- What a path is kept under. -/
def key (path : Path) : String := path.normalize.text

/-- The store without files. -/
def empty : FileStore := ⟨.empty, .empty⟩

/-- A file more, under its own path; it replaces the file kept there. -/
def insert (s : FileStore) (d : FileDefinition) : FileStore :=
  { s with files := s.files.insert (key d.file) d }

/-- A path that exists but cannot be loaded. A path fails in one way only: the first that is
    known stays. -/
def insertFault (s : FileStore) (path : Path) (fault : Fault) : FileStore :=
  { s with faults := s.faults.insertNew (key path) fault }

/-- The number of files. -/
def size (s : FileStore) : Nat := s.files.size

/-- Whether a path designates a file. -/
def has (s : FileStore) (path : Path) : Bool :=
  s.faults.contains (key path) || s.files.contains (key path)

/-- The content of a file. -/
def load (s : FileStore) (path : Path) : Except LoadFailure FileDefinition :=
  match s.faults.get? (key path) with
  | some fault => .error (fault.failure path)
  | none =>
    match s.files.get? (key path) with
    | some d => .ok d
    | none => .error (.unreadable path "no such file")

/-- The number of imports in all files. -/
def importCount (s : FileStore) : Nat := (s.files.values.flatMap (·.imports)).length

/-- A store asks for nothing twice: one path for the start and one for each import suffice. -/
def loader (s : FileStore) : Loader :=
  { has := s.has, load := s.load, limit := s.importCount + 1 }

end FileStore

end Deployment
