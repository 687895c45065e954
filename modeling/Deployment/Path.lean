import Deployment.Text

/-!
# Paths

Files are designated by slash-separated paths. A path is written as the text it was made
from, and read as a list of segments, in which repeated slashes, a trailing slash and the
segment `.` (unless a relative path begins with it) do not show. Two paths are the *same*
if they read alike.

* `Path.segments`: how a path reads.
* `Path.normalize`: the path with `.` dropped and `..` folded into the segment before it.
  Folding is lexical: `..` removes the last segment kept so far, whatever it is, and stays
  where nothing can be removed.
* `Path.resolve`: the file that an import designates, seen from the directory that imports
  are resolved against.
-/

namespace Deployment

/-- A path, as it is written. -/
structure Path where
  /-- The written form. -/
  text : String
deriving DecidableEq, Inhabited

namespace Path

/-- What stands between two slashes. -/
inductive Segment where
  /-- The slash that an absolute path begins with. -/
  | root
  /-- The `.` that a relative path begins with. -/
  | here
  /-- One level up. -/
  | up
  /-- A file or directory. -/
  | name (name : String)
deriving DecidableEq

/-- How a part after the beginning of a path reads: an empty part and `.` do not show. -/
def Segment.ofPart (part : List Char) : Option Segment :=
  if part = [] ∨ part = ['.'] then none
  else if part = ['.', '.'] then some .up
  else some (.name (.ofList part))

/-- The segments that a path consists of. -/
def segments (p : Path) : List Segment :=
  let parts := Chars.splitAll '/' p.text.toList
  if p.text.toList.head? = some '/' then .root :: parts.filterMap Segment.ofPart
  else if parts.head? = some ['.'] then .here :: parts.filterMap Segment.ofPart
  else parts.filterMap Segment.ofPart

/-- Whether two paths read alike. -/
def same (p q : Path) : Bool := p.segments == q.segments

/-- A path while its segments are folded. -/
structure Folded where
  /-- Whether the path is absolute. -/
  rooted : Bool
  /-- The segments kept so far, `..` included where nothing could be removed. -/
  kept : List String
deriving DecidableEq

namespace Folded

/-- Nothing read yet. -/
def start : Folded := ⟨false, []⟩

/-- One more segment. -/
def add (f : Folded) : Segment → Folded
  | .root => { f with rooted := true }
  | .here => f
  | .up => if f.kept = [] then { f with kept := [".."] } else { f with kept := f.kept.dropLast }
  | .name n => { f with kept := f.kept ++ [n] }

/-- The path with single slashes between the segments kept. -/
def path (f : Folded) : Path :=
  ⟨(if f.rooted then "/" else "") ++ Text.join "/" f.kept⟩

end Folded

/-- The segments of a path, folded. -/
def fold (p : Path) : Folded := p.segments.foldl Folded.add .start

/-- The path without `.` and with `..` folded. -/
def normalize (p : Path) : Path := p.fold.path

/-- Whether a path begins at the root. -/
def isAbsolute (p : Path) : Bool := p.text.toList.head? = some '/'

/-- The path `q` seen from the directory `p`; an absolute `q` is itself. -/
def join (p q : Path) : Path :=
  if q.isAbsolute then q
  else if p.text.toList.getLast?.all (· = '/') then ⟨p.text ++ q.text⟩
  else ⟨p.text ++ "/" ++ q.text⟩

/-- Whether the target of an import names a remote place. -/
def isRemote (uri : String) : Bool := Chars.includes "://".toList uri.toList

/-- The file that an import designates, seen from the directory `dir`. A remote target is
    kept as it is written. -/
def resolve (dir : Path) (uri : String) : Path :=
  let target := Text.trim uri
  if isRemote target then ⟨target⟩ else (dir.join ⟨target⟩).normalize

end Path

/-- The place of a declaration. -/
structure Site where
  /-- The file. -/
  file : Path
  /-- The line, counted from 1. -/
  line : Nat
deriving DecidableEq, Inhabited

namespace Site

/-- The place as `file:line`. -/
def text (s : Site) : String := s.file.text ++ ":" ++ toString s.line

/-- Same line of the same file. -/
def same (s t : Site) : Bool := s.file.same t.file && s.line == t.line

end Site

end Deployment
