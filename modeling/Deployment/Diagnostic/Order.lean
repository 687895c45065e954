import Deployment.Diagnostic.Basic

/-!
# The order of diagnostics

Reports list diagnostics in a fixed order, whatever the order in which they were found. Two
diagnostics are compared by code first, then by the texts of their details, pair by pair,
then by the number of details, and last by the kinds of their details, pair by pair.

* `Diagnostic.compare`: the comparison.
* `Diagnostic.sorted`: a list in increasing order, without repetitions. It is built by
  inserting one diagnostic after the other.
-/

namespace Deployment.Diagnostic

/-- The first difference between two lists, pair by pair. -/
def comparePairs (cmp : Detail → Detail → Ordering) : List Detail → List Detail → Ordering
  | a :: as, b :: bs => (cmp a b).then (comparePairs cmp as bs)
  | _, _ => .eq

/-- The order of two diagnostics. -/
def compare (a b : Diagnostic) : Ordering :=
  (Ord.compare a.code.index b.code.index).then <|
  (comparePairs (fun x y => Text.compare x.text y.text) a.details b.details).then <|
  (Ord.compare a.details.length b.details.length).then <|
  comparePairs (fun x y => Ord.compare x.kind.index y.kind.index) a.details b.details

/-- An increasing list with one more diagnostic, unless it has it. -/
def insertSorted (d : Diagnostic) : List Diagnostic → List Diagnostic
  | [] => [d]
  | e :: es =>
    match compare d e with
    | .lt => d :: e :: es
    | .eq => e :: es
    | .gt => e :: insertSorted d es

/-- The diagnostics of a list, increasing and without repetitions. -/
def sorted (ds : List Diagnostic) : List Diagnostic := ds.foldr insertSorted []

end Deployment.Diagnostic
