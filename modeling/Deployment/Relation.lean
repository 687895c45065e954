import Deployment.Table

/-!
# Relations and cycles

A relation between names lists, for each name in order, the names it leads to. A name that
a list mentions need not have a list itself.

* `Relation.findCycle`: a cycle of the relation, if it has one, found by a depth-first
  search that starts from the names in order and follows the lists in order.
* `Relation.breakCycles`: the relation without the edges that close cycles, one edge cut
  after the other, with the cycles found on the way.
-/

namespace Deployment

/-- The names that each name leads to. -/
abbrev Relation := Table String (List String)

/-- A closed chain of names: from `start` over `rest` back to `start`. -/
structure Cycle where
  /-- Where the chain begins and ends. -/
  start : String
  /-- The names between. -/
  rest : List String
deriving DecidableEq, Inhabited

namespace Cycle

/-- The names of the chain, `start` at both ends. -/
def names (c : Cycle) : List String := c.start :: c.rest ++ [c.start]

/-- The name that the last edge of the chain leaves; the edge leads to `start`. -/
def last (c : Cycle) : String := (c.rest.getLast?).getD c.start

end Cycle

namespace Relation

/-- What a search has come to. -/
inductive Search where
  /-- A cycle. -/
  | found (cycle : Cycle)
  /-- No cycle so far; the names in `visited` need no further visit. -/
  | clear (visited : List String)

/-- The names that a name leads to. -/
def targets (r : Relation) (name : String) : List String := (r.get? name).getD []

/-- A search that takes names one after the other until it finds a cycle. -/
def sweep (step : List String → String → Search) : List String → List String → Search
  | visited, [] => .clear visited
  | visited, name :: names =>
    match step visited name with
    | .found cycle => .found cycle
    | .clear visited => sweep step visited names

/-- The cycle that a step to `name` closes; `trail` holds the names from the start of the
    search to the name the step leaves, latest first. -/
def closing (trail : List String) (name : String) : Cycle :=
  ⟨name, (trail.takeWhile (· ≠ name)).reverse⟩

/-- The search from a name, reached over `trail`, latest first. Every level of the search
    visits a new name, so that `fuel` need not exceed the number of names. -/
def explore (r : Relation) : Nat → List String → List String → String → Search
  | 0, _, visited, _ => .clear visited
  | fuel + 1, trail, visited, name =>
    sweep (fun visited next =>
        if next ∈ name :: trail then .found (closing (name :: trail) next)
        else if next ∈ visited then .clear visited
        else explore r fuel (name :: trail) visited next)
      (name :: visited) (r.targets name)

/-- The number of edges. -/
def edgeCount (r : Relation) : Nat := r.values.flatten.length

/-- A bound on the number of names that a relation mentions. -/
def nameBound (r : Relation) : Nat := r.size + r.edgeCount

/-- The first cycle that the search meets. -/
def findCycle (r : Relation) : Option Cycle :=
  let search := sweep (fun visited name =>
      if name ∈ visited then .clear visited else r.explore (r.nameBound + 1) [] visited name)
    [] r.keys
  match search with
  | .found cycle => some cycle
  | .clear _ => none

/-- The relation without the first edge from one name to another. -/
def cut (r : Relation) (source target : String) : Relation :=
  r.modify source fun targets => targets.erase target

/-- Cuts the last edge of one cycle after the other. Every cut takes an edge away, so that
    `fuel` need not exceed the number of edges. -/
def breakFrom : Nat → Relation → Relation × List Cycle
  | 0, r => (r, [])
  | fuel + 1, r =>
    match r.findCycle with
    | none => (r, [])
    | some cycle =>
      let (left, cycles) := breakFrom fuel (r.cut cycle.last cycle.start)
      (left, cycle :: cycles)

/-- The relation without the edges that close cycles, and the cycles found. -/
def breakCycles (r : Relation) : Relation × List Cycle := breakFrom (r.edgeCount + 1) r

end Relation

end Deployment
