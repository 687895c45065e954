/-!
# Breadth-first search

`breadthFirst next seeds` lists what can be reached from some seeds by repeating a step, the
seeds first, then their successors, and so on, each element once, at its first place.

The search keeps a queue of what is still to be visited; `fuel` bounds the number of
elements taken from the queue. Every element is expanded at most once, so that a bound on
the number of successors of each expandable element, and on the number of those elements,
gives a fuel that suffices.
-/

universe u

namespace Deployment

variable {α : Type u} [DecidableEq α]

/-- One visit after the other: what was seen before is skipped, what is new is listed and
    its successors join the queue. -/
def visit (next : α → List α) : Nat → List α → List α → List α
  | 0, seen, _ => seen
  | _ + 1, seen, [] => seen
  | fuel + 1, seen, a :: queue =>
    if a ∈ seen then visit next fuel seen queue
    else visit next fuel (seen ++ [a]) (queue ++ next a)

/-- What can be reached from the seeds, each element once, nearest first. -/
def breadthFirst (next : α → List α) (fuel : Nat) (seeds : List α) : List α :=
  visit next fuel [] seeds

end Deployment
