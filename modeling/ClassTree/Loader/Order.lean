/-!
# Orders that respect dependencies

Items numbered from 0 and edges from an item to one that needs it. A depth-first walk finishes an item after all that
need it, so the items in the reverse order of finishing come after all that they need, unless there is a cycle.
-/

namespace ClassTree

/-- Edges, each from an item to one that needs it, in the order in which they were added. -/
structure Dependencies where
  count : Nat
  edges : List (Nat × Nat)

namespace Dependencies

/-- A walk that has not ended. -/
structure Walk where
  discovered : List Nat
  /-- The finished items, the last one first. -/
  finished : List Nat

/-- The items that need an item, by the newest edge first. -/
def dependents (d : Dependencies) (i : Nat) : List Nat :=
  (d.edges.filterMap fun (a, b) => if a = i then some b else none).reverse

/-- Walks on from a stack of items, the top first. An item stays on the stack while those that need it are walked, and
the oldest of these is walked first. Every item is discovered once and every place on the stack left once, which bounds
the steps by twice the number of items and the number of edges. -/
def walk (d : Dependencies) : Nat → List Nat → Walk → Walk
  | 0, _, w => w
  | _ + 1, [], w => w
  | fuel + 1, i :: stack, w =>
    if i ∈ w.discovered then
      d.walk fuel stack (if i ∈ w.finished then w else { w with finished := i :: w.finished })
    else
      let discovered := i :: w.discovered
      let next := (d.dependents i).filter (· ∉ discovered)
      d.walk fuel (next.reverse ++ i :: stack) { w with discovered }

/-- Walks from an item on, if it was not discovered before. -/
def visit (d : Dependencies) (w : Walk) (i : Nat) : Walk :=
  if i ∈ w.discovered then w else d.walk (2 * d.count + d.edges.length) [i] w

/-- The items in the reverse order of finishing. -/
def walkOrder (d : Dependencies) : List Nat := ((List.range d.count).foldl d.visit ⟨[], []⟩).finished

/-- Whether every item comes after all that it needs. -/
def respects (d : Dependencies) (order : List Nat) : Bool :=
  d.edges.all fun (a, b) => order.idxOf a < order.idxOf b

/-- An order in which every item comes after all that it needs, if there is one. -/
def sorted? (d : Dependencies) : Option (List Nat) := if d.respects d.walkOrder then some d.walkOrder else none

end Dependencies

end ClassTree
