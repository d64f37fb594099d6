import ClassTree.Registry.Basic

/-!
# Inheritance cycles

A graph of links between classes, and the sets of classes that inherit from themselves.
-/

namespace ClassTree

/-- Links from classes to the classes that they extend. -/
structure Inheritance where
  edges : List (Name × Name)

namespace Inheritance

/-- The classes that a class extends directly. -/
def parents (g : Inheritance) (n : Name) : List Name := g.edges.filterMap fun (a, b) => if a = n then some b else none

/-- All classes that an edge starts or ends at, each once. -/
def nodes (g : Inheritance) : List Name := (g.edges.flatMap fun (a, b) => [a, b]).eraseDups

def contains (g : Inheritance) (n : Name) : Bool := g.edges.any fun (a, b) => a = n || b = n

/-- Visits the classes in `todo` and all that can be reached from them; `fuel` bounds the classes taken from `todo`. -/
def visit (g : Inheritance) : Nat → List Name → List Name → List Name
  | 0, _, seen => seen
  | _ + 1, [], seen => seen
  | fuel + 1, n :: todo, seen =>
    if n ∈ seen then g.visit fuel todo seen else g.visit fuel (g.parents n ++ todo) (n :: seen)

/-- The classes that a class inherits from, itself only if it is on a cycle. Every edge puts its end into the list of
classes to visit at most once, besides the first ones. -/
def ancestors (g : Inheritance) (n : Name) : List Name :=
  let first := g.parents n
  g.visit (first.length + g.edges.length) first []

/-- Every set of classes that inherit from themselves, each sorted by name, and the sets by their first names. -/
def cycles (g : Inheritance) : List (List Name) :=
  let above := g.nodes.map fun n => (n, g.ancestors n)
  let cyclic := above.filter fun (n, up) => n ∈ up
  let groups := cyclic.map fun (n, up) =>
    ((cyclic.filter fun (m, upM) => m ∈ up && n ∈ upM).map (·.1)).mergeSort Name.le
  (groups.eraseDups).mergeSort fun a b =>
    match a, b with
    | x :: _, y :: _ => x.le y
    | [], _ => true
    | _ :: _, [] => false

/-- Whether a class inherits from itself. -/
def isCyclic (g : Inheritance) (n : Name) : Bool := n ∈ g.ancestors n

end Inheritance

/-- The superclass links of all registered classes. -/
def Registry.inheritance (r : Registry) : Inheritance :=
  ⟨r.classes.filterMap fun c => c.superclass.map (c.name, ·)⟩

end ClassTree
