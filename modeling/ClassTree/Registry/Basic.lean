import ClassTree.Registry.Entry

/-!
# The registry of classes

The classes that a compilation sees, in the order in which they were entered, and what follows from their superclass
links: chains, distances, and the members that a class has or inherits.
-/

namespace ClassTree

/-- The classes that a compilation sees, each name at most once. -/
structure Registry where
  classes : List ClassEntry
deriving DecidableEq

namespace Registry

def empty : Registry := ⟨[]⟩

def get? (r : Registry) (name : Name) : Option ClassEntry := r.classes.find? (·.name = name)

def contains (r : Registry) (name : Name) : Bool := (r.get? name).isSome

def register (r : Registry) (entry : ClassEntry) : Except RegistrationError Registry :=
  if r.contains entry.name then .error (.duplicateClass entry.name.text)
  else .ok ⟨r.classes ++ [entry]⟩

/-- Changes the entry of a class, whose name stays. -/
def update (r : Registry) (name : Name) (f : ClassEntry → ClassEntry) : Registry :=
  ⟨r.classes.map fun c => if c.name = name then { f c with name := c.name } else c⟩

/-! ## Superclass chains -/

/-- Follows superclass links for at most `fuel` classes, as long as they are registered and not in `seen`. -/
def chainFrom (r : Registry) : Nat → List Name → Name → List ClassEntry
  | 0, _, _ => []
  | fuel + 1, seen, name =>
    match r.get? name with
    | none => []
    | some entry =>
      if name ∈ seen then []
      else entry :: match entry.superclass with
        | none => []
        | some s => r.chainFrom fuel (name :: seen) s

/-- The class and its registered superclasses, nearest first. It ends at a class that is not registered, and before a
class would come a second time. -/
def chain (r : Registry) (name : Name) : List ClassEntry := r.chainFrom r.classes.length [] name

/-- How many superclass steps lead from `sub` up to `sup`. -/
def distance? (r : Registry) (sub sup : Name) : Option Nat :=
  (r.chain sub).findIdx? (·.name = sup)

/-- Whether `sub` is `sup` or inherits from it. -/
def isSubclassOf (r : Registry) (sub sup : Name) : Bool := (r.distance? sub sup).isSome

/-! ## Members -/

/-- The field that a class has or inherits under a name. -/
def findField? (r : Registry) (cls : Name) (name : String) : Option FieldEntry :=
  (r.chain cls).findSome? (·.ownField? name)

/-- Every field of a class, inherited ones first. -/
def allFields (r : Registry) (cls : Name) : List FieldEntry :=
  (r.chain cls).reverse.flatMap (·.fields)

/-- Adds a method unless one with the same parameters is there. -/
def addVisible (found : List MethodEntry) (m : MethodEntry) : List MethodEntry :=
  if found.any (·.params = m.params) then found else found ++ [m]

/-- The methods of a name that a class has or inherits; a method hides those further up with the same parameters. -/
def findMethods (r : Registry) (cls : Name) (name : String) : List MethodEntry :=
  ((r.chain cls).flatMap (·.ownMethods name)).foldl addVisible []

end Registry

end ClassTree
