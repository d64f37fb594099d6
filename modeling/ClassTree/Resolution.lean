import ClassTree.Resolution.Hierarchy
import ClassTree.Resolution.Members

/-!
# Resolution of a set of classes

All classes are declared first, so that they may name each other in any order. Then their own declarations are checked
and their members entered, and at last what they owe to the members that they inherit.
-/

namespace ClassTree

namespace ClassDef

/-- The entry of a class before its members are known. -/
def header (d : ClassDef) : ClassEntry where
  name := d.name
  modifiers := d.modifiers
  superclass := some d.superclass
  enclosing := d.enclosing

def checkModifiers (d : ClassDef) : List Diagnostic :=
  let report (message : String) : Diagnostic := .ofClass .invalidModifiers d.name.text message
  reportIf d.modifiers.hasConflictingVisibility (report "conflicting visibility modifiers") ++
  reportIf (d.isAbstract && d.modifiers.isFinal) (report "a class cannot be both abstract and final") ++
  reportIf (d.isStatic && d.enclosing.isNone) (report "only nested classes can be static")

/-- Enters a class without its members. -/
def declare (r : Registry) (d : ClassDef) : Registry × List Diagnostic :=
  match r.register d.header with
  | .ok r => (r, d.checkModifiers)
  | .error _ =>
    (r, d.checkModifiers ++ [.ofClass .duplicateMember d.name.text s!"class '{d.name.text}' is already declared"])

/-- Checks the declarations of a class against the classes in `declared`. -/
def checkDeclarations (declared : Registry) (d : ClassDef) : List Diagnostic :=
  d.checkEnclosing declared ++ d.checkSuperclass declared ++ (d.gatherFields declared).found.toList ++
    (d.gatherMethods declared).found.toList ++ (d.gatherConstructors declared).found.toList

/-- Enters the members of a class. -/
def enterMembers (declared : Registry) (r : Registry) (d : ClassDef) : Registry :=
  r.update d.name fun entry => { entry with
    fields := (d.gatherFields declared).entries.toList
    methods := (d.gatherMethods declared).entries.toList
    constructors := (d.gatherConstructors declared).entries.toList }

end ClassDef

namespace Registry

/-- Declares classes, one after the other. -/
def declareAll (r : Registry) (ds : List ClassDef) : Registry × List Diagnostic :=
  ds.foldl (fun (r, found) d => let (r, more) := d.declare r; (r, found ++ more)) (r, [])

/-- Enters classes with their members, and gives all that is wrong with them. -/
def resolve (r : Registry) (ds : List ClassDef) : Registry × List Diagnostic :=
  let (declared, found) := r.declareAll ds
  let resolved := ds.foldl (fun r d => d.enterMembers declared r) declared
  (resolved, found ++ ds.flatMap (·.checkDeclarations declared) ++ ds.flatMap (·.checkInherited resolved))

end Registry

end ClassTree
