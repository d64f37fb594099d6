import ClassTree.Registry.Inheritance

/-!
# The place of a class in the hierarchy

What is wrong with a superclass by itself, and what the members of a class owe to those that it inherits.
-/

namespace ClassTree.ClassDef

/-- Why a class cannot extend the class that it names. -/
def superclassProblem? (r : Registry) (d : ClassDef) : Option String :=
  match r.get? d.superclass with
  | none => some s!"superclass '{d.superclass.text}' is not defined"
  | some entry =>
    if d.superclass = d.name then some s!"class '{d.name.text}' cannot extend itself"
    else if entry.isHost && d.superclass ≠ .object then some s!"host class '{d.superclass.text}' cannot be extended"
    else if entry.modifiers.isFinal then some s!"superclass '{d.superclass.text}' is final"
    else if entry.isInner then some s!"inner class '{d.superclass.text}' cannot be extended"
    else none

def checkSuperclass (r : Registry) (d : ClassDef) : List Diagnostic :=
  let code : DiagnosticCode := if d.superclass = d.name then .circularInheritance else .invalidSuperclass
  (d.superclassProblem? r).toList.map (.ofClass code d.name.text)

/-- The enclosing class must be one that is compiled too. -/
def checkEnclosing (r : Registry) (d : ClassDef) : List Diagnostic :=
  match d.enclosing with
  | none => []
  | some outer =>
    if (r.get? outer).any (!·.isHost) then []
    else [.ofClass .unknownEnclosingClass d.name.text s!"enclosing class '{outer.text}' is not part of the unit"]

/-- A method that overrides another keeps its result type, and does not replace a final one. -/
def checkOverride (d : ClassDef) (ancestors : List ClassEntry) (m : MethodEntry) : List Diagnostic :=
  match (ancestors.flatMap (·.ownMethods m.name)).find? (·.params = m.params) with
  | none => []
  | some base =>
    (if base.ret ≠ m.ret then
      [.ofMember .typeMismatch d.name.text m.name s!"override of '{base.text}' changes the return type"] else []) ++
    (if base.modifiers.isFinal then
      [.ofMember .invalidModifiers d.name.text m.name s!"'{base.text}' is final in '{base.owner.text}'"] else [])

/-- Whether the class has a method with a body in the place of an abstract one. -/
def implements (r : Registry) (d : ClassDef) (m : MethodEntry) : Bool :=
  ((r.findMethods d.name m.name).find? (·.params = m.params)).any (!·.modifiers.isAbstract)

/-- A class that is not abstract implements every abstract method that it inherits. -/
def checkImplemented (r : Registry) (d : ClassDef) (ancestors : List ClassEntry) : List Diagnostic :=
  let missing := (ancestors.flatMap (·.methods)).filter fun m => m.modifiers.isAbstract && !d.implements r m
  missing.map fun m =>
    .ofClass .invalidModifiers d.name.text
      s!"class must be abstract or implement '{m.text}' from '{m.owner.text}'"

/-- The findings about a class that need the members of its superclasses. Those of a class that inherits from itself are
not looked at. -/
def checkInherited (r : Registry) (d : ClassDef) : List Diagnostic :=
  if d.superclass ≠ d.name && r.inheritance.isCyclic d.name then
    [.ofClass .circularInheritance d.name.text s!"class '{d.name.text}' inherits from itself"]
  else
    match r.get? d.name with
    | none => []
    | some entry =>
      let ancestors := (r.chain d.name).drop 1
      entry.methods.flatMap (d.checkOverride ancestors) ++
        (if entry.isAbstract then [] else d.checkImplemented r ancestors)

end ClassTree.ClassDef
