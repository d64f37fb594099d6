import ClassTree.Modifiers
import ClassTree.Stmt

/-!
# Class definitions

A class definition holds its members in declaration order and owns the definitions of the classes nested in it.
-/

namespace ClassTree

/-- A parameter of a method or constructor. -/
structure Param where
  name : String
  ty : Ty
deriving DecidableEq

/-- An instance field; its initial value is computed by every constructor after the superclass constructor has run. -/
structure FieldDef where
  name : String
  ty : Ty
  modifiers : Modifiers
  init : Option Expr

/-- A method, abstract if it has no body. -/
structure MethodDef where
  name : String
  modifiers : Modifiers
  params : List Param
  ret : Ty
  body : Option (List Stmt)

structure ConstructorDef where
  modifiers : Modifiers
  params : List Param
  body : List Stmt

inductive Member where
  | field (f : FieldDef)
  | method (m : MethodDef)
  | ctor (c : ConstructorDef)

/-- The name of every constructor. -/
def constructorName : String := "<init>"

/-- The field, and the constructor parameter, that holds the outer instance of an inner class. -/
def outerField : String := "this$0"

def outerFieldModifiers : Modifiers := .priv ||| .final ||| .synthetic

namespace Member

def name : Member → String
  | .field f => f.name
  | .method m => m.name
  | .ctor _ => constructorName

def modifiers : Member → Modifiers
  | .field f => f.modifiers
  | .method m => m.modifiers
  | .ctor c => c.modifiers

end Member

structure ClassDef where
  name : Name
  modifiers : Modifiers := .pub
  superclass : Name := .object
  members : List Member := []
  /-- The name of the class that this one is nested in. -/
  enclosing : Option Name := none
  nested : List ClassDef := []

namespace ClassDef

/-- A public class without members. -/
def ofName (name : Name) : ClassDef := { name }

def fields (c : ClassDef) : List FieldDef :=
  c.members.filterMap fun | .field f => some f | _ => none

def methods (c : ClassDef) : List MethodDef :=
  c.members.filterMap fun | .method m => some m | _ => none

def constructors (c : ClassDef) : List ConstructorDef :=
  c.members.filterMap fun | .ctor k => some k | _ => none

def isStatic (c : ClassDef) : Bool := c.modifiers.isStatic
def isAbstract (c : ClassDef) : Bool := c.modifiers.isAbstract

/-- Whether instances belong to an instance of the enclosing class. -/
def isInner (c : ClassDef) : Bool := c.enclosing.isSome && !c.isStatic

/-- A class called `simple` nested in `outer`, without members; it is not put into the tree of `outer`. -/
def nestedIn (outer : Name) (simple : String) (modifiers : Modifiers) : Except ConstructionError ClassDef := do
  return { name := ← outer.nested simple, modifiers, enclosing := some outer }

/-- Puts `inner` into the tree. It must carry the name of a class nested in this one, and name it as enclosing class. -/
def addNested (c inner : ClassDef) : Except ConstructionError ClassDef := do
  let expected ← c.name.nested inner.name.simpleName
  if inner.name = expected && inner.enclosing = some c.name then
    return { c with nested := c.nested ++ [inner] }
  else throw (.nestedNameMismatch inner.name.text expected.text)

def addMember (c : ClassDef) (m : Member) : ClassDef := { c with members := c.members ++ [m] }

/-- Adds a method without a body and marks it abstract. -/
def addAbstractMethod (c : ClassDef) (name : String) (modifiers : Modifiers) (ret : Ty) (params : List Param) :
    ClassDef :=
  c.addMember (.method { name, modifiers := modifiers ||| .abstract, params, ret, body := none })

mutual

/-- The class and all classes nested in it at any depth, each before those nested in it. -/
def flatten : ClassDef → List ClassDef
  | c@⟨_, _, _, _, _, nested⟩ => c :: flattenAll nested

def flattenAll : List ClassDef → List ClassDef
  | [] => []
  | c :: rest => c.flatten ++ flattenAll rest

end

end ClassDef

end ClassTree
