import ClassTree.ClassDef
import ClassTree.Digest
import ClassTree.Ty.Descriptor

/-!
# What is known of a class outside its bodies
-/

namespace ClassTree

/-- A field as others see it. -/
structure FieldEntry where
  owner : Name
  name : String
  ty : Ty
  modifiers : Modifiers
deriving DecidableEq

/-- A method or constructor as others see it. -/
structure MethodEntry where
  owner : Name
  name : String
  modifiers : Modifiers
  params : List Ty
  ret : Ty
  /-- Whether it was entered as a constructor. -/
  asConstructor : Bool := false
deriving DecidableEq

namespace MethodEntry

/-- The entry of a constructor. -/
def constructor (owner : Name) (modifiers : Modifiers) (params : List Ty) : MethodEntry :=
  { owner, name := constructorName, modifiers, params, ret := .void, asConstructor := true }

/-- Whether it bears the name of constructors. -/
def isConstructor (m : MethodEntry) : Bool := m.name = constructorName

def isStatic (m : MethodEntry) : Bool := m.modifiers.isStatic

def signature (m : MethodEntry) : Signature := ⟨m.params, m.ret⟩

def descriptor (m : MethodEntry) : String := m.signature.descriptor

/-- The form used in messages, `name(int, lang.String)`. -/
def text (m : MethodEntry) : String := s!"{m.name}({Ty.listText m.params})"

/-- The identity of owner, name and parameters. -/
def digest (m : MethodEntry) : Digest :=
  let owner := Digest.ofClass m.owner.text
  let params := m.params.map Ty.descriptor
  if m.asConstructor then .ofConstructor owner params else .ofMethod owner m.name params

end MethodEntry

/-- A class as others see it. -/
structure ClassEntry where
  name : Name
  modifiers : Modifiers
  /-- Absent only for the root class. -/
  superclass : Option Name := none
  enclosing : Option Name := none
  /-- Whether the class is part of the library that every program can use. -/
  isHost : Bool := false
  fields : List FieldEntry := []
  methods : List MethodEntry := []
  /-- Constructors with their declared parameters; the outer instance of an inner class is not among them. -/
  constructors : List MethodEntry := []
deriving DecidableEq

namespace ClassEntry

/-- Whether instances belong to an instance of the enclosing class. -/
def isInner (c : ClassEntry) : Bool := c.enclosing.isSome && !c.modifiers.isStatic

def isAbstract (c : ClassEntry) : Bool := c.modifiers.isAbstract

/-- The first field of that name that the class itself declares. -/
def ownField? (c : ClassEntry) (name : String) : Option FieldEntry := c.fields.find? (·.name = name)

/-- The methods of that name that the class itself declares. -/
def ownMethods (c : ClassEntry) (name : String) : List MethodEntry := c.methods.filter (·.name = name)

end ClassEntry

end ClassTree
