import ClassTree.ClassFile.Basic
import ClassTree.Registry.Host

/-!
# Loaded classes

A class as the machine uses it, with its superclass in it. Slots of the instance layout begin with those of the
superclass, so a field has the same slot in every subclass.
-/

namespace ClassTree

/-- What a method of the host library does. -/
inductive Native where
  /-- Nothing: the state of a new instance is right already. -/
  | init
  | objectToString
  | objectHashCode
  | objectEquals
  | stringLength
  | stringIsEmpty
  | stringConcat
  | stringToString
  | builderInit
  | builderAppend
  | builderLength
  | builderToString
deriving DecidableEq, Repr

structure LoadedField where
  name : String
  ty : Ty
  access : Modifiers
deriving DecidableEq

/-- One slot of an instance. -/
structure FieldSlot where
  /-- The class that declares the field. -/
  owner : Name
  name : String
  ty : Ty
deriving DecidableEq

inductive MethodBody where
  | abstract
  | code (maxLocals : UInt16) (code : Array UInt8)
  | native (n : Native)
deriving DecidableEq

structure LoadedMethod where
  name : String
  descriptor : String
  params : List Ty
  ret : Ty
  access : Modifiers
  body : MethodBody
deriving DecidableEq

namespace LoadedMethod

def isStatic (m : LoadedMethod) : Bool := m.access.isStatic

def isConstructor (m : LoadedMethod) : Bool := m.name = constructorName

/-- How messages name the method, by name and descriptor. -/
def text (m : LoadedMethod) : String := m.name ++ m.descriptor

end LoadedMethod

structure LoadedClass where
  name : Name
  access : Modifiers
  /-- Absent only for the root class. -/
  superclass : Option LoadedClass
  enclosing : Option Name
  /-- The classes nested directly in this one. -/
  nested : List Name
  /-- The fields that the class itself declares. -/
  fields : List LoadedField
  /-- The slots of an instance, those of the superclass first. -/
  layout : List FieldSlot
  methods : List LoadedMethod
  constants : Constants
  host : Option HostClass

/-- A method with the class that declares it. -/
structure Target where
  cls : LoadedClass
  method : LoadedMethod

namespace LoadedClass

def isHost (c : LoadedClass) : Bool := c.host.isSome
def isAbstract (c : LoadedClass) : Bool := c.access.isAbstract

/-- Whether instances belong to an instance of the enclosing class. -/
def isInner (c : LoadedClass) : Bool := c.enclosing.isSome && !c.access.isStatic

/-- The class and its superclasses, nearest first. -/
def chain : LoadedClass → List LoadedClass
  | c@⟨_, _, none, _, _, _, _, _, _, _⟩ => [c]
  | c@⟨_, _, some s, _, _, _, _, _, _, _⟩ => c :: s.chain

/-- How many superclass steps lead up to a class. -/
def distance? (c : LoadedClass) (ancestor : Name) : Option Nat := c.chain.findIdx? (·.name = ancestor)

/-! ## Members -/

/-- The slot of the field that a class declares under a name. -/
def slot? (c : LoadedClass) (owner name : String) : Option Nat :=
  c.layout.findIdx? fun s => s.name = name && s.owner.text = owner

/-- The last slot of a name: that of the class nearest to this one. -/
def slotNamed? (c : LoadedClass) (name : String) : Option Nat :=
  (c.layout.reverse.findIdx? (·.name = name)).map fun i => c.layout.length - 1 - i

/-- The method that the class itself declares. -/
def ownMethod? (c : LoadedClass) (name descriptor : String) : Option LoadedMethod :=
  c.methods.find? fun m => m.name = name && m.descriptor = descriptor

/-- The method that the class has or inherits. -/
def findMethod? (c : LoadedClass) (name descriptor : String) : Option Target :=
  c.chain.findSome? fun c => (c.ownMethod? name descriptor).map (⟨c, ·⟩)

/-- Adds a method unless one with the same descriptor is there. -/
def addTarget (found : List Target) (t : Target) : List Target :=
  if found.any (·.method.descriptor = t.method.descriptor) then found else found ++ [t]

/-- The methods of a name that take so many arguments, those of the nearest class first; an overridden one is left
out. -/
def methodsNamed (c : LoadedClass) (name : String) (argc : Nat) : List Target :=
  let all := c.chain.flatMap fun c =>
    (c.methods.filter fun m => m.name = name && m.params.length = argc).map (⟨c, ·⟩)
  all.foldl addTarget []

/-- The constructors that take so many arguments. -/
def constructors (c : LoadedClass) (argc : Nat) : List Target :=
  (c.methods.filter fun m => m.isConstructor && m.params.length = argc).map (⟨c, ·⟩)

end LoadedClass

/-! ## Classes from class files -/

namespace ClassFile

/-- The texts of inner and outer class of a nesting relation. -/
def nestingNames? (f : ClassFile) (i : InnerInfo) : Option (String × String) :=
  match f.constants.className? i.inner, f.constants.className? i.outer with
  | some inner, some outer => some (inner, outer)
  | _, _ => none

/-- The enclosing class; of several relations of the class itself the last counts. -/
def enclosing? (f : ClassFile) (relations : List (String × String)) : Option Name :=
  relations.foldl (fun found (inner, outer) => if f.name? = some inner then Name.parse? outer else found) none

/-- The classes nested in the class. -/
def nested? (f : ClassFile) (relations : List (String × String)) : Option (List Name) :=
  (relations.filter fun (inner, outer) => f.name? ≠ some inner && f.name? = some outer).mapM fun (inner, _) =>
    Name.parse? inner

def loadField? (f : ClassFile) (i : FieldInfo) : Option LoadedField := do
  let name ← f.constants.utf8? i.name
  let ty ← (f.constants.utf8? i.descriptor).bind Ty.ofDescriptor?
  return ⟨name, ty, i.access.truncate⟩

def loadMethod? (f : ClassFile) (m : MethodInfo) : Option LoadedMethod := do
  let name ← f.constants.utf8? m.name
  let descriptor ← f.constants.utf8? m.descriptor
  let sig ← Signature.ofDescriptor? descriptor
  let access := m.access.truncate
  let body := if access.isAbstract then .abstract else .code m.maxLocals m.code
  return { name, descriptor, params := sig.params, ret := sig.ret, access, body }

/-- The class of a class file with its superclass; none if a name or descriptor cannot be read. -/
def load? (f : ClassFile) (superclass : LoadedClass) : Option LoadedClass := do
  let name ← f.name?.bind Name.parse?
  let relations ← f.inner.mapM f.nestingNames?
  let nested ← f.nested? relations
  let fields ← f.fields.mapM f.loadField?
  let methods ← f.methods.mapM f.loadMethod?
  return {
    name, access := f.access.truncate, superclass := some superclass
    enclosing := f.enclosing? relations, nested, fields
    layout := superclass.layout ++ fields.map fun x => ⟨name, x.name, x.ty⟩
    methods, constants := f.constants, host := none }

end ClassFile

end ClassTree
