import ClassTree.Check
import ClassTree.Fold
import ClassTree.Resolution.Members

/-!
# Classes ready for code generation

What a class definition leaves unsaid is made explicit: the constructor of a class that declares none, the order of
superclass call, outer instance and field initialisers in a constructor, the outer instance as first parameter of an
inner class's constructors, and the return at the end of a body that can run off its end.
-/

namespace ClassTree

inductive LoweredBody where
  | abstract
  | method (stmts : List Stmt)
  /-- The parts of a constructor in the order in which they run. The initialisers see the receiver and the outer
  instance, but no declared parameter. -/
  | constructor (superArgs : List Expr) (initializers body : List Stmt)

structure LoweredField where
  name : String
  ty : Ty
  modifiers : Modifiers
deriving DecidableEq

structure LoweredMethod where
  name : String
  modifiers : Modifiers
  /-- The parameters as the descriptor has them. -/
  params : List Param
  ret : Ty
  body : LoweredBody

namespace LoweredMethod

def signature (m : LoweredMethod) : Signature := ⟨m.params.map (·.ty), m.ret⟩

def descriptor (m : LoweredMethod) : String := m.signature.descriptor

end LoweredMethod

structure LoweredClass where
  name : Name
  modifiers : Modifiers
  superclass : Name
  enclosing : Option Name
  fields : List LoweredField
  methods : List LoweredMethod

/-- What is done to expressions on the way: folding, or nothing. -/
def Expr.optimized (optimize : Bool) (e : Expr) : Expr := if optimize then e.fold else e

/-- Lowers statements; a return follows unless there is one on every path. -/
def lowerBody (optimize : Bool) (stmts : List Stmt) : List Stmt :=
  let stmts := Stmt.mapExprAll (Expr.optimized optimize) stmts
  if anyReturns stmts then stmts else stmts ++ [.ret none]

namespace ClassDef

/-- The class whose instances the instances of an inner class belong to. -/
def outerClass? (d : ClassDef) : Option Name := if d.isInner then d.enclosing else none

/-- Stores a value in a field of the current instance. -/
def storeField (name : String) (value : Expr) : Stmt := .expr (.assign (.field .this name) value)

/-- Stores the outer instance, then the initial values of the fields. -/
def initializers (optimize : Bool) (d : ClassDef) : List Stmt :=
  let outer := if d.outerClass?.isSome then [storeField outerField (.var outerField)] else []
  outer ++ d.fields.filterMap fun f => f.init.map fun e => storeField f.name (e.optimized optimize)

def lowerConstructor (optimize : Bool) (d : ClassDef) (k : ConstructorDef) : LoweredMethod :=
  let outer := d.outerClass?.toList.map fun n => ⟨outerField, .ref n⟩
  let (args, rest) := splitSuperCall k.body
  { name := constructorName, modifiers := k.modifiers, params := outer ++ k.params, ret := .void
    body := .constructor (args.map (Expr.optimized optimize)) (d.initializers optimize) (lowerBody optimize rest) }

def lowerMethod (optimize : Bool) (m : MethodDef) : LoweredMethod :=
  match m.body with
  | some body => ⟨m.name, m.modifiers, m.params, m.ret, .method (lowerBody optimize body)⟩
  | none => ⟨m.name, m.modifiers ||| .abstract, m.params, m.ret, .abstract⟩

/-- Makes a class ready for code generation; constructors come before methods. -/
def lower (optimize : Bool) (d : ClassDef) : LoweredClass where
  name := d.name
  modifiers := d.modifiers
  superclass := d.superclass
  enclosing := d.enclosing
  fields := d.fields.map (fun f => ⟨f.name, f.ty, f.modifiers⟩) ++
    d.outerClass?.toList.map fun n => ⟨outerField, .ref n, outerFieldModifiers⟩
  methods := d.allConstructors.map (d.lowerConstructor optimize) ++ d.methods.map (lowerMethod optimize)

end ClassDef

end ClassTree
