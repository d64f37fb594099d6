import ClassTree.Registry.Overload

/-!
# Where a body stands

The class and member that a body belongs to, as far as the meaning of its expressions depends on them.
-/

namespace ClassTree

/-- Where the outer instance of a new inner class instance comes from. -/
inductive OuterSource where
  /-- The current instance. -/
  | this
  /-- The outer instance of the current one. -/
  | outerOfThis
deriving DecidableEq, Repr

structure Context where
  registry : Registry
  cls : ClassEntry
  /-- How findings name the member. -/
  member : String
  isStatic : Bool
  ret : Ty

namespace Context

def ofMethod (r : Registry) (cls : ClassEntry) (m : MethodDef) : Context :=
  ⟨r, cls, m.name, m.modifiers.isStatic, m.ret⟩

def ofConstructor (r : Registry) (cls : ClassEntry) : Context := ⟨r, cls, constructorName, false, .void⟩

/-- Field initialisers run inside every constructor. -/
def ofField (r : Registry) (cls : ClassEntry) (f : FieldDef) : Context := { ofConstructor r cls with member := f.name }

/-- A finding about the member. -/
def report (c : Context) (code : DiagnosticCode) (message : String) : Diagnostic :=
  .ofMember code c.cls.name.text c.member message

def thisType (c : Context) : Ty := .ref c.cls.name

/-- Where an instance to which a new instance of the inner class `target` can belong comes from. -/
def outerInstance (c : Context) (target : ClassEntry) : Except Diagnostic OuterSource :=
  match target.enclosing with
  | none => .error (c.report .noOuterInstance "no enclosing instance of type '' is available")
  | some enclosing =>
    let missing := c.report .noOuterInstance s!"no enclosing instance of type '{enclosing.text}' is available"
    if c.isStatic then .error missing
    else if c.registry.isSubclassOf c.cls.name enclosing then .ok .this
    else
      match c.cls.enclosing with
      | some own => if c.cls.isInner && c.registry.isSubclassOf own enclosing then .ok .outerOfThis else .error missing
      | none => .error missing

end Context

end ClassTree
