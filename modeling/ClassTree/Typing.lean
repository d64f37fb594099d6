import ClassTree.Scope
import ClassTree.Typing.Context

/-!
# Types of expressions

`typeOf` gives the static type of an expression, or says why it has none. Overloads, fields and widenings that code
generation uses are the ones found here.
-/

namespace ClassTree

/-- What a bare name means. -/
inductive VarTarget where
  | slot (v : Local)
  /-- A field of the current instance. -/
  | field (f : FieldEntry)

/-- The types that a binary operation works on. -/
structure BinaryTyping where
  /-- The type that both operands are widened to, if they are numbers. -/
  operand : Option Ty
  result : Ty
  /-- Whether the operands are joined as texts. -/
  isConcat : Bool
deriving DecidableEq

namespace Context

/-- Fails in a static method. -/
def requireInstance (c : Context) (what : String) : Except Diagnostic Unit :=
  if c.isStatic then .error (c.report .staticContext s!"{what} is not available in a static method") else .ok ()

/-- The meaning of a bare name: a local variable, or else a field of the class. -/
def lookupVar (c : Context) (scope : Scope) (name : String) : Except Diagnostic VarTarget :=
  match scope.lookup? name with
  | some v => .ok (.slot v)
  | none =>
    match c.registry.findField? c.cls.name name with
    | some f => do
      c.requireInstance s!"field '{name}'"
      return .field f
    | none => .error (c.report .unknownVariable s!"unknown variable '{name}'")

def classEntry (c : Context) (name : Name) : Except Diagnostic ClassEntry :=
  match c.registry.get? name with
  | some e => .ok e
  | none => .error (c.report .unknownType s!"unknown class '{name.text}'")

/-- The class in which a member of a value is looked up. -/
def receiverClass (c : Context) (t : Ty) (member : String) : Except Diagnostic ClassEntry :=
  match t with
  | .ref name => c.classEntry name
  | t => .error (c.report .notAnObject s!"cannot access '{member}' on a value of type '{t.text}'")

/-- The field of a value. -/
def field (c : Context) (owner : Ty) (name : String) : Except Diagnostic FieldEntry := do
  let cls ← c.receiverClass owner name
  match c.registry.findField? cls.name name with
  | some f => return f
  | none => throw (c.report .unknownField s!"class '{cls.name.text}' has no field '{name}'")

/-- The candidate that is chosen, or a finding. -/
def pick (c : Context) (name : String) (args : List Ty) : Registry.Choice → Except Diagnostic MethodEntry
  | .found m => .ok m
  | .noMatch => .error (c.report .noMatchingOverload s!"no overload of '{name}' accepts ({Ty.listText args})")
  | .ambiguous ms =>
    let names := " and ".intercalate (ms.map MethodEntry.text)
    .error (c.report .ambiguousCall s!"call to '{name}' with ({Ty.listText args}) is ambiguous between {names}")

/-- The methods of a name, of which there must be one. -/
def methodsNamed (c : Context) (cls : ClassEntry) (name : String) : Except Diagnostic (List MethodEntry) :=
  match c.registry.findMethods cls.name name with
  | [] => .error (c.report .unknownMethod s!"class '{cls.name.text}' has no method '{name}'")
  | ms => .ok ms

/-- The method that a call on a value means. -/
def method (c : Context) (receiver : Ty) (name : String) (args : List Ty) : Except Diagnostic MethodEntry := do
  let cls ← c.receiverClass receiver name
  let candidates ← c.methodsNamed cls name
  c.pick name args (c.registry.select candidates args)

/-- The method that a call on a class means. -/
def staticMethod (c : Context) (cls : Name) (name : String) (args : List Ty) : Except Diagnostic MethodEntry := do
  let cls ← c.classEntry cls
  let candidates ← c.methodsNamed cls name
  match candidates.filter (·.isStatic) with
  | [] => throw (c.report .staticContext s!"method '{cls.name.text}.{name}' is not static")
  | statics => c.pick name args (c.registry.select statics args)

/-- The constructor that a class creation means. -/
def constructor (c : Context) (cls : Name) (args : List Ty) : Except Diagnostic MethodEntry := do
  let entry ← c.classEntry cls
  if entry.isAbstract then
    throw (c.report .abstractInstantiation s!"cannot instantiate abstract class '{cls.text}'")
  if entry.isInner then
    let _ ← c.outerInstance entry
  c.pick constructorName args (c.registry.resolveConstructor cls args)

/-- The superclass constructor that a call with arguments of these types means. -/
def superConstructor (c : Context) (args : List Ty) : Except Diagnostic MethodEntry :=
  match c.cls.superclass with
  | some s => c.pick "super" args (c.registry.resolveConstructor s args)
  | none => .error (c.report .invalidSuperclass "class has no superclass")

/-- The types that a binary operation on operands of these types works on. -/
def binary (c : Context) (op : BinaryOp) (l r : Ty) : Except Diagnostic BinaryTyping :=
  let invalid : Except Diagnostic BinaryTyping :=
    .error (c.report .invalidOperand s!"operator '{op.symbol}' cannot be applied to '{l.text}' and '{r.text}'")
  if op = .add && (l.isString || r.isString) then
    if l.isVoid || r.isVoid then invalid else .ok ⟨none, .string, true⟩
  else if op.isArithmetic || op.isOrdering then
    match l.promote r with
    | some t => .ok ⟨some t, if op.isOrdering then .boolean else t, false⟩
    | none => invalid
  else if op.isEquality then
    match l.promote r with
    | some t => .ok ⟨some t, .boolean, false⟩
    | none =>
      if (l = .boolean && r = .boolean) || (l.isReference && r.isReference) then .ok ⟨none, .boolean, false⟩
      else invalid
  else if l = .boolean && r = .boolean then .ok ⟨none, .boolean, false⟩
  else invalid

/-- The type of a unary operation, which is that of its operand. -/
def unary (c : Context) (op : UnaryOp) (t : Ty) : Except Diagnostic Ty :=
  let fits : Bool := match op with
    | .neg => t.isNumeric
    | .not => t = .boolean
  if fits then .ok t
  else .error (c.report .invalidOperand s!"operator '{op.symbol}' cannot be applied to '{t.text}'")

/-- Fails unless a value of the first type may stand where the second is expected. -/
def expectAssignable (c : Context) (source target : Ty) : Except Diagnostic Unit :=
  if c.registry.isAssignable source target then .ok ()
  else .error (c.report .typeMismatch s!"expected '{target.text}', found '{source.text}'")

/-- The type of the outer instance. -/
def outerType (c : Context) : Except Diagnostic Ty := do
  c.requireInstance "the enclosing instance"
  match c.cls.enclosing, c.cls.isInner with
  | some outer, true => return .ref outer
  | _, _ => throw (c.report .noOuterInstance s!"'{c.cls.name.text}' has no enclosing instance")

/-- The finding about a variable that cannot be declared. -/
def declareError (c : Context) (name : String) : DeclareError → Diagnostic
  | .duplicate => c.report .duplicateVariable s!"variable '{name}' is already declared"
  | .tooManyLocals => c.report .codegenLimit "method declares too many local variables"

/-- The finding about an assignment to what is neither a variable nor a field. -/
def invalidTarget (c : Context) : Diagnostic :=
  c.report .invalidAssignmentTarget "only variables and fields can be assigned"

/-- Fails unless an expression can stand on the left of an assignment. -/
def requireAssignable (c : Context) (target : Expr) : Except Diagnostic Unit :=
  if target.isAssignable then .ok () else .error c.invalidTarget

mutual

/-- The static type of an expression. -/
def typeOf (c : Context) (scope : Scope) : Expr → Except Diagnostic Ty
  | .lit l => .ok l.ty
  | .var name => do
    match ← c.lookupVar scope name with
    | .slot v => return v.ty
    | .field f => return f.ty
  | .this => do
    c.requireInstance "this"
    return c.thisType
  | .outer => c.outerType
  | .field target name => do
    let t ← c.typeOf scope target
    return (← c.field t name).ty
  | .assign target value => do
    c.requireAssignable target
    let t ← c.typeOf scope target
    let v ← c.typeOf scope value
    c.expectAssignable v t
    return t
  | .call receiver method args => do
    let r ← c.typeOf scope receiver
    let ts ← c.typesOf scope args
    return (← c.method r method ts).ret
  | .staticCall cls method args => do
    let ts ← c.typesOf scope args
    return (← c.staticMethod cls method ts).ret
  | .new cls args => do
    let ts ← c.typesOf scope args
    let _ ← c.constructor cls ts
    return .ref cls
  | .binary op left right => do
    let l ← c.typeOf scope left
    let r ← c.typeOf scope right
    return (← c.binary op l r).result
  | .unary op operand => do
    let t ← c.typeOf scope operand
    c.unary op t

/-- The static types of expressions. -/
def typesOf (c : Context) (scope : Scope) : List Expr → Except Diagnostic (List Ty)
  | [] => .ok []
  | e :: rest => do
    let t ← c.typeOf scope e
    let ts ← c.typesOf scope rest
    return t :: ts

end

end Context

end ClassTree
