import ClassTree.Diagnostic

/-!
# Why an operation fails

One type of causes per stage: building a tree, registering classes, compiling a unit, defining a class in a loader,
running code. Each has one function `message` with its wording, and one `kind` with its stable name.
-/

namespace ClassTree

/-- Malformed input, found before any compilation stage runs. -/
inductive ConstructionError where
  | emptyName
  | invalidName (name reason : String)
  | duplicateClass (name : String)
  | nestedNameMismatch (name expected : String)
  | unitSealed (name : String)
deriving DecidableEq, Repr

def ConstructionError.message : ConstructionError → String
  | .emptyName => "class name must not be empty"
  | .invalidName name reason => s!"invalid class name '{name}': {reason}"
  | .duplicateClass name => s!"class '{name}' is already part of this compilation unit"
  | .nestedNameMismatch name expected => s!"nested class '{name}' must be named '{expected}'"
  | .unitSealed name => s!"cannot add class '{name}': compilation has already started"

/-- The stable name of the kind of failure. -/
def ConstructionError.kind : ConstructionError → String
  | .emptyName => "Construction.EmptyName"
  | .invalidName .. => "Construction.InvalidName"
  | .duplicateClass _ => "Construction.DuplicateClass"
  | .nestedNameMismatch .. => "Construction.NestedNameMismatch"
  | .unitSealed _ => "Construction.UnitSealed"

/-- A conflict between the classes of a registry. -/
inductive RegistrationError where
  | duplicateClass (name : String)
  | classNotFound (name : String)
deriving DecidableEq, Repr

def RegistrationError.message : RegistrationError → String
  | .duplicateClass name => s!"duplicate class: {name}"
  | .classNotFound name => s!"class not found: {name}"

/-- The stable name of the kind of failure. -/
def RegistrationError.kind : RegistrationError → String
  | .duplicateClass _ => "Registration.DuplicateClass"
  | .classNotFound _ => "Registration.ClassNotFound"

/-- Failure of a compilation. -/
inductive CompileError where
  /-- The findings of all classes, and the names of the classes that have errors. -/
  | semantic (diagnostics : List Diagnostic) (failed : List String)
  | empty
deriving DecidableEq, Repr

def CompileError.message : CompileError → String
  | .semantic ds failed => s!"{ds.length} semantic error(s) in {failed.length} class(es)"
  | .empty => "compilation unit contains no classes"

/-- The stable name of the kind of failure. -/
def CompileError.kind : CompileError → String
  | .semantic .. => "Compile.Semantic"
  | .empty => "Compile.Empty"

/-- Failure to define or to find a class in a loader. -/
inductive LoadError where
  | duplicateDefinition (name : String)
  | verification (cls reason : String)
  | undefinedDependency (cls dependency : String)
deriving DecidableEq, Repr

def LoadError.message : LoadError → String
  | .duplicateDefinition name => s!"class '{name}' is already defined in this loader"
  | .verification cls reason => s!"verification of class '{cls}' failed: {reason}"
  | .undefinedDependency cls dependency => s!"class '{cls}' depends on undefined class '{dependency}'"

/-- The stable name of the kind of failure. -/
def LoadError.kind : LoadError → String
  | .duplicateDefinition _ => "Load.DuplicateDefinition"
  | .verification .. => "Load.Verification"
  | .undefinedDependency .. => "Load.UndefinedDependency"

/-- Failure of running code. -/
inductive RuntimeError where
  | noSuchMethod (cls method : String)
  | noSuchField (cls field : String)
  | nullReference (member : String)
  | typeMismatch (expected actual : String)
  | divisionByZero
  | stackOverflow (depth : Nat)
  | abstractInstantiation (cls : String)
  | outerInstanceRequired (cls : String)
  | link (cause : LoadError)
  | invalidBytecode (method reason : String)
deriving DecidableEq, Repr

def RuntimeError.message : RuntimeError → String
  | .noSuchMethod cls method => s!"no method '{method}' on class '{cls}' accepts the given arguments"
  | .noSuchField cls field => s!"no field '{field}' on class '{cls}'"
  | .nullReference member => s!"null reference while accessing '{member}'"
  | .typeMismatch expected actual => s!"type mismatch: expected {expected}, got {actual}"
  | .divisionByZero => "division by zero"
  | .stackOverflow depth => s!"stack overflow (depth {depth})"
  | .abstractInstantiation cls => s!"cannot instantiate abstract class '{cls}'"
  | .outerInstanceRequired cls => s!"class '{cls}' requires an enclosing instance"
  | .link cause => cause.message
  | .invalidBytecode method reason => s!"invalid bytecode in '{method}': {reason}"

/-- The stable name of the kind of failure. -/
def RuntimeError.kind : RuntimeError → String
  | .noSuchMethod .. => "Runtime.NoSuchMethod"
  | .noSuchField .. => "Runtime.NoSuchField"
  | .nullReference _ => "Runtime.NullReference"
  | .typeMismatch .. => "Runtime.TypeMismatch"
  | .divisionByZero => "Runtime.DivisionByZero"
  | .stackOverflow _ => "Runtime.StackOverflow"
  | .abstractInstantiation _ => "Runtime.AbstractInstantiation"
  | .outerInstanceRequired _ => "Runtime.OuterInstanceRequired"
  | .link (.duplicateDefinition _) => "Runtime.Link.DuplicateDefinition"
  | .link (.verification ..) => "Runtime.Link.Verification"
  | .link (.undefinedDependency ..) => "Runtime.Link.UndefinedDependency"
  | .invalidBytecode .. => "Runtime.InvalidBytecode"

/-- Any failure, for callers that drive every stage. -/
inductive Error where
  | construction (cause : ConstructionError)
  | registration (cause : RegistrationError)
  | compile (cause : CompileError)
  | load (cause : LoadError)
  | runtime (cause : RuntimeError)
deriving DecidableEq, Repr

def Error.message : Error → String
  | .construction cause => cause.message
  | .registration cause => cause.message
  | .compile cause => cause.message
  | .load cause => cause.message
  | .runtime cause => cause.message

/-- The stable name of the kind of failure. -/
def Error.kind : Error → String
  | .construction cause => cause.kind
  | .registration cause => cause.kind
  | .compile cause => cause.kind
  | .load cause => cause.kind
  | .runtime cause => cause.kind

/-- For every kind of failure how one is made of the details `a` and `b` and the number `n`. A failed compilation has `n`
findings about the class `a`. -/
def Error.makers : List (String → String → Nat → Error) := [
  fun _ _ _ => .construction .emptyName,
  fun a b _ => .construction (.invalidName a b),
  fun a _ _ => .construction (.duplicateClass a),
  fun a b _ => .construction (.nestedNameMismatch a b),
  fun a _ _ => .construction (.unitSealed a),
  fun a _ _ => .registration (.duplicateClass a),
  fun a _ _ => .registration (.classNotFound a),
  fun a b n => .compile (.semantic (List.replicate n (.ofClass .typeMismatch a b)) [a]),
  fun _ _ _ => .compile .empty,
  fun a _ _ => .load (.duplicateDefinition a),
  fun a b _ => .load (.verification a b),
  fun a b _ => .load (.undefinedDependency a b),
  fun a b _ => .runtime (.noSuchMethod a b),
  fun a b _ => .runtime (.noSuchField a b),
  fun a _ _ => .runtime (.nullReference a),
  fun a b _ => .runtime (.typeMismatch a b),
  fun _ _ _ => .runtime .divisionByZero,
  fun _ _ n => .runtime (.stackOverflow n),
  fun a _ _ => .runtime (.abstractInstantiation a),
  fun a _ _ => .runtime (.outerInstanceRequired a),
  fun a _ _ => .runtime (.link (.duplicateDefinition a)),
  fun a b _ => .runtime (.link (.verification a b)),
  fun a b _ => .runtime (.link (.undefinedDependency a b)),
  fun a b _ => .runtime (.invalidBytecode a b)]

/-- The failure of a kind with given details. The kind of what is made does not depend on the details, so it is looked up
without any. -/
def Error.ofKind? (kind a b : String) (n : Nat) : Option Error :=
  (makers.find? fun make => (make "" "" 0).kind = kind).map fun make => make a b n

end ClassTree
