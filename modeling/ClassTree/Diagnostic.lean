/-!
# Diagnostics

A class tree has no source text, so a finding is located by the class, and by the member when it is known, rather
than by a line. A `Diagnostic` holds one finding; what a stage reports is a list of them in the order found.
-/

namespace ClassTree

/-- What kind of finding a diagnostic is. -/
inductive DiagnosticCode where
  | unknownType
  | unknownEnclosingClass
  | invalidSuperclass
  | circularInheritance
  | duplicateMember
  | invalidModifiers
  | unknownVariable
  | unknownField
  | unknownMethod
  | noMatchingOverload
  | ambiguousCall
  | typeMismatch
  | invalidOperand
  | invalidAssignmentTarget
  | duplicateVariable
  | missingReturn
  | staticContext
  | noOuterInstance
  | abstractInstantiation
  | notAnObject
  | misplacedSuperCall
  | codegenLimit
deriving DecidableEq, Repr

/-- The stable short code that is printed: `CF00xx` for declarations, `CF01xx` for bodies, `CF02xx` for limits. -/
def DiagnosticCode.text : DiagnosticCode → String
  | .unknownType => "CF0001"
  | .unknownEnclosingClass => "CF0002"
  | .invalidSuperclass => "CF0003"
  | .circularInheritance => "CF0004"
  | .duplicateMember => "CF0005"
  | .invalidModifiers => "CF0006"
  | .unknownVariable => "CF0101"
  | .unknownField => "CF0102"
  | .unknownMethod => "CF0103"
  | .noMatchingOverload => "CF0104"
  | .ambiguousCall => "CF0105"
  | .typeMismatch => "CF0106"
  | .invalidOperand => "CF0107"
  | .invalidAssignmentTarget => "CF0108"
  | .duplicateVariable => "CF0109"
  | .missingReturn => "CF0110"
  | .staticContext => "CF0111"
  | .noOuterInstance => "CF0112"
  | .abstractInstantiation => "CF0113"
  | .notAnObject => "CF0114"
  | .misplacedSuperCall => "CF0115"
  | .codegenLimit => "CF0201"

/-- The name of a kind of finding. -/
def DiagnosticCode.label : DiagnosticCode → String
  | .unknownType => "UnknownType"
  | .unknownEnclosingClass => "UnknownEnclosingClass"
  | .invalidSuperclass => "InvalidSuperclass"
  | .circularInheritance => "CircularInheritance"
  | .duplicateMember => "DuplicateMember"
  | .invalidModifiers => "InvalidModifiers"
  | .unknownVariable => "UnknownVariable"
  | .unknownField => "UnknownField"
  | .unknownMethod => "UnknownMethod"
  | .noMatchingOverload => "NoMatchingOverload"
  | .ambiguousCall => "AmbiguousCall"
  | .typeMismatch => "TypeMismatch"
  | .invalidOperand => "InvalidOperand"
  | .invalidAssignmentTarget => "InvalidAssignmentTarget"
  | .duplicateVariable => "DuplicateVariable"
  | .missingReturn => "MissingReturn"
  | .staticContext => "StaticContext"
  | .noOuterInstance => "NoOuterInstance"
  | .abstractInstantiation => "AbstractInstantiation"
  | .notAnObject => "NotAnObject"
  | .misplacedSuperCall => "MisplacedSuperCall"
  | .codegenLimit => "CodegenLimit"

/-- All kinds of findings. -/
def DiagnosticCode.all : List DiagnosticCode := [
  .unknownType, .unknownEnclosingClass, .invalidSuperclass, .circularInheritance, .duplicateMember,
  .invalidModifiers, .unknownVariable, .unknownField, .unknownMethod, .noMatchingOverload, .ambiguousCall,
  .typeMismatch, .invalidOperand, .invalidAssignmentTarget, .duplicateVariable, .missingReturn, .staticContext,
  .noOuterInstance, .abstractInstantiation, .notAnObject, .misplacedSuperCall, .codegenLimit]

/-- The kind of finding that a name stands for. -/
def DiagnosticCode.ofLabel? (s : String) : Option DiagnosticCode := all.find? (·.label = s)

/-- How grave a finding is: only an error stops a class from getting an artifact. -/
inductive Severity where
  | warning
  | error
deriving DecidableEq, Repr

def Severity.text : Severity → String
  | .warning => "warning"
  | .error => "error"

/-- One finding about the class called `cls`, or about its member. -/
structure Diagnostic where
  code : DiagnosticCode
  severity : Severity := .error
  cls : String
  member : Option String := none
  message : String
deriving DecidableEq, Repr

namespace Diagnostic

/-- An error about a class as a whole. -/
def ofClass (code : DiagnosticCode) (cls message : String) : Diagnostic := ⟨code, .error, cls, none, message⟩

/-- An error about one member of a class. -/
def ofMember (code : DiagnosticCode) (cls member message : String) : Diagnostic :=
  ⟨code, .error, cls, some member, message⟩

def isError (d : Diagnostic) : Bool := d.severity = .error

/-- The printed line, `severity[CODE]: class[.member]: message`. -/
def render (d : Diagnostic) : String :=
  let place := match d.member with
    | some m => d.cls ++ "." ++ m
    | none => d.cls
  s!"{d.severity.text}[{d.code.text}]: {place}: {d.message}"

/-- How many of the findings are errors. -/
def errorCount (ds : List Diagnostic) : Nat := ds.countP isError

/-- Whether some finding is an error. -/
def hasErrors (ds : List Diagnostic) : Bool := ds.any isError

end Diagnostic

end ClassTree
