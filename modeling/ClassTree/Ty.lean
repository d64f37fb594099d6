import ClassTree.Name

/-!
# Static types

Types of fields, parameters, locals and results. `null` is the type of the null literal alone; `void` is the result of
a method that gives no value.
-/

namespace ClassTree

inductive Ty where
  | void
  | boolean
  | int
  | long
  | double
  | null
  /-- A reference to an instance of a class. -/
  | ref (name : Name)
deriving DecidableEq

namespace Ty

abbrev object : Ty := .ref .object
abbrev string : Ty := .ref .string
abbrev stringBuilder : Ty := .ref .stringBuilder

def isVoid (t : Ty) : Bool := t = .void

def isNumeric : Ty → Bool
  | .int | .long | .double => true
  | _ => false

def isPrimitive : Ty → Bool
  | .boolean | .int | .long | .double => true
  | _ => false

/-- Whether values of the type are references, which may be null. -/
def isReference : Ty → Bool
  | .null | .ref _ => true
  | _ => false

def isString (t : Ty) : Bool := t = .string

def className? : Ty → Option Name
  | .ref n => some n
  | _ => none

/-- Whether a number of the first type is silently made one of the second: `int → long → double`. -/
def widensTo : Ty → Ty → Bool
  | .int, .long | .int, .double | .long, .double => true
  | _, _ => false

/-- The wider of two numeric types. -/
def promote (a b : Ty) : Option Ty :=
  if a.isNumeric && b.isNumeric then
    some (if a = .double || b = .double then .double else if a = .long || b = .long then .long else .int)
  else none

/-- The written form. -/
def text : Ty → String
  | .void => "void"
  | .boolean => "boolean"
  | .int => "int"
  | .long => "long"
  | .double => "double"
  | .null => "null"
  | .ref n => n.text

instance : ToString Ty := ⟨text⟩

/-- The type that a written form stands for. -/
def parse (s : String) : Except ConstructionError Ty :=
  match [void, boolean, int, long, double, null].find? (·.text = s) with
  | some t => .ok t
  | none => (Name.parse s).map .ref

/-- Types as they stand in messages, `int, long`. -/
def listText (ts : List Ty) : String := ", ".intercalate (ts.map text)

end Ty

end ClassTree
