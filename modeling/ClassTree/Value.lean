import ClassTree.Expr
import ClassTree.Number

/-!
# Run-time values
-/

namespace ClassTree

/-- What a local slot, a field or a place of the operand stack holds. -/
inductive Value where
  | null
  | bool (b : Bool)
  | int (n : Int32)
  | long (n : Int64)
  | double (d : Double)
  /-- An instance of the class of immutable text. -/
  | str (s : String)
  /-- An instance of any other class, by its place in the heap. -/
  | object (id : Nat)
deriving DecidableEq

namespace Value

def ofLiteral : Literal → Value
  | .null => .null
  | .bool b => .bool b
  | .int n => .int n
  | .long n => .long n
  | .double d => .double d
  | .str s => .str s

/-- The value of a field of a type before one is assigned. -/
def defaultOf : Ty → Value
  | .boolean => .bool false
  | .int => .int 0
  | .long => .long 0
  | .double => .double (.zero false)
  | _ => .null

def isNull (v : Value) : Bool := v = .null

def bool? : Value → Option Bool
  | .bool b => some b
  | _ => none

def int? : Value → Option Int32
  | .int n => some n
  | _ => none

def long? : Value → Option Int64
  | .long n => some n
  | _ => none

def double? : Value → Option Double
  | .double d => some d
  | _ => none

def str? : Value → Option String
  | .str s => some s
  | _ => none

def object? : Value → Option Nat
  | .object id => some id
  | _ => none

/-- The number that a numeric value is. -/
def number? : Value → Option Number
  | .int n => some (.int n)
  | .long n => some (.long n)
  | .double d => some (.double d)
  | _ => none

/-- Equality of values of one kind; objects are equal only to themselves, and doubles as numbers are. -/
def same : Value → Value → Bool
  | .double a, .double b => a.equal b
  | a, b => a = b

/-- Equality as the comparing instructions see it: numbers of different types are compared as doubles. -/
def looseEq : Value → Value → Bool
  | .null, .null => true
  | .bool a, .bool b => a = b
  | .str a, .str b => a = b
  | .object a, .object b => a = b
  | a, b =>
    match a.number?, b.number? with
    | some (.int x), some (.int y) => x = y
    | some (.long x), some (.long y) => x = y
    | some x, some y => x.toDouble.equal y.toDouble
    | _, _ => false

end Value

end ClassTree
