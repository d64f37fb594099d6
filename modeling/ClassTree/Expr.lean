import ClassTree.Double
import ClassTree.Ty

/-!
# Expressions
-/

namespace ClassTree

/-- A constant written in a tree. -/
inductive Literal where
  | null
  | bool (b : Bool)
  | int (n : Int32)
  | long (n : Int64)
  | double (d : Double)
  | str (s : String)
deriving DecidableEq

/-- The static type of a constant. -/
def Literal.ty : Literal → Ty
  | .null => .null
  | .bool _ => .boolean
  | .int _ => .int
  | .long _ => .long
  | .double _ => .double
  | .str _ => .string

inductive BinaryOp where
  | add | sub | mul | div | rem
  | eq | ne
  | lt | le | gt | ge
  | and | or
deriving DecidableEq, Repr

namespace BinaryOp

def isArithmetic : BinaryOp → Bool
  | .add | .sub | .mul | .div | .rem => true
  | _ => false

def isOrdering : BinaryOp → Bool
  | .lt | .le | .gt | .ge => true
  | _ => false

def isEquality : BinaryOp → Bool
  | .eq | .ne => true
  | _ => false

def isLogical : BinaryOp → Bool
  | .and | .or => true
  | _ => false

def symbol : BinaryOp → String
  | .add => "+"
  | .sub => "-"
  | .mul => "*"
  | .div => "/"
  | .rem => "%"
  | .eq => "=="
  | .ne => "!="
  | .lt => "<"
  | .le => "<="
  | .gt => ">"
  | .ge => ">="
  | .and => "&&"
  | .or => "||"

/-- All operators. -/
def all : List BinaryOp := [.add, .sub, .mul, .div, .rem, .eq, .ne, .lt, .le, .gt, .ge, .and, .or]

/-- The operator that a symbol stands for. -/
def ofSymbol? (s : String) : Option BinaryOp := all.find? (·.symbol = s)

end BinaryOp

inductive UnaryOp where
  | neg
  | not
deriving DecidableEq, Repr

def UnaryOp.symbol : UnaryOp → String
  | .neg => "-"
  | .not => "!"

inductive Expr where
  | lit (l : Literal)
  | var (name : String)
  | this
  /-- The instance of the enclosing class that an inner class's instance belongs to. -/
  | outer
  | field (target : Expr) (name : String)
  | assign (target value : Expr)
  | call (receiver : Expr) (method : String) (args : List Expr)
  | staticCall (cls : Name) (method : String) (args : List Expr)
  | new (cls : Name) (args : List Expr)
  | binary (op : BinaryOp) (left right : Expr)
  | unary (op : UnaryOp) (operand : Expr)

namespace Expr

def literal? : Expr → Option Literal
  | .lit l => some l
  | _ => none

/-- Whether the expression can stand on the left of an assignment. -/
def isAssignable : Expr → Bool
  | .var _ | .field _ _ => true
  | _ => false

end Expr

end ClassTree
