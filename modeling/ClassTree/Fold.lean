import ClassTree.Number
import ClassTree.Stmt

/-!
# Constant folding

An operator between constants is replaced by its result. A division of integers by zero stays, because it fails when it
is run, and so does a comparison of doubles that have no order.
-/

namespace ClassTree

namespace Literal

/-- The number that a numeric constant is. -/
def number? : Literal → Option Number
  | .int n => some (.int n)
  | .long n => some (.long n)
  | .double d => some (.double d)
  | _ => none

/-- The truth of a comparison, given how its operands are ordered. -/
def ofOrdering? (op : BinaryOp) (ord : Ordering) : Option Literal :=
  match op with
  | .eq => some (.bool (ord = .eq))
  | .ne => some (.bool (ord ≠ .eq))
  | .lt => some (.bool (ord = .lt))
  | .le => some (.bool (ord ≠ .gt))
  | .gt => some (.bool (ord = .gt))
  | .ge => some (.bool (ord ≠ .lt))
  | _ => none

def foldInts? (op : BinaryOp) (a b : Int32) : Option Literal :=
  match op with
  | .add => some (.int (a + b))
  | .sub => some (.int (a - b))
  | .mul => some (.int (a * b))
  | .div => if b = 0 then none else some (.int (a / b))
  | .rem => if b = 0 then none else some (.int (a % b))
  | _ => ofOrdering? op (compare a.toInt b.toInt)

def foldLongs? (op : BinaryOp) (a b : Int64) : Option Literal :=
  match op with
  | .add => some (.long (a + b))
  | .sub => some (.long (a - b))
  | .mul => some (.long (a * b))
  | .div => if b = 0 then none else some (.long (a / b))
  | .rem => if b = 0 then none else some (.long (a % b))
  | _ => ofOrdering? op (compare a.toInt b.toInt)

def foldDoubles? (op : BinaryOp) (a b : Double) : Option Literal :=
  match op with
  | .add => some (.double (a + b))
  | .sub => some (.double (a - b))
  | .mul => some (.double (a * b))
  | .div => some (.double (a / b))
  | .rem => some (.double (a % b))
  | _ => (a.compare? b).bind (ofOrdering? op)

/-- An operator between numbers, which are first widened to the wider of their types. -/
def foldNumbers? (op : BinaryOp) : Number → Number → Option Literal
  | .int a, .int b => foldInts? op a b
  | .int a, .long b => foldLongs? op a.toInt64 b
  | .long a, .int b => foldLongs? op a b.toInt64
  | .long a, .long b => foldLongs? op a b
  | .int a, .double b => foldDoubles? op (.ofInt a.toInt) b
  | .long a, .double b => foldDoubles? op (.ofInt a.toInt) b
  | .double a, .int b => foldDoubles? op a (.ofInt b.toInt)
  | .double a, .long b => foldDoubles? op a (.ofInt b.toInt)
  | .double a, .double b => foldDoubles? op a b

def foldBools? (op : BinaryOp) (a b : Bool) : Option Literal :=
  match op with
  | .and => some (.bool (a && b))
  | .or => some (.bool (a || b))
  | .eq => some (.bool (a == b))
  | .ne => some (.bool (a != b))
  | _ => none

/-- The constant that an operator between constants comes to. -/
def foldBinary? (op : BinaryOp) : Literal → Literal → Option Literal
  | .str a, .str b => if op = .add then some (.str (a ++ b)) else none
  | .bool a, .bool b => foldBools? op a b
  | a, b =>
    match a.number?, b.number? with
    | some x, some y => foldNumbers? op x y
    | _, _ => none

/-- The constant that an operator on a constant comes to. -/
def foldUnary? : UnaryOp → Literal → Option Literal
  | .neg, .int n => some (.int (-n))
  | .neg, .long n => some (.long (-n))
  | .neg, .double d => some (.double (-d))
  | .not, .bool b => some (.bool !b)
  | _, _ => none

end Literal

namespace Expr

/-- An operator between expressions that are folded already. -/
def foldedBinary (op : BinaryOp) (left right : Expr) : Expr :=
  match left, right with
  | .lit a, .lit b =>
    match Literal.foldBinary? op a b with
    | some l => .lit l
    | none => .binary op left right
  | _, _ => .binary op left right

/-- An operator on an expression that is folded already. -/
def foldedUnary (op : UnaryOp) (operand : Expr) : Expr :=
  match operand with
  | .lit a =>
    match Literal.foldUnary? op a with
    | some l => .lit l
    | none => .unary op operand
  | _ => .unary op operand

mutual

/-- Replaces all that can be computed from constants alone. -/
def fold : Expr → Expr
  | .lit l => .lit l
  | .var name => .var name
  | .this => .this
  | .outer => .outer
  | .field target name => .field target.fold name
  | .assign target value => .assign target.fold value.fold
  | .call receiver method args => .call receiver.fold method (foldAll args)
  | .staticCall cls method args => .staticCall cls method (foldAll args)
  | .new cls args => .new cls (foldAll args)
  | .binary op left right => foldedBinary op left.fold right.fold
  | .unary op operand => foldedUnary op operand.fold

def foldAll : List Expr → List Expr
  | [] => []
  | e :: rest => e.fold :: foldAll rest

end

end Expr

namespace Stmt

mutual

/-- Applies a function to every expression of a statement. -/
def mapExpr (f : Expr → Expr) : Stmt → Stmt
  | .block stmts => .block (mapExprFrom f stmts [])
  | .decl name ty init => .decl name ty (init.map f)
  | .expr e => .expr (f e)
  | .ret value => .ret (value.map f)
  | .cond test t none => .cond (f test) (t.mapExpr f) none
  | .cond test t (some e) => .cond (f test) (t.mapExpr f) (some (e.mapExpr f))
  | .loop test body => .loop (f test) (body.mapExpr f)
  | .superCall args => .superCall (args.map f)

/-- Applies a function to every expression of statements; `acc` holds the statements before them, reversed. -/
def mapExprFrom (f : Expr → Expr) : List Stmt → List Stmt → List Stmt
  | [], acc => acc.reverse
  | s :: rest, acc => mapExprFrom f rest (s.mapExpr f :: acc)

end

/-- Applies a function to every expression of statements. -/
def mapExprAll (f : Expr → Expr) (stmts : List Stmt) : List Stmt := mapExprFrom f stmts []

end Stmt

end ClassTree
