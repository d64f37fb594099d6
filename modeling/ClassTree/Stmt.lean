import ClassTree.Expr

/-!
# Statements
-/

namespace ClassTree

inductive Stmt where
  | block (stmts : List Stmt)
  /-- Declares a local variable; without an initial value it gets the default of its type. -/
  | decl (name : String) (ty : Ty) (init : Option Expr)
  | expr (e : Expr)
  | ret (value : Option Expr)
  | cond (test : Expr) (thenBranch : Stmt) (elseBranch : Option Stmt)
  | loop (test : Expr) (body : Stmt)
  /-- Calls the superclass constructor; only the first statement of a constructor. -/
  | superCall (args : List Expr)

mutual

/-- Whether every way through the statement ends in a return; a loop is taken to run zero times. -/
def Stmt.alwaysReturns : Stmt → Bool
  | .ret _ => true
  | .block stmts => anyReturns stmts
  | .cond _ t (some e) => t.alwaysReturns && e.alwaysReturns
  | _ => false

/-- Whether some statement of a list always returns. -/
def anyReturns : List Stmt → Bool
  | [] => false
  | s :: rest => s.alwaysReturns || anyReturns rest

end

end ClassTree
