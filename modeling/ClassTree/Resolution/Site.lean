import ClassTree.Registry.Overload

/-!
# Type references

Every type that a declaration or a body names must be known. References inside bodies are checked without typing the
expressions, so they are checked also where types are left to run time.
-/

namespace ClassTree

/-- A place whose type references are checked: a class, or one of its members. -/
structure Site where
  registry : Registry
  cls : Name
  member : Option String

namespace Site

def report (s : Site) (code : DiagnosticCode) (message : String) : Diagnostic :=
  ⟨code, .error, s.cls.text, s.member, message⟩

/-- What is wrong with a declared type. -/
def checkType (s : Site) : Ty → List Diagnostic
  | .ref target =>
    if s.registry.contains target then [] else [s.report .unknownType s!"unknown type '{target.text}'"]
  | .null => [s.report .unknownType "'null' is not a declarable type"]
  | _ => []

/-- What is wrong with the declared type of a field, parameter or variable, which must have values. -/
def checkValueType (s : Site) (t : Ty) : List Diagnostic :=
  if t.isVoid then [s.report .typeMismatch "'void' is not a value type"] else s.checkType t

mutual

/-- The faulty type references of an expression. -/
def checkExpr (s : Site) : Expr → List Diagnostic
  | .lit _ | .var _ | .this | .outer => []
  | .field target _ => s.checkExpr target
  | .assign target value => s.checkExpr target ++ s.checkExpr value
  | .call receiver _ args => s.checkExpr receiver ++ s.checkExprs args
  | .staticCall cls _ args => s.checkType (.ref cls) ++ s.checkExprs args
  | .new cls args => s.checkType (.ref cls) ++ s.checkExprs args
  | .binary _ left right => s.checkExpr left ++ s.checkExpr right
  | .unary _ operand => s.checkExpr operand

def checkExprs (s : Site) : List Expr → List Diagnostic
  | [] => []
  | e :: rest => s.checkExpr e ++ s.checkExprs rest

end

def misplacedSuperCall (s : Site) : Diagnostic :=
  s.report .misplacedSuperCall "superclass constructor call must be the first statement of a constructor"

mutual

/-- Adds the faulty type references of a statement to `found`, and a superclass constructor call that has no place
there. -/
def checkStmt (s : Site) (allowSuper : Bool) : Stmt → Array Diagnostic → Array Diagnostic
  | .block stmts, found => s.checkStmts false stmts found
  | .decl _ ty none, found => found ++ s.checkValueType ty
  | .decl _ ty (some e), found => found ++ s.checkValueType ty ++ s.checkExpr e
  | .expr e, found => found ++ s.checkExpr e
  | .ret none, found => found
  | .ret (some e), found => found ++ s.checkExpr e
  | .cond test t none, found => s.checkStmt false t (found ++ s.checkExpr test)
  | .cond test t (some e), found => s.checkStmt false e (s.checkStmt false t (found ++ s.checkExpr test))
  | .loop test body, found => s.checkStmt false body (found ++ s.checkExpr test)
  | .superCall args, found =>
    (if allowSuper then found else found.push s.misplacedSuperCall) ++ s.checkExprs args

/-- Adds what is found in statements, of which the first may be a superclass constructor call if `allowSuper`. -/
def checkStmts (s : Site) (allowSuper : Bool) : List Stmt → Array Diagnostic → Array Diagnostic
  | [], found => found
  | x :: rest, found => s.checkStmts false rest (s.checkStmt allowSuper x found)

end

/-- The findings about a body. -/
def checkBody (s : Site) (isConstructor : Bool) (body : List Stmt) : List Diagnostic :=
  (s.checkStmts isConstructor body #[]).toList

end Site

end ClassTree
