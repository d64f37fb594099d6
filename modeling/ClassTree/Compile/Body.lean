import ClassTree.Compile.ByName
import ClassTree.Compile.Typed
import ClassTree.Lowered

/-!
# Bodies of methods and constructors
-/

namespace ClassTree

/-- The code of a method and how many local slots it needs. -/
structure MethodCode where
  maxLocals : UInt16
  /-- Empty for an abstract method. -/
  code : Array UInt8

/-- The code of a value that is expected to be of a type. -/
def compileValue (b : Binding) (c : Context) (scope : Scope) (e : Expr) (expected : Ty) : Gen Block :=
  match b with
  | .static => do return widenTo expected (← Typed.expr c scope true e)
  | .dynamic => ByName.expr c scope true e

/-- The code of an expression whose value is not used. -/
def compileDiscarded (b : Binding) (c : Context) (scope : Scope) (e : Expr) : Gen Block :=
  match b with
  | .static => Typed.discarded c scope e
  | .dynamic => ByName.discarded c scope e

/-- Declares a variable and gives its slot. -/
def declareVar (c : Context) (scope : Scope) (name : String) (ty : Ty) : Gen (UInt16 × Scope) :=
  match scope.declare name ty with
  | (.ok slot, scope) => pure (slot, scope)
  | (.error e, _) => throw (c.declareError name e)

mutual

/-- The code of a statement, and the variables that are visible after it. -/
def compileStmt (b : Binding) (c : Context) : Stmt → Scope → Gen (Block × Scope)
  | .block stmts, scope => do
    let (code, scope) ← compileStmts b c stmts scope.enter .empty
    return (code, scope.pop)
  | .decl name ty init, scope => do
    let code ← match init with
      | some e => compileValue b c scope e ty
      | none => pushDefault ty
    let (slot, scope) ← declareVar c scope name ty
    return (code ++ .one (.store slot), scope)
  | .expr e, scope => do return (← compileDiscarded b c scope e, scope)
  | .ret none, scope => pure (.one .retVoid, scope)
  | .ret (some e), scope => do
    if c.ret.isVoid then return ((← compileDiscarded b c scope e) ++ .one .retVoid, scope)
    else return ((← compileValue b c scope e c.ret) ++ .one .ret, scope)
  | .cond test t none, scope => do
    let test ← compileValue b c scope test .boolean
    let (t, scope) ← compileStmt b c t scope.enter
    return (.ifThen test t, scope.pop)
  | .cond test t (some e), scope => do
    let test ← compileValue b c scope test .boolean
    let (t, scope) ← compileStmt b c t scope.enter
    let (e, scope) ← compileStmt b c e scope.pop.enter
    return (.ifElse test t e, scope.pop)
  | .loop test body, scope => do
    let test ← compileValue b c scope test .boolean
    let (body, scope) ← compileStmt b c body scope.enter
    return (.repeatWhile test body, scope.pop)
  | .superCall _, _ =>
    throw (c.report .misplacedSuperCall "superclass constructor call must be the first statement of a constructor")

/-- The code of statements behind the code of those before them. -/
def compileStmts (b : Binding) (c : Context) : List Stmt → Scope → Block → Gen (Block × Scope)
  | [], scope, done => pure (done, scope)
  | s :: rest, scope, done => do
    let (code, scope) ← compileStmt b c s scope
    compileStmts b c rest scope (done ++ code)

end

/-- Calls the superclass constructor. -/
def compileSuperCall (b : Binding) (c : Context) (scope : Scope) (args : List Expr) : Gen Block :=
  match c.cls.superclass with
  | none => throw (c.report .invalidSuperclass "class has no superclass")
  | some superclass =>
    match b with
    | .static => Typed.superCall c scope superclass args
    | .dynamic => ByName.superCall c scope superclass args

/-- Declares parameters, one after the other. -/
def declareParams (c : Context) : List Param → Scope → Gen Scope
  | [], scope => pure scope
  | p :: rest, scope => do
    let (_, scope) ← declareVar c scope p.name p.ty
    declareParams c rest scope

/-- The variables that field initialisers see: of the parameters only the outer instance, if that is the first. -/
def initializerScope (params : List Param) : Scope :=
  match params with
  | p :: _ => if p.name = outerField then (Scope.ofInstance.declare p.name p.ty).2 else .ofInstance
  | [] => .ofInstance

/-- The code of a method. -/
def compileMethod (b : Binding) (c : Context) (m : LoweredMethod) : Gen MethodCode := do
  let scope ← declareParams c m.params (if c.isStatic then .ofStatic else .ofInstance)
  match m.body with
  | .abstract => return ⟨scope.maxLocals, #[]⟩
  | .method body =>
    let (code, scope) ← compileStmt b c (.block body) scope
    finish code scope
  | .constructor superArgs initializers body =>
    let call ← compileSuperCall b c scope superArgs
    let (inits, _) ← compileStmts b c initializers (initializerScope m.params) .empty
    let (code, scope) ← compileStmt b c (.block body) scope
    finish (call ++ inits ++ code) scope
where
  /-- The finished code, if all its jumps reach. -/
  finish (code : Block) (scope : Scope) : Gen MethodCode :=
    if code.overflowed then throw (c.report .codegenLimit "method body exceeds the jump range")
    else pure ⟨scope.maxLocals, code.encode⟩

end ClassTree
