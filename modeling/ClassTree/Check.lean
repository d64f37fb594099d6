import ClassTree.Typing

/-!
# Type checking of bodies

Every statement is checked on its own, so that a fault in one does not hide a fault in a later one.
-/

namespace ClassTree

/-- The state of a check: the variables that are visible, and what has been found. -/
structure Check where
  scope : Scope
  found : Array Diagnostic

namespace Check

def ofScope (scope : Scope) : Check := ⟨scope, #[]⟩

def report (s : Check) (d : Diagnostic) : Check := { s with found := s.found.push d }

/-- Takes over the finding of a part that failed. -/
def note {α : Type} (s : Check) : Except Diagnostic α → Check
  | .ok _ => s
  | .error d => s.report d

/-- Declares a variable. -/
def declare (c : Context) (name : String) (ty : Ty) : Check → Check
  | ⟨scope, found⟩ =>
    match scope.declare name ty with
    | (.ok _, scope) => ⟨scope, found⟩
    | (.error e, scope) => ⟨scope, found.push (c.declareError name e)⟩

def declareParams (c : Context) (params : List Param) (s : Check) : Check :=
  params.foldl (fun s p => declare c p.name p.ty s) s

def push (s : Check) : Check := { s with scope := s.scope.enter }
def pop (s : Check) : Check := { s with scope := s.scope.pop }

/-- Checks that an expression can stand where a type is expected. -/
def value (c : Context) (e : Expr) (expected : Ty) (s : Check) : Check :=
  s.note (do
    let t ← c.typeOf s.scope e
    c.expectAssignable t expected)

/-- Checks that an expression is a condition. -/
def condition (c : Context) (e : Expr) (s : Check) : Check :=
  match c.typeOf s.scope e with
  | .ok .boolean => s
  | .ok t => s.report (c.report .typeMismatch s!"condition must be boolean, found '{t.text}'")
  | .error d => s.report d

/-- Checks the arguments of a superclass constructor call. -/
def superCall (c : Context) (args : List Expr) (s : Check) : Check :=
  s.note (do
    let ts ← c.typesOf s.scope args
    c.superConstructor ts)

mutual

def stmt (c : Context) : Stmt → Check → Check
  | .block stmts, s => (stmtList c stmts s.push).pop
  | .decl name ty init, s =>
    let s := match init with
      | some e => value c e ty s
      | none => s
    -- A variable is declared even if its initial value is at fault: its uses are not.
    declare c name ty s
  | .expr e, s => s.note (c.typeOf s.scope e)
  | .ret none, s =>
    if c.ret.isVoid then s
    else s.report (c.report .typeMismatch s!"missing return value of type '{c.ret.text}'")
  | .ret (some e), s =>
    if c.ret.isVoid then s.report (c.report .typeMismatch "a void member cannot return a value")
    else value c e c.ret s
  | .cond test t none, s => (stmt c t (condition c test s).push).pop
  | .cond test t (some e), s => (stmt c e (stmt c t (condition c test s).push).pop.push).pop
  | .loop test body, s => (stmt c body (condition c test s).push).pop
  | .superCall _, s => s

def stmtList (c : Context) : List Stmt → Check → Check
  | [], s => s
  | x :: rest, s => stmtList c rest (stmt c x s)

end

/-- Checks statements as a block. -/
def block (c : Context) (stmts : List Stmt) (s : Check) : Check := (stmtList c stmts s.push).pop

end Check

/-- Arguments of the superclass constructor call that a body begins with, none if it begins otherwise, and the rest. -/
def splitSuperCall : List Stmt → List Expr × List Stmt
  | .superCall args :: rest => (args, rest)
  | stmts => ([], stmts)

namespace ClassDef

def checkField (r : Registry) (entry : ClassEntry) (f : FieldDef) : List Diagnostic :=
  match f.init with
  | some e => ((Check.ofScope .ofInstance).value (.ofField r entry f) e f.ty).found.toList
  | none => []

def checkMethod (r : Registry) (entry : ClassEntry) (m : MethodDef) : List Diagnostic :=
  match m.body with
  | none => []
  | some body =>
    let c := Context.ofMethod r entry m
    let s := (Check.ofScope (if c.isStatic then .ofStatic else .ofInstance)).declareParams c m.params
    let s := s.block c body
    let s := if m.ret.isVoid || anyReturns body then s
      else s.report (c.report .missingReturn s!"method '{m.name}' must return a value on every path")
    s.found.toList

def checkConstructor (r : Registry) (entry : ClassEntry) (k : ConstructorDef) : List Diagnostic :=
  let c := Context.ofConstructor r entry
  let s := (Check.ofScope .ofInstance).declareParams c k.params
  let (args, rest) := splitSuperCall k.body
  ((s.superCall c args).block c rest).found.toList

/-- The constructor of a class that declares none. -/
def defaultConstructor : ConstructorDef := ⟨.pub, [], []⟩

/-- The constructors that the class has: those that it declares, or else one without parameters. -/
def allConstructors (d : ClassDef) : List ConstructorDef :=
  match d.constructors with
  | [] => [defaultConstructor]
  | ks => ks

/-- Checks field initialisers, then methods, then constructors. A class that is not registered is not checked. -/
def check (r : Registry) (d : ClassDef) : List Diagnostic :=
  match r.get? d.name with
  | none => []
  | some entry =>
    d.fields.flatMap (checkField r entry) ++ d.methods.flatMap (checkMethod r entry) ++
      d.allConstructors.flatMap (checkConstructor r entry)

end ClassDef

end ClassTree
