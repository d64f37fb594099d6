import ClassTree.ClassDef
import ClassTree.Fold
import ClassTree.Value

/-!
# Meaning of bodies over booleans and integers

A direct evaluation of bodies that work on `boolean`, `int` and `long` alone, by recursion over the tree: operands from
left to right, `&&` and `||` without the second operand where the first decides, integers that wrap around, and `int`
widened to `long` where a `long` is expected or stands beside it. Variables are visible from their declaration to the end
of the block, and a branch or a loop body is a block.

Only loops need a bound: `n` is how often each loop may go round.
-/

namespace ClassTree

inductive Scalar where
  | bool (b : Bool)
  | int (n : Int32)
  | long (n : Int64)
deriving DecidableEq

/-- Whether values of the type are scalars. -/
def Ty.isScalar : Ty → Bool
  | .boolean | .int | .long => true
  | _ => false

namespace Scalar

def ty : Scalar → Ty
  | .bool _ => .boolean
  | .int _ => .int
  | .long _ => .long

/-- The scalar as the machine holds it. -/
def value : Scalar → Value
  | .bool b => .bool b
  | .int n => .int n
  | .long n => .long n

def ofLiteral? : Literal → Option Scalar
  | .bool b => some (.bool b)
  | .int n => some (.int n)
  | .long n => some (.long n)
  | _ => none

/-- What a variable of a type holds before a value is assigned. -/
def default? : Ty → Option Scalar
  | .boolean => some (.bool false)
  | .int => some (.int 0)
  | .long => some (.long 0)
  | _ => none

/-- The value where a type is expected. -/
def widen? : Scalar → Ty → Option Scalar
  | .int n, .long => some (.long n.toInt64)
  | v, t => if v.ty = t then some v else none

end Scalar

/-! ## Results -/

/-- Why the evaluation of a body stops. -/
inductive Stop where
  | returned (v : Scalar)
  | divisionByZero
  /-- A loop would go round more often than is allowed. -/
  | outOfFuel
  /-- The body has no meaning; no body that was checked comes to this. -/
  | stuck
deriving DecidableEq

/-- What there is, or no meaning. -/
def Stop.need {α : Type} : Option α → Except Stop α
  | some a => .ok a
  | none => .error .stuck

/-! ## Operators -/

namespace Scalar

def onInts (op : BinaryOp) (a b : Int32) : Except Stop Scalar :=
  match op with
  | .add => .ok (.int (a + b))
  | .sub => .ok (.int (a - b))
  | .mul => .ok (.int (a * b))
  | .div => if b = 0 then .error .divisionByZero else .ok (.int (a / b))
  | .rem => if b = 0 then .error .divisionByZero else .ok (.int (a % b))
  | .eq => .ok (.bool (a = b))
  | .ne => .ok (.bool (a ≠ b))
  | .lt => .ok (.bool (a < b))
  | .le => .ok (.bool (a ≤ b))
  | .gt => .ok (.bool (b < a))
  | .ge => .ok (.bool (b ≤ a))
  | .and | .or => .error .stuck

def onLongs (op : BinaryOp) (a b : Int64) : Except Stop Scalar :=
  match op with
  | .add => .ok (.long (a + b))
  | .sub => .ok (.long (a - b))
  | .mul => .ok (.long (a * b))
  | .div => if b = 0 then .error .divisionByZero else .ok (.long (a / b))
  | .rem => if b = 0 then .error .divisionByZero else .ok (.long (a % b))
  | .eq => .ok (.bool (a = b))
  | .ne => .ok (.bool (a ≠ b))
  | .lt => .ok (.bool (a < b))
  | .le => .ok (.bool (a ≤ b))
  | .gt => .ok (.bool (b < a))
  | .ge => .ok (.bool (b ≤ a))
  | .and | .or => .error .stuck

/-- An operator that evaluates both operands. -/
def binary (op : BinaryOp) : Scalar → Scalar → Except Stop Scalar
  | .int a, .int b => onInts op a b
  | .int a, .long b => onLongs op a.toInt64 b
  | .long a, .int b => onLongs op a b.toInt64
  | .long a, .long b => onLongs op a b
  | .bool a, .bool b =>
    match op with
    | .eq => .ok (.bool (a = b))
    | .ne => .ok (.bool (a ≠ b))
    | _ => .error .stuck
  | _, _ => .error .stuck

def unary : UnaryOp → Scalar → Except Stop Scalar
  | .neg, .int n => .ok (.int (-n))
  | .neg, .long n => .ok (.long (-n))
  | .not, .bool b => .ok (.bool !b)
  | _, _ => .error .stuck

/-- The truth of a condition. -/
def truth : Scalar → Except Stop Bool
  | .bool b => .ok b
  | _ => .error .stuck

end Scalar

/-! ## Variables -/

/-- A visible variable with its value. -/
structure Var where
  name : String
  ty : Ty
  value : Scalar

/-- The visible variables, the latest first. -/
abbrev Env := List Var

namespace Env

def get? (env : Env) (x : String) : Option Var := env.find? (·.name = x)

/-- Gives a variable a value. -/
def set (env : Env) (x : String) (v : Scalar) : Env :=
  match env with
  | [] => []
  | y :: rest => if y.name = x then { y with value := v } :: rest else y :: set rest x v

/-- Widens a value to the type of a variable and stores it. -/
def assign (env : Env) (x : String) (v : Scalar) : Except Stop (Scalar × Env) := do
  let y ← Stop.need (env.get? x)
  let v ← Stop.need (v.widen? y.ty)
  return (v, env.set x v)

/-- The variables after a block that began with the first ones and ended with the second. -/
def leave (outer inner : Env) : Env := inner.drop (inner.length - outer.length)

end Env

/-! ## Expressions -/

namespace Expr

/-- Whether the expression belongs to the fragment. -/
def isScalar : Expr → Bool
  | .lit (.bool _) | .lit (.int _) | .lit (.long _) | .var _ => true
  | .assign (.var _) e => e.isScalar
  | .binary _ l r => l.isScalar && r.isScalar
  | .unary _ e => e.isScalar
  | _ => false

/-- The value of an expression and the variables afterwards. -/
def eval (env : Env) : Expr → Except Stop (Scalar × Env)
  | .lit l => do return (← Stop.need (Scalar.ofLiteral? l), env)
  | .var x => do return ((← Stop.need (env.get? x)).value, env)
  | .assign (.var x) e => do
    let (v, env) ← e.eval env
    env.assign x v
  | .binary .and l r => do
    let (a, env) ← l.eval env
    if ← a.truth then
      let (b, env) ← r.eval env
      return (.bool (← b.truth), env)
    else return (.bool false, env)
  | .binary .or l r => do
    let (a, env) ← l.eval env
    if ← a.truth then return (.bool true, env)
    else
      let (b, env) ← r.eval env
      return (.bool (← b.truth), env)
  | .binary op l r => do
    let (a, env) ← l.eval env
    let (b, env) ← r.eval env
    return (← Scalar.binary op a b, env)
  | .unary op e => do
    let (v, env) ← e.eval env
    return (← Scalar.unary op v, env)
  | _ => .error .stuck

end Expr

/-! ## Statements -/

/-- Goes round a loop at most `n` times; a round that does not go on gives the variables after it. -/
def goRound (round : Env → Except Stop (Bool × Env)) : Nat → Env → Except Stop Env
  | 0, _ => .error .outOfFuel
  | n + 1, env => do
    let (again, env) ← round env
    if again then goRound round n env else return env

namespace Stmt

mutual

/-- Whether the statement belongs to the fragment. -/
def isScalar : Stmt → Bool
  | .block stmts => allScalar stmts
  | .decl _ ty none => ty.isScalar
  | .decl _ ty (some e) => ty.isScalar && e.isScalar
  | .expr e => e.isScalar
  | .ret none => false
  | .ret (some e) => e.isScalar
  | .cond test t none => test.isScalar && t.isScalar
  | .cond test t (some e) => test.isScalar && t.isScalar && e.isScalar
  | .loop test body => test.isScalar && body.isScalar
  | .superCall _ => false

def allScalar : List Stmt → Bool
  | [] => true
  | s :: rest => s.isScalar && allScalar rest

end

mutual

/-- The variables after a statement of a method with a result type. -/
def exec (ret : Ty) (n : Nat) : Stmt → Env → Except Stop Env
  | .block stmts, env => do return env.leave (← execAll ret n stmts env)
  | .decl x ty none, env => do return ⟨x, ty, ← Stop.need (Scalar.default? ty)⟩ :: env
  | .decl x ty (some e), env => do
    let (v, env) ← e.eval env
    return ⟨x, ty, ← Stop.need (v.widen? ty)⟩ :: env
  | .expr e, env => do return (← e.eval env).2
  | .ret (some e), env => do
    let (v, _) ← e.eval env
    throw (.returned (← Stop.need (v.widen? ret)))
  | .cond test t none, env => do
    let (b, env) ← test.eval env
    if ← b.truth then return env.leave (← t.exec ret n env) else return env
  | .cond test t (some e), env => do
    let (b, env) ← test.eval env
    if ← b.truth then return env.leave (← t.exec ret n env) else return env.leave (← e.exec ret n env)
  | .loop test body, env =>
    goRound (fun env => do
      let (b, env) ← test.eval env
      if ← b.truth then return (true, env.leave (← body.exec ret n env)) else return (false, env)) n env
  | .ret none, _ | .superCall _, _ => .error .stuck

def execAll (ret : Ty) (n : Nat) : List Stmt → Env → Except Stop Env
  | [], env => .ok env
  | s :: rest, env => do execAll ret n rest (← s.exec ret n env)

end

end Stmt

/-! ## Methods -/

namespace MethodDef

/-- Whether parameters, result and body belong to the fragment. -/
def isScalar (m : MethodDef) : Bool :=
  m.params.all (·.ty.isScalar) && m.ret.isScalar && m.body.any Stmt.allScalar

/-- The variables with which a body begins. -/
def entry (m : MethodDef) (args : List Scalar) : Env :=
  (m.params.zipWith (fun p v => ⟨p.name, p.ty, v⟩) args).reverse

/-- Evaluates the body for arguments, with at most `n` rounds of each loop. -/
def evaluate (m : MethodDef) (n : Nat) (args : List Scalar) : Except Stop Env :=
  Stmt.exec m.ret n (.block (m.body.getD [])) (m.entry args)

end MethodDef

end ClassTree
