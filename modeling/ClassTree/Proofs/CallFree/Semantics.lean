import ClassTree.Compile.Basic
import ClassTree.Proofs.Machine.Steps
import ClassTree.Proofs.Scope
import Mathlib.Logic.Function.Basic

/-!
# Meaning of bodies without calls

A direct evaluation of bodies that use local variables and operators alone, on values of every kind and on the values of
the local slots (`Slots`). It depends on what is known beforehand (`Setting.types`): where types are known, numbers are
widened and texts are joined as the types say; where they are not, all is decided by the values. A double constant stands for
the double that the class holds for it.

Only loops need a bound: `rounds` is how often each loop may go round.
-/

namespace ClassTree

/-- The values of the local slots. -/
abbrev Slots := Nat → Value

/-- What an evaluation depends on besides the local slots. -/
structure Setting where
  /-- Where types are known, the context that they come from. -/
  types : Option Context
  /-- The double that stands for a double constant. -/
  held : Double → Double
  /-- The text of a value. -/
  render : Value → Run String
  /-- How often each loop may go round. -/
  rounds : Nat

/-- What a binary operation does if nothing is known about types. -/
def BinaryTyping.unknown : BinaryTyping := ⟨none, .void, false⟩

namespace Setting

/-- What is known by types, or else what is assumed. -/
def known {α : Type} (s : Setting) (x : Context → Except Diagnostic α) (assumed : α) : α :=
  match s.types with
  | some c => (x c).toOption.getD assumed
  | none => assumed

/-- The type of an expression, `void` if nothing is known about it. -/
def typeOf (s : Setting) (scope : Scope) (e : Expr) : Ty := s.known (·.typeOf scope e) .void

/-- The types that a binary operation works on. -/
def typing (s : Setting) (scope : Scope) (op : BinaryOp) (left right : Expr) : BinaryTyping :=
  s.known (·.binary op (s.typeOf scope left) (s.typeOf scope right)) .unknown

/-- The value of a constant. -/
def constant (s : Setting) : Literal → Value
  | .double d => .double (s.held d)
  | l => .ofLiteral l

/-- The value of a variable of a type before one is assigned. -/
def default (s : Setting) : Ty → Value
  | .double => .double (s.held (.zero false))
  | t => .defaultOf t

end Setting

/-- A value of a type where another type is expected. -/
def Value.widen (expected source : Ty) (v : Value) : Run Value :=
  match Widening.between? source expected with
  | some w => Run.ask (·.widen w v)
  | none => pure v

/-- An operand of a type, widened to the type that the operator works on. -/
def BinaryTyping.widen (t : BinaryTyping) (source : Ty) (v : Value) : Run Value :=
  match t.operand with
  | some target => v.widen target source
  | none => pure v

/-- The instruction that joins texts, or the one of the operator. -/
def BinaryTyping.instr (t : BinaryTyping) (i : Instr) : Instr := if t.isConcat then .concat else i

/-- What a unary operator makes of a value. -/
def UnaryOp.onHeap : UnaryOp → Heap → Value → Except RuntimeError Value
  | .neg => Heap.negate
  | .not => Heap.complement

/-! ## Expressions -/

namespace Expr

/-- Whether the expression uses local variables and operators alone. -/
def isCallFree : Expr → Bool
  | .lit _ | .var _ => true
  | .assign (.var _) e => e.isCallFree
  | .binary _ l r => l.isCallFree && r.isCallFree
  | .unary _ e => e.isCallFree
  | _ => false

/-- The value of an expression and the local slots afterwards. -/
def compute (s : Setting) (scope : Scope) : Expr → Slots → Run (Value × Slots)
  | .lit l, locals => pure (s.constant l, locals)
  | .var x, locals =>
    match scope.lookup? x with
    | some v => pure (locals v.slot.toNat, locals)
    | none => pure (.null, locals)
  | .assign (.var x) e, locals => do
    let (v, locals) ← e.compute s scope locals
    match scope.lookup? x with
    | some l =>
      let v ← v.widen l.ty (s.typeOf scope e)
      return (v, Function.update locals l.slot.toNat v)
    | none => return (v, locals)
  | .binary op l r, locals => do
    let (a, locals) ← l.compute s scope locals
    match op.instr? with
    | none =>
      let b ← Run.ask (·.truth a)
      if b = (op = .and) then r.compute s scope locals else return (.bool b, locals)
    | some i =>
      let t := s.typing scope op l r
      let a ← t.widen (s.typeOf scope l) a
      let (b, locals) ← r.compute s scope locals
      let b ← t.widen (s.typeOf scope r) b
      return (← (t.instr i).operator s.render a b, locals)
  | .unary op e, locals => do
    let (v, locals) ← e.compute s scope locals
    return (← Run.ask (op.onHeap · v), locals)
  | _, locals => pure (.null, locals)

/-- The value of an expression where a type is expected. -/
def value (s : Setting) (scope : Scope) (e : Expr) (expected : Ty) (locals : Slots) : Run (Value × Slots) := do
  let (v, locals) ← e.compute s scope locals
  return (← v.widen expected (s.typeOf scope e), locals)

/-- The truth of a condition. -/
def truth (s : Setting) (scope : Scope) (e : Expr) (locals : Slots) : Run (Bool × Slots) := do
  let (v, locals) ← e.value s scope .boolean locals
  return (← Run.ask (·.truth v), locals)

end Expr

/-! ## Statements -/

/-- What follows a statement. -/
inductive Flow where
  /-- The next statement, with the local slots. -/
  | next (locals : Slots)
  /-- The end of the method, with a value or without. -/
  | ret (v : Option Value)

/-- Goes on after a statement unless it returned. -/
def Flow.andThen (flow : Flow) (k : Slots → Run Flow) : Run Flow :=
  match flow with
  | .next locals => k locals
  | .ret v => pure (.ret v)

/-- Goes round a loop at most so many times. -/
def goAround (test : Slots → Run (Bool × Slots)) (body : Slots → Run Flow) : Nat → Slots → Run Flow
  | 0, _ => throw .outOfFuel
  | n + 1, locals => do
    let (b, locals) ← test locals
    if b then (← body locals).andThen (goAround test body n) else return .next locals

namespace Stmt

mutual

/-- Whether the statement uses local variables and operators alone. -/
def isCallFree : Stmt → Bool
  | .block stmts => allCallFree stmts
  | .decl _ _ none => true
  | .decl _ _ (some e) => e.isCallFree
  | .expr e => e.isCallFree
  | .ret none => true
  | .ret (some e) => e.isCallFree
  | .cond test t none => test.isCallFree && t.isCallFree
  | .cond test t (some e) => test.isCallFree && t.isCallFree && e.isCallFree
  | .loop test body => test.isCallFree && body.isCallFree
  | .superCall _ => false

def allCallFree : List Stmt → Bool
  | [] => true
  | x :: rest => x.isCallFree && allCallFree rest

end

mutual

/-- What follows a statement of a method with a result type. -/
def perform (s : Setting) (ret : Ty) : Stmt → Scope → Slots → Run Flow
  | .block stmts, scope, locals => performAll s ret stmts scope.enter locals
  | .decl x ty init, scope, locals => do
    let (v, locals) ← match init with
      | some e => e.value s scope ty locals
      | none => pure (s.default ty, locals)
    match (scope.declare x ty).1 with
    | .ok slot => return .next (Function.update locals slot.toNat v)
    | .error _ => return .next locals
  | .expr e, scope, locals => do
    let (_, locals) ← e.compute s scope locals
    return .next locals
  | .ret none, _, _ => return .ret none
  | .ret (some e), scope, locals =>
    if ret.isVoid then do
      let _ ← e.compute s scope locals
      return .ret none
    else do
      let (v, _) ← e.value s scope ret locals
      return .ret (some v)
  | .cond test t none, scope, locals => do
    let (b, locals) ← test.truth s scope locals
    if b then t.perform s ret scope.enter locals else return .next locals
  | .cond test t (some e), scope, locals => do
    let (b, locals) ← test.truth s scope locals
    if b then t.perform s ret scope.enter locals else e.perform s ret (t.after scope.enter).pop.enter locals
  | .loop test body, scope, locals =>
    goAround (test.truth s scope) (body.perform s ret scope.enter) s.rounds locals
  | .superCall _, _, locals => pure (.next locals)

def performAll (s : Setting) (ret : Ty) : List Stmt → Scope → Slots → Run Flow
  | [], _, locals => pure (.next locals)
  | x :: rest, scope, locals => do (← x.perform s ret scope locals).andThen (performAll s ret rest (x.after scope))

end

end Stmt

end ClassTree
