import ClassTree.Code.Instr
import ClassTree.Machine.Convert

/-!
# Operators at run time

Two numbers are first brought to the wider of their types. Integers wrap around; only a division of integers by zero
fails.
-/

namespace ClassTree

/-- Two numbers of one type. -/
inductive NumberPair where
  | ints (a b : Int32)
  | longs (a b : Int64)
  | doubles (a b : Double)

/-- Brings two numbers to the wider of their types. -/
def Number.pair : Number → Number → NumberPair
  | .int a, .int b => .ints a b
  | .int a, .long b => .longs a.toInt64 b
  | .long a, .int b => .longs a b.toInt64
  | .long a, .long b => .longs a b
  | a, b => .doubles a.toDouble b.toDouble

namespace ArithOp

def onInts (op : ArithOp) (a b : Int32) : Except RuntimeError Value :=
  match op with
  | .add => .ok (.int (a + b))
  | .sub => .ok (.int (a - b))
  | .mul => .ok (.int (a * b))
  | .div => if b = 0 then .error .divisionByZero else .ok (.int (a / b))
  | .rem => if b = 0 then .error .divisionByZero else .ok (.int (a % b))

def onLongs (op : ArithOp) (a b : Int64) : Except RuntimeError Value :=
  match op with
  | .add => .ok (.long (a + b))
  | .sub => .ok (.long (a - b))
  | .mul => .ok (.long (a * b))
  | .div => if b = 0 then .error .divisionByZero else .ok (.long (a / b))
  | .rem => if b = 0 then .error .divisionByZero else .ok (.long (a % b))

def onDoubles (op : ArithOp) (a b : Double) : Double :=
  match op with
  | .add => a + b
  | .sub => a - b
  | .mul => a * b
  | .div => a / b
  | .rem => a % b

end ArithOp

namespace NumberPair

def arith (op : ArithOp) : NumberPair → Except RuntimeError Value
  | .ints a b => op.onInts a b
  | .longs a b => op.onLongs a b
  | .doubles a b => .ok (.double (op.onDoubles a b))

/-- How the numbers are ordered; a NaN has no order. -/
def compare? : NumberPair → Option Ordering
  | .ints a b => some (compare a.toInt b.toInt)
  | .longs a b => some (compare a.toInt b.toInt)
  | .doubles a b => a.compare? b

end NumberPair

/-- Whether a comparison holds of operands that are ordered so; none of those by size holds of operands without
order. -/
def CompareOp.holds (op : CompareOp) (ord : Option Ordering) : Bool :=
  match op with
  | .eq => ord = some .eq
  | .ne => ord ≠ some .eq
  | .lt => ord = some .lt
  | .le => ord = some .lt || ord = some .eq
  | .gt => ord = some .gt
  | .ge => ord = some .gt || ord = some .eq

namespace Heap

/-- Two operands as numbers of one type. -/
def operands (h : Heap) (a b : Value) : Except RuntimeError NumberPair :=
  match a.number?, b.number? with
  | some x, some y => .ok (x.pair y)
  | _, _ => .error (.typeMismatch "numeric operands" (h.typeText a ++ " and " ++ h.typeText b))

def arith (h : Heap) (op : ArithOp) (a b : Value) : Except RuntimeError Value := do (← h.operands a b).arith op

/-- Compares two values: any two for equality, and numbers by size. -/
def compare (h : Heap) (op : CompareOp) (a b : Value) : Except RuntimeError Value :=
  match op with
  | .eq => .ok (.bool (a.looseEq b))
  | .ne => .ok (.bool !(a.looseEq b))
  | op => do return .bool (op.holds (← h.operands a b).compare?)

def negate (h : Heap) : Value → Except RuntimeError Value
  | .int n => .ok (.int (-n))
  | .long n => .ok (.long (-n))
  | .double d => .ok (.double (-d))
  | v => .error (h.mismatch "numeric operand" v)

def complement (h : Heap) : Value → Except RuntimeError Value
  | .bool b => .ok (.bool !b)
  | v => .error (h.mismatch "boolean" v)

/-- The truth of a condition. -/
def truth (h : Heap) : Value → Except RuntimeError Bool
  | .bool b => .ok b
  | v => .error (h.mismatch "boolean" v)

def widen (h : Heap) (w : Widening) (v : Value) : Except RuntimeError Value :=
  match w, v with
  | .i2l, .int n => .ok (.long n.toInt64)
  | .i2d, .int n => .ok (.double (.ofInt n.toInt))
  | .l2d, .long n => .ok (.double (.ofInt n.toInt))
  | w, v => .error (h.mismatch w.opcode.text v)

end Heap

end ClassTree
