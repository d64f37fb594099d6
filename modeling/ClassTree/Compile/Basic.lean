import ClassTree.Code.Block
import ClassTree.Code.Constant
import ClassTree.Resolution.Members
import ClassTree.Typing

/-!
# Making code

Code is made piece by piece while constants are added to the pool of the class. The first finding ends the work on a
method; constants added until then stay in the pool.
-/

namespace ClassTree

/-- How code names the members that it uses. -/
inductive Binding where
  /-- By references that are resolved beforehand; numbers are widened by instructions. -/
  | static
  /-- By names that are looked up at run time. -/
  | dynamic
deriving DecidableEq, Repr

/-- Makes a part of the code of a method. -/
abbrev Gen := EStateM Diagnostic Pool

namespace Gen

/-- Fails with the finding, if there is one. -/
def ofExcept {α : Type} : Except Diagnostic α → Gen α
  | .ok a => pure a
  | .error d => throw d

/-- An instruction that is made with an addition to the pool. -/
def instr (make : Pool → Instr × Pool) : Gen Block :=
  modifyGet fun p => match make p with
    | (i, p) => (.one i, p)

end Gen

/-- Pushes the receiver. -/
def loadThis : Block := .one (.load 0)

def pushBool (b : Bool) : Block := .one (.push (if b then .true else .false))

/-- The finding that something is too large for a class file. -/
def Context.limit (c : Context) (what : String) : Diagnostic :=
  c.report .codegenLimit s!"{what} exceeds the class file limits"

/-- Pushes a constant. -/
def Context.literal (c : Context) : Literal → Gen Block
  | .null => pure (.one (.push .null))
  | .bool b => pure (pushBool b)
  | .int n => Gen.instr (·.pushInt n)
  | .long n => Gen.instr (·.pushLong n)
  | .double d => Gen.instr (·.pushDouble d)
  | .str s =>
    if Pool.textFits s then Gen.instr (·.pushString s)
    else throw (c.limit s!"string literal of {s.utf8ByteSize} bytes")

/-- Pushes the value that a variable of a type has before any is assigned. -/
def pushDefault : Ty → Gen Block
  | .boolean => pure (pushBool false)
  | .int => Gen.instr (·.pushInt 0)
  | .long => Gen.instr (·.pushLong 0)
  | .double => Gen.instr (·.pushDouble (.zero false))
  | _ => pure (.one (.push .null))

/-- A number of arguments as an operand. -/
def Context.argCount (c : Context) (n : Nat) : Gen UInt8 :=
  if n < 256 then pure n.toUInt8 else throw (c.limit "argument count")

/-- The instruction of an operator that evaluates both operands; none for those that may leave out the second. -/
def BinaryOp.instr? : BinaryOp → Option Instr
  | .add => some (.arith .add)
  | .sub => some (.arith .sub)
  | .mul => some (.arith .mul)
  | .div => some (.arith .div)
  | .rem => some (.arith .rem)
  | .eq => some (.compare .eq)
  | .ne => some (.compare .ne)
  | .lt => some (.compare .lt)
  | .le => some (.compare .le)
  | .gt => some (.compare .gt)
  | .ge => some (.compare .ge)
  | .and | .or => none

def UnaryOp.instr : UnaryOp → Instr
  | .neg => .neg
  | .not => .not

/-- Code for `&&` or `||` from the codes of its operands. -/
def shortCircuit (op : BinaryOp) (left right : Block) : Block :=
  if op = .and then .both left right else .either left right

end ClassTree
