/-!
# Operation codes

The byte that begins every instruction, and how many bytes of operands follow it.
-/

namespace ClassTree

inductive Opcode where
  | ldc | pushNull | pushTrue | pushFalse | pushZero | pushOne
  | pop | dup | dupX1
  | load | store
  | getField | putField | getFieldDyn | putFieldDyn
  | new
  | invokeVirtual | invokeSpecial | invokeStatic | invokeDynamic | invokeSpecialDyn | invokeStaticDyn
  | add | sub | mul | div | rem | neg | concat
  | i2l | i2d | l2d
  | eq | ne | lt | le | gt | ge | not
  | jump | jumpIfFalse | loop
  | ret | retVoid
deriving DecidableEq, Repr

namespace Opcode

/-- All codes in the order of their bytes. -/
def all : List Opcode := [
  .ldc, .pushNull, .pushTrue, .pushFalse, .pushZero, .pushOne,
  .pop, .dup, .dupX1,
  .load, .store,
  .getField, .putField, .getFieldDyn, .putFieldDyn,
  .new,
  .invokeVirtual, .invokeSpecial, .invokeStatic, .invokeDynamic, .invokeSpecialDyn, .invokeStaticDyn,
  .add, .sub, .mul, .div, .rem, .neg, .concat,
  .i2l, .i2d, .l2d,
  .eq, .ne, .lt, .le, .gt, .ge, .not,
  .jump, .jumpIfFalse, .loop,
  .ret, .retVoid]

/-- The codes by their bytes. -/
def table : Array Opcode := all.toArray

def toByte (op : Opcode) : UInt8 := op.ctorIdx.toUInt8

/-- The code that a byte stands for. -/
def ofByte? (b : UInt8) : Option Opcode := table[b.toNat]?

theorem ofByte?_toByte (op : Opcode) : ofByte? op.toByte = some op := by cases op <;> rfl

/-- How many bytes of operands follow. -/
def operandSize : Opcode → Nat
  | .ldc | .load | .store | .getField | .putField | .getFieldDyn | .putFieldDyn | .new
  | .invokeVirtual | .invokeSpecial | .invokeStatic | .jump | .jumpIfFalse | .loop => 2
  | .invokeDynamic | .invokeSpecialDyn => 3
  | .invokeStaticDyn => 5
  | _ => 0

/-- Whether control never goes on to the next instruction. -/
def isTerminator : Opcode → Bool
  | .jump | .loop | .ret | .retVoid => true
  | _ => false

/-- The name in listings. -/
def text : Opcode → String
  | .ldc => "Ldc"
  | .pushNull => "PushNull"
  | .pushTrue => "PushTrue"
  | .pushFalse => "PushFalse"
  | .pushZero => "PushZero"
  | .pushOne => "PushOne"
  | .pop => "Pop"
  | .dup => "Dup"
  | .dupX1 => "DupX1"
  | .load => "Load"
  | .store => "Store"
  | .getField => "GetField"
  | .putField => "PutField"
  | .getFieldDyn => "GetFieldDyn"
  | .putFieldDyn => "PutFieldDyn"
  | .new => "New"
  | .invokeVirtual => "InvokeVirtual"
  | .invokeSpecial => "InvokeSpecial"
  | .invokeStatic => "InvokeStatic"
  | .invokeDynamic => "InvokeDynamic"
  | .invokeSpecialDyn => "InvokeSpecialDyn"
  | .invokeStaticDyn => "InvokeStaticDyn"
  | .add => "Add"
  | .sub => "Sub"
  | .mul => "Mul"
  | .div => "Div"
  | .rem => "Rem"
  | .neg => "Neg"
  | .concat => "Concat"
  | .i2l => "I2L"
  | .i2d => "I2D"
  | .l2d => "L2D"
  | .eq => "Eq"
  | .ne => "Ne"
  | .lt => "Lt"
  | .le => "Le"
  | .gt => "Gt"
  | .ge => "Ge"
  | .not => "Not"
  | .jump => "Jump"
  | .jumpIfFalse => "JumpIfFalse"
  | .loop => "Loop"
  | .ret => "Return"
  | .retVoid => "ReturnVoid"

/-- The code that a name in a listing stands for. -/
def ofText? (s : String) : Option Opcode := all.find? (·.text = s)

/-- The codes in `code` from `offset` on; operands and bytes that are no code are skipped. -/
def listFrom (code : Array UInt8) (offset : Nat) (acc : Array Opcode) : Array Opcode :=
  if h : offset < code.size then
    match ofByte? code[offset] with
    | some op => listFrom code (offset + 1 + op.operandSize) (acc.push op)
    | none => listFrom code (offset + 1) acc
  else acc
termination_by code.size - offset

/-- The codes of a code array. -/
def list (code : Array UInt8) : List Opcode := (listFrom code 0 #[]).toList

end Opcode

end ClassTree
