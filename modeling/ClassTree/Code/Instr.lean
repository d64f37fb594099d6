import ClassTree.Code.Opcode
import ClassTree.Ty

/-!
# Instructions

An instruction with its operands, its bytes, and how it is read back from a code array. Operands are big endian. Jump
distances count from the end of the jump, so code does not depend on where it stands.
-/

namespace ClassTree

/-- What an instruction without operand can push. -/
inductive Immediate where
  | null | true | false | zero | one
deriving DecidableEq, Repr

inductive ArithOp where
  | add | sub | mul | div | rem
deriving DecidableEq, Repr

inductive CompareOp where
  | eq | ne | lt | le | gt | ge
deriving DecidableEq, Repr

inductive Widening where
  | i2l | i2d | l2d
deriving DecidableEq, Repr

/-- How a method named by a reference is found: in the receiver's class, or where the reference says. -/
inductive CallKind where
  | virtual | special | static
deriving DecidableEq, Repr

inductive FieldAccess where
  | get | put
deriving DecidableEq, Repr

inductive Instr where
  /-- Pushes a constant. -/
  | ldc (constant : UInt16)
  | push (k : Immediate)
  | pop
  | dup
  /-- Copies the top below the value under it. -/
  | dupX1
  | load (slot : UInt16)
  | store (slot : UInt16)
  /-- Reads or writes the field that a reference names. -/
  | field (access : FieldAccess) (ref : UInt16)
  /-- Reads or writes the field of a name, found by the class of the object. -/
  | fieldDyn (access : FieldAccess) (name : UInt16)
  | new (cls : UInt16)
  | invoke (kind : CallKind) (ref : UInt16)
  /-- Calls the method of a name that fits the arguments best. -/
  | invokeDynamic (name : UInt16) (argc : UInt8)
  /-- Calls the constructor that fits the arguments best. -/
  | invokeSpecialDyn (cls : UInt16) (argc : UInt8)
  | invokeStaticDyn (cls name : UInt16) (argc : UInt8)
  | arith (op : ArithOp)
  | neg
  | concat
  | widen (w : Widening)
  | compare (op : CompareOp)
  | not
  | jump (distance : UInt16)
  | jumpIfFalse (distance : UInt16)
  /-- Jumps back. -/
  | loop (distance : UInt16)
  | ret
  | retVoid
deriving DecidableEq, Repr

/-- The two bytes of a word, the high one first. -/
def wordBytes (w : UInt16) : List UInt8 := [(w >>> 8).toUInt8, w.toUInt8]

/-- The word that two bytes stand for. -/
def wordOfBytes (hi lo : UInt8) : UInt16 := (hi.toUInt16 <<< 8) ||| lo.toUInt16

def Immediate.opcode : Immediate → Opcode
  | .null => .pushNull
  | .true => .pushTrue
  | .false => .pushFalse
  | .zero => .pushZero
  | .one => .pushOne

def ArithOp.opcode : ArithOp → Opcode
  | .add => .add
  | .sub => .sub
  | .mul => .mul
  | .div => .div
  | .rem => .rem

def CompareOp.opcode : CompareOp → Opcode
  | .eq => .eq
  | .ne => .ne
  | .lt => .lt
  | .le => .le
  | .gt => .gt
  | .ge => .ge

def Widening.opcode : Widening → Opcode
  | .i2l => .i2l
  | .i2d => .i2d
  | .l2d => .l2d

/-- The widening that takes a number of the first type to the second, if they differ. -/
def Widening.between? : Ty → Ty → Option Widening
  | .int, .long => some .i2l
  | .int, .double => some .i2d
  | .long, .double => some .l2d
  | _, _ => none

def CallKind.opcode : CallKind → Opcode
  | .virtual => .invokeVirtual
  | .special => .invokeSpecial
  | .static => .invokeStatic

namespace Instr

def opcode : Instr → Opcode
  | .ldc _ => .ldc
  | .push k => k.opcode
  | .pop => .pop
  | .dup => .dup
  | .dupX1 => .dupX1
  | .load _ => .load
  | .store _ => .store
  | .field .get _ => .getField
  | .field .put _ => .putField
  | .fieldDyn .get _ => .getFieldDyn
  | .fieldDyn .put _ => .putFieldDyn
  | .new _ => .new
  | .invoke kind _ => kind.opcode
  | .invokeDynamic .. => .invokeDynamic
  | .invokeSpecialDyn .. => .invokeSpecialDyn
  | .invokeStaticDyn .. => .invokeStaticDyn
  | .arith op => op.opcode
  | .neg => .neg
  | .concat => .concat
  | .widen w => w.opcode
  | .compare op => op.opcode
  | .not => .not
  | .jump _ => .jump
  | .jumpIfFalse _ => .jumpIfFalse
  | .loop _ => .loop
  | .ret => .ret
  | .retVoid => .retVoid

def operands : Instr → List UInt8
  | .ldc w | .load w | .store w | .field _ w | .fieldDyn _ w | .new w | .invoke _ w
  | .jump w | .jumpIfFalse w | .loop w => wordBytes w
  | .invokeDynamic w argc | .invokeSpecialDyn w argc => wordBytes w ++ [argc]
  | .invokeStaticDyn w v argc => wordBytes w ++ wordBytes v ++ [argc]
  | _ => []

/-- How many bytes the instruction takes. -/
def size (i : Instr) : Nat := 1 + i.opcode.operandSize

/-- The bytes of an instruction. -/
def encode (i : Instr) : List UInt8 := i.opcode.toByte :: i.operands

theorem length_encode (i : Instr) : i.encode.length = i.size := by
  cases i <;> try rfl
  case push k => cases k <;> rfl
  case field a _ => cases a <;> rfl
  case fieldDyn a _ => cases a <;> rfl
  case invoke k _ => cases k <;> rfl
  case arith op => cases op <;> rfl
  case widen w => cases w <;> rfl
  case compare op => cases op <;> rfl

end Instr

/-! ## Reading instructions -/

/-- The word at an offset of a code array. -/
def wordAt? (code : Array UInt8) (offset : Nat) : Option UInt16 :=
  match code[offset]?, code[offset + 1]? with
  | some hi, some lo => some (wordOfBytes hi lo)
  | _, _ => none

namespace Instr

/-- The instruction of a code whose operands begin at `offset`; none if the code array ends before they do. -/
def withOperands? (code : Array UInt8) (offset : Nat) : Opcode → Option Instr
  | .ldc => word .ldc
  | .pushNull => some (.push .null)
  | .pushTrue => some (.push .true)
  | .pushFalse => some (.push .false)
  | .pushZero => some (.push .zero)
  | .pushOne => some (.push .one)
  | .pop => some .pop
  | .dup => some .dup
  | .dupX1 => some .dupX1
  | .load => word .load
  | .store => word .store
  | .getField => word (.field .get)
  | .putField => word (.field .put)
  | .getFieldDyn => word (.fieldDyn .get)
  | .putFieldDyn => word (.fieldDyn .put)
  | .new => word .new
  | .invokeVirtual => word (.invoke .virtual)
  | .invokeSpecial => word (.invoke .special)
  | .invokeStatic => word (.invoke .static)
  | .invokeDynamic => do return .invokeDynamic (← wordAt? code offset) (← code[offset + 2]?)
  | .invokeSpecialDyn => do return .invokeSpecialDyn (← wordAt? code offset) (← code[offset + 2]?)
  | .invokeStaticDyn => do
    return .invokeStaticDyn (← wordAt? code offset) (← wordAt? code (offset + 2)) (← code[offset + 4]?)
  | .add => some (.arith .add)
  | .sub => some (.arith .sub)
  | .mul => some (.arith .mul)
  | .div => some (.arith .div)
  | .rem => some (.arith .rem)
  | .neg => some .neg
  | .concat => some .concat
  | .i2l => some (.widen .i2l)
  | .i2d => some (.widen .i2d)
  | .l2d => some (.widen .l2d)
  | .eq => some (.compare .eq)
  | .ne => some (.compare .ne)
  | .lt => some (.compare .lt)
  | .le => some (.compare .le)
  | .gt => some (.compare .gt)
  | .ge => some (.compare .ge)
  | .not => some .not
  | .jump => word .jump
  | .jumpIfFalse => word .jumpIfFalse
  | .loop => word .loop
  | .ret => some .ret
  | .retVoid => some .retVoid
where
  /-- An instruction with one word as operand. -/
  word (f : UInt16 → Instr) : Option Instr := (wordAt? code offset).map f

end Instr

/-- How many bytes a sequence of instructions takes. -/
def codeSize (is : Array Instr) : Nat := is.foldl (fun n i => n + i.size) 0

/-- The bytes of a sequence of instructions. -/
def encodeCode (is : Array Instr) : List UInt8 := is.toList.flatMap Instr.encode

end ClassTree
