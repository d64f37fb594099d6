import ClassTree.Code.Buffer
import ClassTree.Code.Constant
import ClassTree.Ty.Descriptor

/-!
# Emitting instructions

A code buffer together with the pool that its instructions refer to.
-/

namespace ClassTree

structure Emitter where
  buffer : Buffer
  pool : Pool

namespace Emitter

def ofPool (pool : Pool) : Emitter := ⟨.empty, pool⟩

/-- Emits an instruction whose operands are known. -/
def emit (e : Emitter) (i : Instr) : Emitter :=
  { e with buffer := i.encode.foldl Buffer.writeByte e.buffer }

/-- Emits an instruction that was made with an addition to the pool. -/
def emitWith (e : Emitter) (make : Pool → Instr × Pool) : Emitter :=
  let (i, pool) := make e.pool
  { e with pool }.emit i

/-- Emits an operation code alone. -/
def op (e : Emitter) (op : Opcode) : Emitter := { e with buffer := e.buffer.writeOp op }

/-- Emits an operation code with one word as operand. -/
def word (e : Emitter) (op : Opcode) (w : UInt16) : Emitter :=
  { e with buffer := (e.buffer.writeOp op).writeWord w }

def int (e : Emitter) (n : Int32) : Emitter := e.emitWith (·.pushInt n)
def long (e : Emitter) (n : Int64) : Emitter := e.emitWith (·.pushLong n)
def double (e : Emitter) (d : Double) : Emitter := e.emitWith (·.pushDouble d)

/-- Emits a string; one too long for a class file is refused. -/
def string? (e : Emitter) (s : String) : Option Emitter :=
  (e.pool.pushString? s).map fun (i, pool) => { e with pool }.emit i

def null (e : Emitter) : Emitter := e.emit (.push .null)
def bool (e : Emitter) (b : Bool) : Emitter := e.emit (.push (if b then .true else .false))
def load (e : Emitter) (slot : UInt16) : Emitter := e.emit (.load slot)
def store (e : Emitter) (slot : UInt16) : Emitter := e.emit (.store slot)
def new (e : Emitter) (cls : String) : Emitter := e.emitWith (·.newObject cls)

/-- Emits an operation on the field that a class declares under a name with a type. -/
def field (e : Emitter) (op : Opcode) (cls name : String) (ty : Ty) : Emitter :=
  let (i, pool) := e.pool.addFieldRef ⟨cls, name, ty.descriptor⟩
  { e with pool }.word op i

/-- Emits an operation on the method that a class has under a name with a descriptor. -/
def invoke (e : Emitter) (op : Opcode) (cls name descriptor : String) : Emitter :=
  let (i, pool) := e.pool.addMethodRef ⟨cls, name, descriptor⟩
  { e with pool }.word op i

/-- Emits an operation on the field of a name. -/
def fieldDyn (e : Emitter) (op : Opcode) (name : String) : Emitter :=
  let (i, pool) := e.pool.addUtf8 name
  { e with pool }.word op i

def invokeDynamic (e : Emitter) (name : String) (argc : UInt8) : Emitter := e.emitWith (·.invokeDynamic name argc)

def invokeSpecialDyn (e : Emitter) (cls : String) (argc : UInt8) : Emitter :=
  e.emitWith (·.invokeSpecialDyn cls argc)

def invokeStaticDyn (e : Emitter) (cls name : String) (argc : UInt8) : Emitter :=
  e.emitWith (·.invokeStaticDyn cls name argc)

/-- Emits the conversion of a number to a wider type, if one is needed. -/
def widen (e : Emitter) (source target : Ty) : Emitter :=
  match Widening.between? source target with
  | some w => e.emit (.widen w)
  | none => e

def jump (e : Emitter) (op : Opcode) : Nat × Emitter :=
  let (label, buffer) := e.buffer.writeJump op
  (label, { e with buffer })

def patch (e : Emitter) (label : Nat) : Emitter := { e with buffer := e.buffer.patch label }

def loop (e : Emitter) (start : Nat) : Emitter := { e with buffer := e.buffer.writeLoop start }

/-- The offset of the next instruction. -/
def offset (e : Emitter) : Nat := e.buffer.size

end Emitter

end ClassTree
