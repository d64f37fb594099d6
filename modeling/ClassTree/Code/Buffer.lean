import ClassTree.Code.Instr

/-!
# Code buffers

Code that is written front to back. A forward jump is written with a placeholder as distance, and patched when its
target is reached; a backward jump knows its distance at once. A distance that takes more than 16 bits marks the buffer
as overflowed.
-/

namespace ClassTree

structure Buffer where
  code : Array UInt8
  overflowed : Bool
deriving DecidableEq

namespace Buffer

def empty : Buffer := ⟨#[], false⟩

def size (b : Buffer) : Nat := b.code.size

def writeByte (b : Buffer) (x : UInt8) : Buffer := { b with code := b.code.push x }

def writeOp (b : Buffer) (op : Opcode) : Buffer := b.writeByte op.toByte

def writeWord (b : Buffer) (w : UInt16) : Buffer := (b.writeByte (w >>> 8).toUInt8).writeByte w.toUInt8

/-- Writes a jump whose target is not known yet, and gives the offset of its distance. -/
def writeJump (b : Buffer) (op : Opcode) : Nat × Buffer :=
  let b := b.writeOp op
  (b.size, b.writeWord 0xffff)

/-- Lets the jump whose distance stands at `offset` end here. -/
def patch (b : Buffer) (offset : Nat) : Buffer :=
  let distance := b.size - (offset + 2)
  if distance < 65536 then
    let w := distance.toUInt16
    { b with code := (b.code.setIfInBounds offset (w >>> 8).toUInt8).setIfInBounds (offset + 1) w.toUInt8 }
  else { b with overflowed := true }

/-- Writes a jump back to `start`. -/
def writeLoop (b : Buffer) (start : Nat) : Buffer :=
  let b := b.writeOp .loop
  let distance := b.size - start + 2
  if distance < 65536 then b.writeWord distance.toUInt16
  else { b.writeWord 0 with overflowed := true }

def byteAt? (b : Buffer) (offset : Nat) : Option UInt8 := b.code[offset]?

def opAt? (b : Buffer) (offset : Nat) : Option Opcode := (b.byteAt? offset).bind Opcode.ofByte?

def opcodes (b : Buffer) : List Opcode := Opcode.list b.code

end Buffer

end ClassTree
