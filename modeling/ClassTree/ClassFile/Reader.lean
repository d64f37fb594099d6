import ClassTree.ClassFile.Basic

/-!
# Reading class files

Reading checks the layout of the bytes only. What the constants and the code mean is checked by verification.
-/

namespace ClassTree

/-- Where a reader stands: the bytes ahead, and how many are behind. -/
structure Cursor where
  rest : Bytes
  offset : Nat

/-- Reads a value off the bytes ahead. -/
abbrev Reader (α : Type) := Cursor → Except FormatError (α × Cursor)

namespace Reader

def pure {α : Type} (a : α) : Reader α := fun c => .ok (a, c)

def bind {α β : Type} (r : Reader α) (f : α → Reader β) : Reader β := fun c =>
  match r c with
  | .ok (a, c) => f a c
  | .error e => .error e

instance : Monad Reader where
  pure := Reader.pure
  bind := Reader.bind

def fail {α : Type} (e : FormatError) : Reader α := fun _ => .error e

/-- How many bytes are behind. -/
def offset : Reader Nat := fun c => .ok (c.offset, c)

/-- The next `n` bytes; if there are fewer, the reader stands where it stood. -/
def take (n : Nat) : Reader Bytes := fun c =>
  match Bytes.split? n c.rest with
  | some (bs, rest) => .ok (bs, ⟨rest, c.offset + n⟩)
  | none => .error (.truncated c.offset)

/-- A number of `width` bytes. -/
def number (width : Nat) : Reader Nat := do return (← take width).toNat

def byte : Reader UInt8 := do return (← number 1).toUInt8

def word : Reader UInt16 := do return (← number 2).toUInt16

def modifiers : Reader Modifiers := do return ⟨← word⟩

/-- Reads `n` items, the first as number `i`, behind those in `acc`, which is reversed. -/
def itemsFrom {α : Type} (item : Nat → Reader α) : Nat → Nat → List α → Reader (List α)
  | 0, _, acc => fun c => .ok (acc.reverse, c)
  | n + 1, i, acc => fun c =>
    match item i c with
    | .ok (a, c) => itemsFrom item n (i + 1) (a :: acc) c
    | .error e => .error e

/-- Reads `n` items, numbered from 1. -/
def items {α : Type} (n : Nat) (item : Nat → Reader α) : Reader (List α) := itemsFrom item n 1 []

/-- Reads a count of 16 bits and as many items. -/
def table {α : Type} (item : Reader α) : Reader (List α) := do
  let n ← word
  items n.toNat fun _ => item

/-- The constant with an index. -/
def constant (index : Nat) : Reader Constant := do
  let start ← offset
  match ← byte with
  | 1 =>
    let size ← word
    match (← take size.toNat).toText? with
    | some s => return .utf8 s
    | none => fail (.invalidUtf8 index)
  | 2 => return .int (← number 4).toUInt32.toInt32
  | 3 => return .long (← number 8).toUInt64.toInt64
  | 4 => return .double ⟨(← number 8).toUInt64⟩
  | 5 => return .string (← word)
  | 6 => return .cls (← word)
  | 7 => return .fieldRef (← word) (← word) (← word)
  | 8 => return .methodRef (← word) (← word) (← word)
  | tag => fail (.unknownConstantTag tag start)

def innerInfo : Reader InnerInfo := do
  return { inner := ← word, outer := ← word, simpleName := ← word, access := ← modifiers }

def fieldInfo : Reader FieldInfo := do
  return { access := ← modifiers, name := ← word, descriptor := ← word }

def methodInfo : Reader MethodInfo := do
  let access ← modifiers
  let name ← word
  let descriptor ← word
  let maxLocals ← word
  let size ← number 4
  let code ← take size
  return { access, name, descriptor, maxLocals, code := code.toArray }

def classFile : Reader ClassFile := do
  let magic ← number 4
  if magic ≠ ClassFile.magic then fail (.badMagic magic)
  let major ← word
  let minor ← word
  if major ≠ ClassFile.majorVersion then fail (.unsupportedVersion major minor)
  let count ← word
  if count.toNat > Pool.maxEntries then fail (.tooMany .constant count.toNat)
  let constants ← items count.toNat constant
  let access ← modifiers
  let thisClass ← word
  let superClass ← word
  let inner ← table innerInfo
  let fields ← table fieldInfo
  let methods ← table methodInfo
  return { major, minor, constants := constants.toArray, access, thisClass, superClass, inner, fields, methods }

end Reader

/-- Reads a class file that is the whole byte sequence. -/
def ClassFile.decode (bs : Bytes) : Except FormatError ClassFile :=
  match Reader.classFile ⟨bs, 0⟩ with
  | .ok (f, c) => if c.rest.isEmpty then .ok f else .error (.trailingBytes c.rest.length)
  | .error e => .error e

end ClassTree
