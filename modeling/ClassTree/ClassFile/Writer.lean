import ClassTree.ClassFile.Basic

/-!
# Writing class files

Every table is preceded by its count. Writing fails when a count does not fit its field.
-/

namespace ClassTree

namespace Bytes

/-- A 16-bit number. -/
def word (w : UInt16) : Bytes := ofNat 2 w.toNat

/-- A count in 16 bits, if it fits. -/
def count (what : Countable) (n : Nat) : Except FormatError Bytes :=
  if n < 65536 then .ok (ofNat 2 n) else .error (.tooMany what n)

/-- A count in 32 bits, if it fits. -/
def longCount (what : Countable) (n : Nat) : Except FormatError Bytes :=
  if n < 4294967296 then .ok (ofNat 4 n) else .error (.tooMany what n)

end Bytes

/-- A constant after its tag. -/
def Constant.payload : Constant → Except FormatError Bytes
  | .utf8 s => do
    let text := Bytes.ofText s
    return (← Bytes.count .utf8Byte text.length) ++ text
  | .int n => .ok (Bytes.ofNat 4 n.toUInt32.toNat)
  | .long n => .ok (Bytes.ofNat 8 n.toUInt64.toNat)
  | .double d => .ok (Bytes.ofNat 8 d.bits.toNat)
  | .string i | .cls i => .ok (Bytes.word i)
  | .fieldRef owner name descriptor | .methodRef owner name descriptor =>
    .ok (Bytes.word owner ++ Bytes.word name ++ Bytes.word descriptor)

def Constant.encode (c : Constant) : Except FormatError Bytes := return c.tag :: (← c.payload)

def InnerInfo.encode (i : InnerInfo) : Bytes :=
  Bytes.word i.inner ++ Bytes.word i.outer ++ Bytes.word i.simpleName ++ Bytes.word i.access.bits

def FieldInfo.encode (f : FieldInfo) : Bytes :=
  Bytes.word f.access.bits ++ Bytes.word f.name ++ Bytes.word f.descriptor

def MethodInfo.encode (m : MethodInfo) : Except FormatError Bytes := do
  let size ← Bytes.longCount .codeByte m.code.size
  return Bytes.word m.access.bits ++ Bytes.word m.name ++ Bytes.word m.descriptor ++ Bytes.word m.maxLocals ++
    size ++ m.code.toList

namespace ClassFile

/-- The bytes of a class file; of several counts that do not fit the first is reported. -/
def encode (f : ClassFile) : Except FormatError Bytes := do
  let constantCount ← Bytes.count .constant f.constants.size
  let constants ← f.constants.toList.mapM Constant.encode
  let innerCount ← Bytes.count .innerClass f.inner.length
  let fieldCount ← Bytes.count .field f.fields.length
  let methodCount ← Bytes.count .method f.methods.length
  let methods ← f.methods.mapM MethodInfo.encode
  return Bytes.ofNat 4 magic ++ Bytes.word f.major ++ Bytes.word f.minor ++
    constantCount ++ constants.flatten ++
    Bytes.word f.access.bits ++ Bytes.word f.thisClass ++ Bytes.word f.superClass ++
    innerCount ++ f.inner.flatMap InnerInfo.encode ++
    fieldCount ++ f.fields.flatMap FieldInfo.encode ++
    methodCount ++ methods.flatten

end ClassFile

end ClassTree
