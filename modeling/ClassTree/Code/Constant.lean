import ClassTree.Code.Instr
import ClassTree.Pool

/-!
# Instructions that name constants

Each of these puts what the instruction refers to into the pool and gives the instruction.
-/

namespace ClassTree.Pool

/-- Makes an instruction of the index that an addition to the pool gives. -/
def instr (f : UInt16 → Instr) : UInt16 × Pool → Instr × Pool
  | (i, p) => (f i, p)

/-- Pushes an integer; 0 and 1 need no constant. -/
def pushInt (p : Pool) (n : Int32) : Instr × Pool :=
  if n = 0 then (.push .zero, p)
  else if n = 1 then (.push .one, p)
  else instr .ldc (p.add (.int n))

def pushLong (p : Pool) (n : Int64) : Instr × Pool := instr .ldc (p.add (.long n))

def pushDouble (p : Pool) (d : Double) : Instr × Pool := instr .ldc (p.add (.double d))

/-- The greatest number of bytes of a text in a class file. -/
def maxTextBytes : Nat := 65535

/-- Whether a text is short enough for a class file. -/
def textFits (s : String) : Bool := s.utf8ByteSize ≤ maxTextBytes

def pushString (p : Pool) (s : String) : Instr × Pool := instr .ldc (p.addString s)

/-- Pushes a string; a text too long for a class file is refused. -/
def pushString? (p : Pool) (s : String) : Option (Instr × Pool) :=
  if textFits s then some (p.pushString s) else none

def newObject (p : Pool) (cls : String) : Instr × Pool := instr .new (p.addClass cls)

def accessField (p : Pool) (access : FieldAccess) (ref : MemberRef) : Instr × Pool :=
  instr (.field access) (p.addFieldRef ref)

def accessFieldDyn (p : Pool) (access : FieldAccess) (name : String) : Instr × Pool :=
  instr (.fieldDyn access) (p.addUtf8 name)

def invoke (p : Pool) (kind : CallKind) (ref : MemberRef) : Instr × Pool :=
  instr (.invoke kind) (p.addMethodRef ref)

def invokeDynamic (p : Pool) (name : String) (argc : UInt8) : Instr × Pool :=
  instr (.invokeDynamic · argc) (p.addUtf8 name)

def invokeSpecialDyn (p : Pool) (cls : String) (argc : UInt8) : Instr × Pool :=
  instr (.invokeSpecialDyn · argc) (p.addClass cls)

def invokeStaticDyn (p : Pool) (cls name : String) (argc : UInt8) : Instr × Pool :=
  let (c, p) := p.addClass cls
  instr (.invokeStaticDyn c · argc) (p.addUtf8 name)

end ClassTree.Pool
