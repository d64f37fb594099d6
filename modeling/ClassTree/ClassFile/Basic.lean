import ClassTree.Bytes
import ClassTree.Hex
import ClassTree.Modifiers
import ClassTree.Pool

/-!
# Class files

The compiled form of one class: its constants, its place in the hierarchy, and its tables of nested classes, fields and
methods. All texts are named by constant indices.
-/

namespace ClassTree

/-- One nesting relation that the class takes part in. -/
structure InnerInfo where
  /-- The nested class. -/
  inner : UInt16
  /-- The class that it is nested in. -/
  outer : UInt16
  simpleName : UInt16
  access : Modifiers
deriving DecidableEq

structure FieldInfo where
  access : Modifiers
  name : UInt16
  descriptor : UInt16
deriving DecidableEq

structure MethodInfo where
  access : Modifiers
  name : UInt16
  descriptor : UInt16
  /-- How many local slots the code needs, receiver and parameters included. -/
  maxLocals : UInt16
  code : Array UInt8
deriving DecidableEq

structure ClassFile where
  major : UInt16 := 1
  minor : UInt16 := 0
  constants : Constants
  access : Modifiers
  thisClass : UInt16
  /-- Zero for a class without superclass. -/
  superClass : UInt16
  inner : List InnerInfo
  fields : List FieldInfo
  methods : List MethodInfo
deriving DecidableEq

namespace ClassFile

/-- The first four bytes of every class file. -/
def magic : Nat := 0xc1a5f0a6

/-- The major version of the format that is written and read. -/
def majorVersion : UInt16 := 1

/-- The name of the class. -/
def name? (f : ClassFile) : Option String := f.constants.className? f.thisClass

def superName? (f : ClassFile) : Option String := f.constants.className? f.superClass

end ClassFile

/-- What the format can hold a limited number of. -/
inductive Countable where
  | constant | utf8Byte | innerClass | field | method | codeByte
deriving DecidableEq, Repr

def Countable.text : Countable → String
  | .constant => "constant"
  | .utf8Byte => "utf8 byte"
  | .innerClass => "inner class"
  | .field => "field"
  | .method => "method"
  | .codeByte => "code byte"

/-- Why a class file cannot be read or written. -/
inductive FormatError where
  | truncated (offset : Nat)
  | badMagic (found : Nat)
  | unsupportedVersion (major minor : UInt16)
  | unknownConstantTag (tag : UInt8) (offset : Nat)
  | invalidUtf8 (index : Nat)
  | trailingBytes (count : Nat)
  | tooMany (what : Countable) (count : Nat)
deriving DecidableEq, Repr

def FormatError.message : FormatError → String
  | .truncated offset => s!"unexpected end of data at offset {offset}"
  | .badMagic found => "bad magic number 0x" ++ Hex.ofNat 8 found
  | .unsupportedVersion major minor => s!"unsupported class file version {major}.{minor}"
  | .unknownConstantTag tag offset => s!"unknown constant tag {tag} at offset {offset}"
  | .invalidUtf8 index => s!"constant {index} is not valid UTF-8"
  | .trailingBytes count => s!"{count} trailing bytes after class data"
  | .tooMany what count => s!"{what.text} count {count} exceeds the format limit"

/-- The stable name of the kind of failure. -/
def FormatError.kind : FormatError → String
  | .truncated _ => "ClassFile.Truncated"
  | .badMagic _ => "ClassFile.BadMagic"
  | .unsupportedVersion .. => "ClassFile.UnsupportedVersion"
  | .unknownConstantTag .. => "ClassFile.UnknownConstantTag"
  | .invalidUtf8 _ => "ClassFile.InvalidUtf8"
  | .trailingBytes _ => "ClassFile.TrailingBytes"
  | .tooMany .. => "ClassFile.TooMany"

end ClassTree
