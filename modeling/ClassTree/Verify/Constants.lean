import ClassTree.Name
import ClassTree.Pool
import ClassTree.Ty.Descriptor
import ClassTree.Verify.Error

/-!
# Verification of constants

Every constant refers to constants of the right kind, and names and descriptors can be read.
-/

namespace ClassTree

/-- The type of a field descriptor. -/
def Ty.ofFieldDescriptor? (s : String) : Option Ty :=
  match Ty.ofDescriptor? s with
  | some t => if t.isVoid then none else some t
  | none => none

namespace Constants

/-- Checks the constant with an index. -/
def verifyAt (cs : Constants) (index : UInt16) : Constant → Except VerifyError Unit
  | .utf8 _ | .int _ | .long _ | .double _ => .ok ()
  | .string text => do
    let _ ← orFail (.badConstant index "string does not reference text") (cs.utf8? text)
  | .cls name => do
    let name ← orFail (.badConstant index "class does not reference text") (cs.utf8? name)
    let _ ← orFail (.badConstant index "invalid class name") (Name.parse? name)
  | .fieldRef .. => do
    let ref ← orFail (.badConstant index "malformed field reference") (cs.fieldRef? index)
    let _ ← orFail (.badConstant index "invalid field owner") (Name.parse? ref.cls)
    require (!ref.name.isEmpty) (.badConstant index "malformed field reference")
    let _ ← orFail (.badConstant index "invalid field descriptor") (Ty.ofFieldDescriptor? ref.descriptor)
  | .methodRef .. => do
    let ref ← orFail (.badConstant index "malformed method reference") (cs.methodRef? index)
    let _ ← orFail (.badConstant index "invalid method owner") (Name.parse? ref.cls)
    require (!ref.name.isEmpty) (.badConstant index "empty method name")
    let _ ← orFail (.badConstant index "invalid method descriptor") (Signature.ofDescriptor? ref.descriptor)

/-- Checks a list of constants, the first of which has index `i + 1`. -/
def verifyFrom (cs : Constants) : Nat → List Constant → Except VerifyError Unit
  | _, [] => .ok ()
  | i, c :: rest => do
    cs.verifyAt (i + 1).toUInt16 c
    cs.verifyFrom (i + 1) rest

/-- Checks every constant. -/
def verify (cs : Constants) : Except VerifyError Unit := cs.verifyFrom 0 cs.toList

end Constants

end ClassTree
