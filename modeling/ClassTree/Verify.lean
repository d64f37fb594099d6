import ClassTree.Verify.Code
import ClassTree.Verify.Structure

/-!
# Verification of class files

What is checked of a class file before anything in it is used: its constants, its structure, its methods and their
code. References to other classes and their members are not followed.
-/

namespace ClassTree.ClassFile

/-- Checks one method; `seen` holds name and descriptor of those before. Gives name and descriptor of the method. -/
def verifyMethod (f : ClassFile) (seen : Std.HashSet (String × String)) (m : MethodInfo) :
    Except VerifyError (String × String) := do
  let name ← orFail (.badClass "method name is not text") (memberName? f.constants m.name)
  let descriptor ← orFail (.badClass s!"method '{name}' has no descriptor") (f.constants.utf8? m.descriptor)
  let method := name ++ descriptor
  let sig ← orFail (.badMethod method "invalid descriptor") (Signature.ofDescriptor? descriptor)
  require m.access.isKnown (.badMethod method "unknown access flags")
  require (!seen.contains (name, descriptor)) (.badMethod method "declared twice")
  require (name ≠ constructorName || !m.access.isStatic && sig.ret.isVoid)
    (.badMethod method "constructors must be instance methods returning void")
  if m.access.isAbstract then
    require f.access.isAbstract (.badMethod method "abstract method in a concrete class")
    require m.code.isEmpty (.badMethod method "abstract method has code")
  else
    require (!m.code.isEmpty) (.badMethod method "method has no code")
    let receiver := if m.access.isStatic then 0 else 1
    require (sig.params.length + receiver ≤ m.maxLocals.toNat)
      (.badMethod method "max_locals is smaller than the parameter count")
    CodeCheck.verify {
      constants := f.constants, method, maxLocals := m.maxLocals, code := m.code, returnsValue := !sig.ret.isVoid }
  return (name, descriptor)

/-- Checks methods; `seen` holds name and descriptor of those before. -/
def verifyMethodsFrom (f : ClassFile) : Std.HashSet (String × String) → List MethodInfo → Except VerifyError Unit
  | _, [] => .ok ()
  | seen, m :: rest => do
    let key ← f.verifyMethod seen m
    f.verifyMethodsFrom (seen.insert key) rest

def verifyMethods (f : ClassFile) : Except VerifyError Unit := f.verifyMethodsFrom ∅ f.methods

/-- Checks a class file; of several faults the first in the order constants, header, nesting, fields, methods is
reported. -/
def verify (f : ClassFile) : Except VerifyError Unit := do
  f.constants.verify
  let name ← f.verifyHeader
  f.verifyInner name
  f.verifyFields
  f.verifyMethods

end ClassTree.ClassFile
