import ClassTree.ClassFile.Basic
import ClassTree.Verify.Constants
import Std.Data.HashSet

/-!
# Verification of a class's structure

The class's name, flags and superclass, its nesting relations and its fields.
-/

namespace ClassTree.ClassFile

/-- Checks name, flags and superclass, and gives the name. -/
def verifyHeader (f : ClassFile) : Except VerifyError Name := do
  let text ← orFail (.badClass "this_class is not a class reference") f.name?
  let name ← orFail (.badClass "invalid class name") (Name.parse? text)
  require f.access.isKnown (.badClass "unknown access flags")
  require (!(f.access.isAbstract && f.access.isFinal)) (.badClass "class is both abstract and final")
  let superName ← orFail (.badClass "super_class is not a class reference") f.superName?
  require (superName ≠ name.text) (.badClass "class extends itself")
  return name

/-- Checks one nesting relation and gives the text of the nested class's name; `seen` holds those before. -/
def verifyInnerInfo (f : ClassFile) (name : Name) (seen : Std.HashSet String) (i : InnerInfo) :
    Except VerifyError String := do
  let (inner, outer, simple) ←
    match f.constants.className? i.inner, f.constants.className? i.outer, f.constants.utf8? i.simpleName with
    | some inner, some outer, some simple => pure (inner, outer, simple)
    | _, _, _ => throw (.badClass "malformed inner class entry")
  require i.access.isKnown (.badClass "unknown inner class access flags")
  require (!seen.contains inner) (.badClass s!"inner class '{inner}' listed twice")
  let innerName ← orFail (.badClass "invalid inner class name") (Name.parse? inner)
  require (innerName.enclosing.map Name.text = some outer && innerName.simpleName = simple)
    (.badClass s!"inner class '{inner}' is not named '{outer}${simple}'")
  require (inner = name.text || outer = name.text)
    (.badClass s!"inner class entry '{inner}' is unrelated to '{name.text}'")
  return inner

/-- Checks nesting relations and gives the nested classes that they name. -/
def verifyInnerFrom (f : ClassFile) (name : Name) : Std.HashSet String → List InnerInfo →
    Except VerifyError (Std.HashSet String)
  | seen, [] => .ok seen
  | seen, i :: rest => do
    let inner ← f.verifyInnerInfo name seen i
    f.verifyInnerFrom name (seen.insert inner) rest

/-- Checks that nesting relations follow the names, and that a nested class has its own. -/
def verifyInner (f : ClassFile) (name : Name) : Except VerifyError Unit := do
  let seen ← f.verifyInnerFrom name ∅ f.inner
  require (!name.isNested || seen.contains name.text)
    (.badClass s!"nested class '{name.text}' has no inner class entry")

/-- A text that is not empty. -/
def memberName? (cs : Constants) (i : UInt16) : Option String :=
  match cs.utf8? i with
  | some s => if s.isEmpty then none else some s
  | none => none

/-- Checks fields; `seen` holds the names before. -/
def verifyFieldsFrom (f : ClassFile) : Std.HashSet String → List FieldInfo → Except VerifyError Unit
  | _, [] => .ok ()
  | seen, field :: rest => do
    let name ← orFail (.badClass "field name is not text") (memberName? f.constants field.name)
    let _ ← orFail (.badClass s!"field '{name}' has an invalid descriptor")
      ((f.constants.utf8? field.descriptor).bind Ty.ofFieldDescriptor?)
    require field.access.isKnown (.badClass s!"field '{name}' has unknown flags")
    require (!seen.contains name) (.badClass s!"duplicate field '{name}'")
    f.verifyFieldsFrom (seen.insert name) rest

/-- Checks that fields have names, types and flags, and that no name comes twice. -/
def verifyFields (f : ClassFile) : Except VerifyError Unit := f.verifyFieldsFrom ∅ f.fields

end ClassTree.ClassFile
