import ClassTree.ClassFile.Writer
import ClassTree.Compile.Body

/-!
# Class files of classes

A class becomes a class file: its nesting relations, its fields and the code of its methods, over one pool of constants.
All methods are compiled even after one has failed, so that all findings are reported together.
-/

namespace ClassTree

namespace LoweredClass

/-- The nesting relation of a class to the class that it is nested in, if it is. -/
def ownNesting (l : LoweredClass) (thisClass : UInt16) (p : Pool) : List InnerInfo × Pool :=
  match l.enclosing with
  | none => ([], p)
  | some outer =>
    let (outer, p) := p.addClass outer.text
    let (simpleName, p) := p.addUtf8 l.name.simpleName
    ([{ inner := thisClass, outer, simpleName, access := l.modifiers }], p)

/-- The nesting relation of a class that is nested in this one. -/
def nesting (thisClass : UInt16) (nested : ClassEntry) (p : Pool) : InnerInfo × Pool :=
  let (inner, p) := p.addClass nested.name.text
  let (simpleName, p) := p.addUtf8 nested.name.simpleName
  ({ inner, outer := thisClass, simpleName, access := nested.modifiers }, p)

def fieldInfo (f : LoweredField) (p : Pool) : FieldInfo × Pool :=
  let (name, p) := p.addUtf8 f.name
  let (descriptor, p) := p.addUtf8 f.ty.descriptor
  ({ access := f.modifiers, name, descriptor }, p)

/-- The context of a method of a class. -/
def context (r : Registry) (entry : ClassEntry) (m : LoweredMethod) : Context :=
  ⟨r, entry, m.name, m.modifiers.isStatic, m.ret⟩

/-- A method with its code; name and descriptor enter the pool after the constants of the code. -/
def methodInfo (b : Binding) (r : Registry) (entry : ClassEntry) (m : LoweredMethod) : Gen MethodInfo := do
  let { maxLocals, code } ← compileMethod b (context r entry m) m
  let name ← modifyGet (·.addUtf8 m.name)
  let descriptor ← modifyGet (·.addUtf8 m.descriptor)
  return { access := m.modifiers, name, descriptor, maxLocals, code }

/-- Makes the parts of a table one after the other. -/
def table {α β : Type} (make : α → Pool → β × Pool) (items : List α) (p : Pool) : Array β × Pool :=
  items.foldl (fun (done, p) a => match make a p with
    | (info, p) => (done.push info, p)) (#[], p)

/-- Makes methods one after the other; those that fail leave a finding. -/
def methodTable (b : Binding) (r : Registry) (entry : ClassEntry) :
    List LoweredMethod → Array MethodInfo → Array Diagnostic → Pool → (Array MethodInfo × Array Diagnostic) × Pool
  | [], done, found, p => ((done, found), p)
  | m :: rest, done, found, p =>
    match methodInfo b r entry m p with
    | .ok info p => methodTable b r entry rest (done.push info) found p
    | .error d p => methodTable b r entry rest done (found.push d) p

/-- What is too much for a class file. -/
def limitErrors (name : String) (f : ClassFile) (poolOverflowed : Bool) : List Diagnostic :=
  let report (message : String) : Diagnostic := .ofClass .codegenLimit name message
  let counts := [(f.fields.length, "field"), (f.methods.length, "method"), (f.inner.length, "inner class")]
  ((counts.find? fun (n, _) => n > 65535).toList.map fun (n, what) =>
    report s!"{n} {what} entries exceed the class file limit") ++
  ((f.methods.find? fun m => m.code.size ≥ 4294967296).toList.map fun m =>
    report s!"method code of {m.code.size} bytes exceeds the class file limit") ++
  (if poolOverflowed then [report "constant pool exceeds the class file limit"] else [])

/-- The class file of a class, or all that prevents it. -/
def assemble (b : Binding) (r : Registry) (l : LoweredClass) (entry : ClassEntry) :
    Except (List Diagnostic) ClassFile :=
  let (thisClass, p) := Pool.empty.addClass l.name.text
  let (superClass, p) := p.addClass l.superclass.text
  let (own, p) := l.ownNesting thisClass p
  let (nested, p) := table (nesting thisClass) (r.classes.filter (·.enclosing = some l.name)) p
  let (fields, p) := table fieldInfo l.fields p
  let ((methods, found), p) := methodTable b r entry l.methods #[] #[] p
  let file : ClassFile := {
    constants := p.constants, access := l.modifiers, thisClass, superClass
    inner := own ++ nested.toList, fields := fields.toList, methods := methods.toList }
  match found.toList ++ limitErrors l.name.text file p.overflowed with
  | [] => .ok file
  | ds => .error ds

/-- The bytes of the class file of a class, or all that prevents it. -/
def generate (b : Binding) (r : Registry) (l : LoweredClass) : Except (List Diagnostic) Bytes :=
  match r.get? l.name with
  | none => .error [.ofClass .unknownType l.name.text s!"class '{l.name.text}' was never declared"]
  | some entry => do
    let file ← l.assemble b r entry
    match file.encode with
    | .ok bytes => return bytes
    | .error e => throw [.ofClass .codegenLimit l.name.text e.message]

end LoweredClass

end ClassTree
