import ClassTree.ClassFile.Reader
import ClassTree.Loader.Host
import ClassTree.Loader.Order
import ClassTree.Verify

/-!
# Class loaders

A loader is one space of class names. A class is verified when it is defined, and its superclass must be defined
before it; all other classes that it names are looked for when its code uses them.
-/

namespace ClassTree

/-- A compiled class under its name. -/
structure Artifact where
  name : Name
  bytes : Bytes
deriving DecidableEq

structure Loader where
  classes : Std.HashMap String LoadedClass

namespace Loader

/-- The loader that holds the host classes alone. -/
def boot : Loader := ⟨LoadedClass.hosts.foldl (fun m c => m.insert c.name.text c) ∅⟩

/-- The class that is defined under a name. -/
def resolve? (l : Loader) (name : String) : Option LoadedClass := l.classes[name]?

def contains (l : Loader) (name : String) : Bool := (l.resolve? name).isSome

/-- How many classes are defined, host classes included. -/
def size (l : Loader) : Nat := l.classes.size

/-- The names of all classes, sorted. -/
def names (l : Loader) : List String := l.classes.keys.mergeSort (· ≤ ·)

/-- The class file that bytes stand for. -/
def read (name : String) (bytes : Bytes) : Except LoadError ClassFile :=
  match ClassFile.decode bytes with
  | .ok f => .ok f
  | .error e => .error (.verification name e.message)

/-- The class that a class file defines under a name, with the classes that are defined already. The last failure never
comes up: a class can be read from every file that verification accepts (`ClassFile.exists_load?`). -/
def link (l : Loader) (name : String) (f : ClassFile) : Except LoadError LoadedClass := do
  let rejected (reason : String) : LoadError := .verification name reason
  let declared := f.name?.getD ""
  match f.verify with
  | .error e => throw (rejected e.message)
  | .ok () => pure ()
  require (f.name? = some name) (rejected s!"class file declares '{declared}'")
  let superName ← orFail (rejected "missing superclass") f.superName?
  require (!l.contains name) (.duplicateDefinition name)
  let superclass ← orFail (.undefinedDependency name superName) (l.resolve? superName)
  require (!superclass.access.isFinal) (rejected s!"cannot extend final class '{superName}'")
  orFail (rejected "class file cannot be read again") (f.load? superclass)

/-- Defines the class of a class file under a name; a failure changes nothing. -/
def defineFile (l : Loader) (name : String) (f : ClassFile) : Except LoadError LoadedClass × Loader :=
  match l.link name f with
  | .ok c => (.ok c, ⟨l.classes.insert name c⟩)
  | .error e => (.error e, l)

/-- Defines a class by the bytes of its class file. -/
def define (l : Loader) (name : String) (bytes : Bytes) : Except LoadError LoadedClass × Loader :=
  match read name bytes with
  | .ok f => l.defineFile name f
  | .error e => (.error e, l)

/-! ## Batches -/

/-- The classes that should be defined before a class: its superclass, and the classes that it is nested in. -/
def prerequisites (name : String) (f : ClassFile) : List String :=
  f.superName?.toList ++ f.inner.filterMap fun i =>
    if f.constants.className? i.inner = some name then f.constants.className? i.outer else none

/-- The dependencies within a batch; a name that comes twice means its last occurrence. -/
def dependencies (batch : Array (String × ClassFile)) : Dependencies where
  count := batch.size
  edges :=
    let items := batch.toList.zipIdx
    let index := items.foldl (fun (m : Std.HashMap String Nat) ((name, _), i) => m.insert name i) ∅
    items.flatMap fun ((name, f), i) =>
      (prerequisites name f).filterMap fun dep =>
        match index[dep]? with
        | some j => if j = i then none else some (j, i)
        | none => none

/-- Defines classes one after the other up to the first failure; `done` holds those before, reversed. -/
def defineEach (l : Loader) (done : List LoadedClass) :
    List (String × ClassFile) → Except LoadError (List LoadedClass) × Loader
  | [] => (.ok done.reverse, l)
  | (name, f) :: rest =>
    match l.defineFile name f with
    | (.ok c, l) => l.defineEach (c :: done) rest
    | (.error e, l) => (.error e, l)

/-- Defines a batch of classes, each after those of the batch that it needs, and gives them in that order; they come as
they were given if the sort finds no such order. Classes that are defined before a failure stay defined; bytes that cannot
be read fail before any is. -/
def defineAllBy (sort : Dependencies → Option (List Nat)) (l : Loader) (artifacts : List Artifact) :
    Except LoadError (List LoadedClass) × Loader :=
  match artifacts.mapM fun a => do return (a.name.text, ← read a.name.text a.bytes) with
  | .error e => (.error e, l)
  | .ok files =>
    let batch := files.toArray
    let order := (sort (dependencies batch)).getD (List.range batch.size)
    l.defineEach [] (order.filterMap (batch[·]?))

/-- Defines a batch of classes in the order of a depth-first walk. -/
def defineAll (l : Loader) (artifacts : List Artifact) : Except LoadError (List LoadedClass) × Loader :=
  l.defineAllBy Dependencies.sorted? artifacts

end Loader

end ClassTree
