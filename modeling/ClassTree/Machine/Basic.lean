import ClassTree.Loader
import ClassTree.Machine.Convert

/-!
# The state of the machine

A run changes the heap and counts calls, also when it fails. A class that code names is asked of the loader once; from
then on the machine knows it.
-/

namespace ClassTree

structure Machine where
  /-- Where the classes that code names are found. -/
  loader : Loader
  /-- The greatest number of calls that may be under way. -/
  maxDepth : Nat := 256
  heap : Heap := .empty
  /-- How many calls are under way. -/
  depth : Nat := 0
  /-- How many runs of code are under way, each but the first within a host method or within making a text. -/
  nestedRuns : Nat := 0
  /-- The classes that code has named so far, as they were found. -/
  links : Std.HashMap String LoadedClass := ∅

/-- The greatest number of runs of code within each other. -/
def maxNestedRuns : Nat := 16

/-- Why a run ends without a value. -/
inductive Halt where
  | failure (e : RuntimeError)
  /-- The number of steps that was allowed did not suffice. -/
  | outOfFuel
deriving DecidableEq, Repr

/-- A computation of the machine. -/
abbrev Run := EStateM Halt Machine

namespace Run

def fail {α : Type} (e : RuntimeError) : Run α := throw (.failure e)

def ofExcept {α : Type} : Except RuntimeError α → Run α
  | .ok a => pure a
  | .error e => fail e

/-- The value of an option, or a failure. -/
def need {α : Type} (o : Option α) (e : Unit → RuntimeError) : Run α :=
  match o with
  | some a => pure a
  | none => fail (e ())

/-- Asks the heap. -/
def ask {α : Type} (f : Heap → Except RuntimeError α) : Run α := do ofExcept (f (← get).heap)

/-- Changes the heap. -/
def onHeap (f : Heap → Heap) : Run Unit := modify fun m => { m with heap := f m.heap }

/-- Adds an instance of a class to the heap. -/
def alloc (cls : LoadedClass) : Run Value :=
  modifyGet fun { loader, maxDepth, heap, depth, nestedRuns, links } =>
    match heap.alloc cls with
    | (id, heap) => (.object id, { loader, maxDepth, heap, depth, nestedRuns, links })

/-- Does a computation one call deeper; afterwards the depth is as before, also if it fails. -/
def deeper {α : Type} (x : Run α) : Run α := fun m =>
  match x { m with depth := m.depth + 1 } with
  | .ok a m => .ok a { m with depth := m.depth - 1 }
  | .error e m => .error e { m with depth := m.depth - 1 }

end Run

/-- A call of a method with code that is under way. -/
structure Frame where
  target : Target
  /-- The code of the method. -/
  code : Array UInt8
  /-- The offset of the next instruction. -/
  ip : Nat := 0
  /-- The operand stack, the top first. -/
  stack : List Value := []
  locals : Array Value
  /-- Whether the result goes onto the caller's stack. -/
  keepResult : Bool := true

namespace Frame

/-- How messages name the method. -/
def text (f : Frame) : String := f.target.cls.name.text ++ "." ++ f.target.method.text

/-- The failure of code that no verified class has, at an offset. -/
def invalidAt (f : Frame) (offset : Nat) (reason : String) : RuntimeError :=
  .invalidBytecode f.text s!"{reason} at offset {offset}"

/-- The failure of code that no verified class has, behind the instruction under way. -/
def invalid (f : Frame) (reason : String) : RuntimeError := f.invalidAt f.ip reason

def underflow (f : Frame) : RuntimeError := f.invalid "operand stack underflow"

def push (f : Frame) (v : Value) : Frame := { f with stack := v :: f.stack }

/-- The constants that the code refers to. -/
def constants (f : Frame) : Constants := f.target.cls.constants

end Frame

def noSuchMethod (cls : LoadedClass) (method : String) : RuntimeError := .noSuchMethod cls.name.text method

/-- Keeps a class under the name by which it was found. -/
def Run.keep (name : String) (c : LoadedClass) : Run Unit :=
  modify fun m => { m with links := m.links.insert name c }

/-- The class under a name; `source` is what needs it. -/
def Run.resolve (source name : String) : Run LoadedClass := do
  let m ← get
  match m.links[name]? with
  | some c => pure c
  | none =>
    let c ← Run.need (m.loader.resolve? name) fun _ => .link (.undefinedDependency source name)
    Run.keep name c
    return c

/-- The class that an operand of an instruction in a class names. -/
def Run.link (source : LoadedClass) (name : String) : Run LoadedClass := Run.resolve source.name.text name

/-- The class in which a method of a value is looked for. -/
def Run.classOf (v : Value) (member : String) : Run LoadedClass := do
  match v with
  | .object id => Run.need ((← get).heap.class? id) fun _ => .nullReference member
  | .str _ => Run.resolve member Name.string.text
  | .null => Run.fail (.nullReference member)
  | v => Run.ask fun h => .error (h.mismatch "object" v)

end ClassTree
