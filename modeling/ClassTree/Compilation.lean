import ClassTree.Compile
import ClassTree.Loader
import ClassTree.Resolution

/-!
# Compilations

Classes that are compiled together. They go through the phases side by side: a class with errors drops out of the later
phases, and the others go on. Phases may be run a few at a time; once one has run, no class can be added.
-/

namespace ClassTree

/-- What is done to the classes of a compilation, in this order. -/
inductive Phase where
  | initialization
  /-- There is no text to be parsed, so nothing is done. -/
  | parsing
  | resolution
  | typeChecking
  | lowering
  | classGeneration
deriving DecidableEq, Repr

namespace Phase

def all : List Phase := [.initialization, .parsing, .resolution, .typeChecking, .lowering, .classGeneration]

def text : Phase → String
  | .initialization => "initialization"
  | .parsing => "parsing"
  | .resolution => "resolution"
  | .typeChecking => "type checking"
  | .lowering => "lowering"
  | .classGeneration => "class generation"

/-- The phase of a name. -/
def ofText? (s : String) : Option Phase := all.find? (·.text = s)

/-- The place of a phase in the order. -/
def rank (p : Phase) : Nat := p.ctorIdx

end Phase

structure Config where
  /-- Whether bodies are checked and members resolved beforehand; if not, members are looked up by name at run time. -/
  staticChecking : Bool := true
  /-- Whether an error in one class takes away the class files of all. -/
  atomic : Bool := false
  /-- Whether constants are folded. -/
  optimize : Bool := true
  /-- The greatest number of calls under way in a machine that runs the classes. -/
  maxDepth : Nat := 256
deriving DecidableEq

def Config.binding (c : Config) : Binding := if c.staticChecking then .static else .dynamic

/-- A class of a compilation with what the phases have made of it. -/
structure Module where
  name : String
  /-- The class, without the classes nested in it: those have modules of their own. -/
  cls : ClassDef
  found : List Diagnostic := []
  lowered : Option LoweredClass := none
  artifact : Option Bytes := none

namespace Module

def hasErrors (m : Module) : Bool := Diagnostic.hasErrors m.found

/-- The text of the name of the class. -/
def className (m : Module) : String := m.cls.name.text

/-- The name of a module that has no source. -/
def syntheticName (cls : Name) : String := "<synthetic:" ++ cls.text ++ ">"

def report (m : Module) (ds : List Diagnostic) : Module := { m with found := m.found ++ ds }

/-- Does something to a module, unless it has errors. -/
def unlessFailed (f : Module → Module) (m : Module) : Module := if m.hasErrors then m else f m

def check (r : Registry) (m : Module) : Module := m.report (m.cls.check r)

def lower (optimize : Bool) (m : Module) : Module := { m with lowered := some (m.cls.lower optimize) }

/-- Makes the class file of a class that was lowered. -/
def generate (b : Binding) (r : Registry) (m : Module) : Module :=
  match m.lowered with
  | none => m
  | some l =>
    match l.generate b r with
    | .ok bytes => { m with artifact := some bytes }
    | .error ds => m.report ds

end Module

/-! ## Adding classes -/

namespace ClassDef

/-- The enclosing class that a class names must be the one that its own name tells. -/
def checkOwnName (d : ClassDef) : Except ConstructionError Unit :=
  match d.enclosing with
  | none => .ok ()
  | some outer => do
    let expected ← outer.nested d.name.simpleName
    if d.name = expected then .ok () else throw (.nestedNameMismatch d.name.text expected.text)

/-- A class in the tree of another must name it as its enclosing class. -/
def checkPlace (outer : Name) (d : ClassDef) : Except ConstructionError Unit :=
  if d.enclosing = some outer then .ok ()
  else do
    let expected ← outer.nested d.name.simpleName
    throw (.nestedNameMismatch d.name.text expected.text)

mutual

/-- The class and all classes nested in it, as `flatten` gives them, each without those nested in it. All must have the
names that their places in the tree tell. -/
def split : ClassDef → Except ConstructionError (List ClassDef)
  | d@⟨name, _, _, _, _, nested⟩ => do
    d.checkOwnName
    let rest ← splitAll name nested
    return { d with nested := [] } :: rest

def splitAll (outer : Name) : List ClassDef → Except ConstructionError (List ClassDef)
  | [] => .ok []
  | d :: rest => do
    d.checkPlace outer
    let first ← d.split
    let others ← splitAll outer rest
    return first ++ others

end

end ClassDef

structure Compilation where
  config : Config := {}
  /-- The name of the module of a class. -/
  moduleName : Name → String := Module.syntheticName
  registry : Registry := .host
  modules : List Module := []
  /-- The places of the modules by the names of their classes, the last that was entered first. -/
  index : List (String × Nat) := []
  /-- Findings about classes that are not among the modules. -/
  unattributed : List Diagnostic := []
  /-- The last phase that was run. -/
  completed : Option Phase := none

namespace Compilation

/-- The place of the module of a class. -/
def position? (c : Compilation) (cls : String) : Option Nat := c.index.lookup cls

/-- The module of a class. -/
def module? (c : Compilation) (cls : String) : Option Module := (c.position? cls).bind (c.modules[·]?)

/-- Checks that names are new: not those in `taken`, no host class, and none twice. -/
def checkNew (taken : List String) : List ClassDef → Except ConstructionError Unit
  | [] => .ok ()
  | d :: rest =>
    let name := d.name.text
    if name ∈ taken || (HostClass.ofName? d.name).isSome then .error (.duplicateClass name)
    else checkNew (name :: taken) rest

/-- The classes of a tree, each without those nested in it, if all of them can be added. -/
def vetted (c : Compilation) (d : ClassDef) : Except ConstructionError (List ClassDef) := do
  if c.completed.isSome then throw (.unitSealed d.name.text)
  let classes ← d.split
  checkNew (c.index.map Prod.fst) classes
  return classes

/-- Enters a class, with a module of its own after those that are there. -/
def enter (c : Compilation) (d : ClassDef) : Compilation :=
  { c with
    modules := c.modules ++ [{ name := c.moduleName d.name, cls := d }]
    index := (d.name.text, c.modules.length) :: c.index }

/-- Adds a class and all classes nested in it, one after the other. -/
def addClass (d : ClassDef) : EStateM ConstructionError Compilation Unit := do
  let classes ← ofExcept ((← get).vetted d)
  classes.forM fun d => modify (·.enter d)

/-- The compilation with a class added to it. -/
def add (c : Compilation) (d : ClassDef) : Except ConstructionError Compilation :=
  match addClass d c with
  | .ok _ c => .ok c
  | .error e _ => .error e

/-! ## Phases -/

/-- Gives findings to the modules of the classes that they are about. -/
def distribute (c : Compilation) (ds : List Diagnostic) : Compilation :=
  { c with
    modules := c.modules.mapIdx fun i m => m.report (ds.filter fun d => c.position? d.cls = some i)
    unattributed := c.unattributed ++ ds.filter fun d => (c.position? d.cls).isNone }

/-- Enters all classes in the registry. -/
def resolve (c : Compilation) : Compilation :=
  let (registry, found) := c.registry.resolve (c.modules.map (·.cls))
  { c with registry }.distribute found

/-- Does something to all modules without errors. -/
def onModules (c : Compilation) (f : Module → Module) : Compilation :=
  { c with modules := c.modules.map (Module.unlessFailed f) }

/-- Runs one phase. -/
def runPhase (c : Compilation) : Phase → Compilation
  | .initialization | .parsing => c
  | .resolution => c.resolve
  | .typeChecking => if c.config.staticChecking then c.onModules (·.check c.registry) else c
  | .lowering => c.onModules (·.lower c.config.optimize)
  | .classGeneration => c.onModules (·.generate c.config.binding c.registry)

/-- Whether a phase has been run. -/
def isDone (c : Compilation) (p : Phase) : Bool := c.completed.any fun done => p.rank ≤ done.rank

/-- Runs a phase unless it has been run. -/
def advance (c : Compilation) (p : Phase) : Compilation :=
  if c.isDone p then c else { c.runPhase p with completed := some p }

def hasErrors (c : Compilation) : Bool := Diagnostic.hasErrors c.unattributed || c.modules.any (·.hasErrors)

/-- All findings: those without a module first, then module by module. -/
def diagnostics (c : Compilation) : List Diagnostic := c.unattributed ++ c.modules.flatMap (·.found)

/-- The classes that have errors. -/
def failed (c : Compilation) : List String := (c.modules.filter (·.hasErrors)).map (·.className)

/-- Whether the compilation is free of errors so far. -/
def result (c : Compilation) : Except CompileError Unit :=
  if c.hasErrors then .error (.semantic c.diagnostics c.failed) else .ok ()

/-- Takes away the class files of all classes, if errors do that. -/
def withhold (c : Compilation) : Compilation :=
  if c.config.atomic && c.hasErrors then { c with modules := c.modules.map ({ · with artifact := none }) } else c

/-- Runs the phases up to one, as far as they have not been run. -/
def compile (c : Compilation) (upTo : Phase) : Except CompileError Unit × Compilation :=
  if c.modules.isEmpty then (.error .empty, c)
  else
    let c := ((Phase.all.filter (·.rank ≤ upTo.rank)).foldl advance c).withhold
    (c.result, c)

/-- The class files that have been made, in the order of the modules. -/
def artifacts (c : Compilation) : List Artifact :=
  c.modules.filterMap fun m => m.artifact.map (⟨m.cls.name, ·⟩)

/-- Defines all classes that have class files in a loader. -/
def loadInto (c : Compilation) (l : Loader) : Except LoadError (List LoadedClass) × Loader := l.defineAll c.artifacts

end Compilation

end ClassTree
