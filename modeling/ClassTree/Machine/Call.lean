import ClassTree.Machine.Native

/-!
# Calls

A call of a host method is done at once; a call of a method with code becomes a frame. Arguments are converted to the
types of the parameters, and the result to the type of the method.
-/

namespace ClassTree

/-- What beginning a call comes to. -/
inductive Invocation where
  | done (v : Value)
  | enter (f : Frame)

/-- The local variables at the start of a call: receiver and arguments, then as many nulls as the code needs. -/
def initialLocals (receiver : Option Value) (args : List Value) (maxLocals : UInt16) : Array Value :=
  let given := receiver.toList ++ args
  (given ++ List.replicate (maxLocals.toNat - given.length) Value.null).toArray

/-- Begins a call. -/
def beginCall (render : Value → Run String) (t : Target) (receiver : Option Value) (args : List Value) :
    Run Invocation := do
  let m ← get
  if m.depth ≥ m.maxDepth then Run.fail (.stackOverflow m.maxDepth)
  if args.length ≠ t.method.params.length then Run.fail (noSuchMethod t.cls t.method.name)
  let args ← Run.ask (·.coerceAll args t.method.params)
  match t.method.body with
  | .native n =>
    let v ← Run.deeper (n.run render (receiver.getD .null) args)
    return .done (← Run.ask (·.finish t.method (some v)))
  | .code maxLocals code => return .enter { target := t, code, locals := initialLocals receiver args maxLocals }
  | .abstract => Run.fail (noSuchMethod t.cls t.method.text)

/-- The method that a call by name on a value means. -/
def virtualTarget (receiver : Value) (name : String) (args : List Value) : Run Target := do
  let cls ← Run.classOf receiver name
  let candidates := (cls.methodsNamed name args.length).filter (!·.method.isConstructor)
  Run.need ((← get).heap.select? candidates args) fun _ => noSuchMethod cls name

/-- The receiver that a method found by name gets: none if it is static. -/
def Target.receiver? (t : Target) (v : Value) : Option Value := if t.method.isStatic then none else some v

/-- The method that a call by name on a class means. -/
def staticTarget (cls : LoadedClass) (name : String) (args : List Value) : Run Target := do
  let candidates := (cls.methodsNamed name args.length).filter (·.method.isStatic)
  Run.need ((← get).heap.select? candidates args) fun _ => noSuchMethod cls name

/-- The constructor that fits arguments best. -/
def constructorTarget (cls : LoadedClass) (args : List Value) : Run Target := do
  Run.need ((← get).heap.select? (cls.constructors args.length) args) fun _ => noSuchMethod cls constructorName

/-- Calls a method and waits for its result. -/
def callWith (render : Value → Run String) (run : Frame → Run Value) (t : Target) (receiver : Option Value)
    (args : List Value) : Run Value := do
  match ← beginCall render t receiver args with
  | .done v => return v
  | .enter f => run f

/-- The descriptor of the method that makes the text of an object. -/
def toStringDescriptor : String := (Signature.mk [] .string).descriptor

/-- The text of a value, for an object what its `toString` gives. No host method of that name and descriptor makes the
text of another value, so what is given to them for it does not matter. -/
def textOf (run : Frame → Run Value) (v : Value) : Run String := do
  match v with
  | .object id =>
    match ((← get).heap.class? id).bind (·.findMethod? "toString" toStringDescriptor) with
    | none => return (← get).heap.render v
    | some t =>
      match ← callWith (fun v => do return (← get).heap.render v) run t (some v) [] with
      | .str s => return s
      | other => return (← get).heap.render other
  | v => return (← get).heap.render v

end ClassTree
