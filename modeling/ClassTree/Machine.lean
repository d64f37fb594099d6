import ClassTree.Machine.Step

/-!
# Running code

Calls between methods with code take no nested run: the callers wait in a list of frames. A nested run is needed only
where a host method or a concatenation asks for the text of an object. Both the steps of a run and the runs within each
other are bounded, the steps by `fuel`, and the runs by `maxNestedRuns`.
-/

namespace ClassTree

namespace Run

/-- Begins or ends calls. -/
def changeDepth (f : Nat → Nat) : Run Unit := modify fun m => { m with depth := f m.depth }

/-- Looks at a frame before its next step, and at the frames that wait for it; a failure ends the run. -/
abbrev Watch := Frame → List Frame → Run Unit

/-- Looks away. -/
def unwatched : Watch := fun _ _ => pure ()

/-- Runs a frame and all that it calls to the end, for at most `fuel` steps. -/
def drive (watch : Watch) (render : Value → Run String) : Nat → Frame → List Frame → Run Value
  | 0, _, _ => throw .outOfFuel
  | fuel + 1, f, callers => do
    watch f callers
    match ← f.step render with
    | .next f => drive watch render fuel f callers
    | .call caller callee =>
      changeDepth (· + 1)
      drive watch render fuel callee (caller :: callers)
    | .ret f v =>
      changeDepth (· - 1)
      let v ← ask (·.finish f.target.method v)
      match callers with
      | [] => return v
      | caller :: callers => drive watch render fuel (if f.keepResult then caller.push v else caller) callers

/-- Does a run within those under way; afterwards depth and number of runs are as before, also if it fails. -/
def nest {α : Type} (x : Run α) : Run α := fun m =>
  if m.nestedRuns ≥ maxNestedRuns then .error (.failure (.stackOverflow m.depth)) m
  else
    let depth := m.depth
    match x { m with depth := depth + 1, nestedRuns := m.nestedRuns + 1 } with
    | .ok a m => .ok a { m with depth, nestedRuns := m.nestedRuns - 1 }
    | .error e m => .error e { m with depth, nestedRuns := m.nestedRuns - 1 }

/-- Runs a frame, with at most `levels` runs within each other. -/
def frameAt (watch : Watch) (fuel : Nat) : Nat → Frame → Run Value
  | 0, _ => throw .outOfFuel
  | levels + 1, f => nest (drive watch (textOf (frameAt watch fuel levels)) fuel f [])

/-- Runs a frame. The machine refuses a run too many before the levels are used up. -/
def frame (watch : Watch) (fuel : Nat) : Frame → Run Value := frameAt watch fuel (maxNestedRuns + 1)

/-! ## Entry points -/

/-- The text of a value as a concatenation has it. -/
def stringify (fuel : Nat) (v : Value) (watch : Watch := unwatched) : Run String := textOf (frame watch fuel) v

/-- Calls a method. -/
def call (fuel : Nat) (t : Target) (receiver : Option Value) (args : List Value) (watch : Watch := unwatched) :
    Run Value :=
  callWith (stringify fuel · watch) (frame watch fuel) t receiver args

/-- Makes an instance of a class by the constructor that fits arguments best. -/
def construct (fuel : Nat) (cls : LoadedClass) (args : List Value) (watch : Watch := unwatched) : Run Value := do
  if cls.isAbstract then fail (.abstractInstantiation cls.name.text)
  let v ← alloc cls
  let t ← constructorTarget cls args
  let _ ← call fuel t (some v) args watch
  return v

/-- Makes an instance of a class that is not an inner one. -/
def instantiate (fuel : Nat) (cls : LoadedClass) (args : List Value) (watch : Watch := unwatched) : Run Value := do
  if cls.isInner then fail (.outerInstanceRequired cls.name.text)
  construct fuel cls args watch

/-- Makes an instance of an inner class that belongs to an outer instance. -/
def instantiateInner (fuel : Nat) (cls : LoadedClass) (outer : Value) (args : List Value)
    (watch : Watch := unwatched) : Run Value := do
  if !cls.isInner then fail (.typeMismatch "non-static inner class" cls.name.text)
  if outer.isNull then fail (.nullReference outerField)
  construct fuel cls (outer :: args) watch

/-- Calls the method of a name that fits arguments best on a value. -/
def invoke (fuel : Nat) (receiver : Value) (name : String) (args : List Value) (watch : Watch := unwatched) :
    Run Value := do
  let t ← virtualTarget receiver name args
  call fuel t (t.receiver? receiver) args watch

/-- Calls the static method of a name that fits arguments best. -/
def invokeStatic (fuel : Nat) (cls : LoadedClass) (name : String) (args : List Value)
    (watch : Watch := unwatched) : Run Value := do
  let t ← staticTarget cls name args
  call fuel t none args watch

end Run

end ClassTree
