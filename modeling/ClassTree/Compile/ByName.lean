import ClassTree.Compile.Basic

/-!
# Expressions with names as references

The code of an expression whose members are looked up at run time. It leaves exactly one value.
-/

namespace ClassTree

/-- Whether an expression is an assignment. -/
def Expr.isAssign : Expr → Bool
  | .assign .. => true
  | _ => false

namespace ByName

/-- Fails in a static method. -/
def requireInstance (c : Context) (what : String) : Gen Unit :=
  Gen.ofExcept (c.requireInstance s!"'{what}'")

def getField (name : String) : Gen Block := Gen.instr (·.accessFieldDyn .get name)

/-- Stores the value that is on the stack above an object in a field of the object. -/
def storeField (keep : Bool) (name : String) : Gen Block := do
  let put ← Gen.instr (·.accessFieldDyn .put name)
  return if keep then .one .dupX1 ++ put else put

/-- Pushes the outer instance of the receiver. -/
def loadOuter : Gen Block := do return loadThis ++ (← getField outerField)

/-- Where the outer instance of a new instance comes from; none for a class that is not an inner one. -/
def outerSource? (c : Context) (cls : ClassEntry) : Gen (Option OuterSource) :=
  if cls.isInner then do return some (← Gen.ofExcept (c.outerInstance cls)) else pure none

/-- Pushes the outer instance of a new instance. -/
def newOuter : Option OuterSource → Gen Block
  | none => pure .empty
  | some .this => pure loadThis
  | some .outerOfThis => loadOuter

mutual

/-- The code of an expression; only if `keep`, an assignment leaves its value. -/
def expr (c : Context) (scope : Scope) (keep : Bool) : Expr → Gen Block
  | .lit l => c.literal l
  | .var name => do
    match scope.lookup? name with
    | some v => return .one (.load v.slot)
    | none =>
      requireInstance c name
      return loadThis ++ (← getField name)
  | .this => do
    requireInstance c "this"
    return loadThis
  | .outer => do
    requireInstance c "the enclosing instance"
    if !c.cls.isInner then
      throw (c.report .noOuterInstance s!"'{c.cls.name.text}' has no enclosing instance")
    loadOuter
  | .field target name => do
    let code ← expr c scope true target
    return code ++ (← getField name)
  | .assign (.var name) value => do
    match scope.lookup? name with
    | some v =>
      let code ← expr c scope true value
      return (if keep then code ++ .one .dup else code) ++ .one (.store v.slot)
    | none =>
      requireInstance c name
      let code ← expr c scope true value
      return loadThis ++ code ++ (← storeField keep name)
  | .assign (.field object name) value => do
    let target ← expr c scope true object
    let code ← expr c scope true value
    return target ++ code ++ (← storeField keep name)
  | .assign _ _ => throw c.invalidTarget
  | .call receiver method args => do
    let argc ← c.argCount args.length
    let target ← expr c scope true receiver
    let pushed ← exprs c scope args .empty
    return target ++ pushed ++ (← Gen.instr (·.invokeDynamic method argc))
  | .staticCall cls method args => do
    let argc ← c.argCount args.length
    let pushed ← exprs c scope args .empty
    return pushed ++ (← Gen.instr (·.invokeStaticDyn cls.text method argc))
  | .new cls args => do
    let entry ← Gen.ofExcept (c.classEntry cls)
    let source ← outerSource? c entry
    let argc ← c.argCount (args.length + if source.isSome then 1 else 0)
    let new ← Gen.instr (·.newObject cls.text)
    let outer ← newOuter source
    let pushed ← exprs c scope args .empty
    let call ← Gen.instr (·.invokeSpecialDyn cls.text argc)
    -- The constructor leaves null above the new instance.
    return new ++ .one .dup ++ outer ++ pushed ++ call ++ .one .pop
  | .binary op left right => do
    let l ← expr c scope true left
    let r ← expr c scope true right
    match op.instr? with
    | none => return shortCircuit op l r
    | some i => return l ++ r ++ .one i
  | .unary op operand => do
    let code ← expr c scope true operand
    return code ++ .one op.instr

/-- The code of arguments behind the code of those before them. -/
def exprs (c : Context) (scope : Scope) : List Expr → Block → Gen Block
  | [], done => pure done
  | e :: rest, done => do
    let code ← expr c scope true e
    exprs c scope rest (done ++ code)

end

/-- Evaluates an expression for its effects alone. -/
def discarded (c : Context) (scope : Scope) (e : Expr) : Gen Block := do
  let code ← expr c scope false e
  return if e.isAssign then code else code ++ .one .pop

/-- Calls the superclass constructor. -/
def superCall (c : Context) (scope : Scope) (superclass : Name) (args : List Expr) : Gen Block := do
  let argc ← c.argCount args.length
  let pushed ← exprs c scope args .empty
  let call ← Gen.instr (·.invokeSpecialDyn superclass.text argc)
  return loadThis ++ pushed ++ call ++ .one .pop

end ByName

end ClassTree
