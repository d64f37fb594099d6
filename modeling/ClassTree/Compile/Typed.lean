import ClassTree.Compile.Basic

/-!
# Expressions with resolved references

The code of an expression whose members are resolved beforehand. What is chosen is what the types say: the same
variables, fields, overloads and widenings.
-/

namespace ClassTree

/-- Code of a value, widened to the type that is expected. -/
def widenTo (expected : Ty) : Block × Ty → Block
  | (code, t) =>
    match Widening.between? t expected with
    | some w => code ++ .one (.widen w)
    | none => code

namespace Typed

def accessField (access : FieldAccess) (f : FieldEntry) : Gen Block :=
  Gen.instr (·.accessField access ⟨f.owner.text, f.name, f.ty.descriptor⟩)

def invoke (kind : CallKind) (m : MethodEntry) : Gen Block :=
  Gen.instr (·.invoke kind ⟨m.owner.text, m.name, m.descriptor⟩)

/-- Calls a constructor of a class whose parameters are as given, the outer instance included. -/
def invokeConstructor (cls : Name) (params : List Ty) : Gen Block :=
  Gen.instr (·.invoke .special ⟨cls.text, constructorName, (Signature.mk params .void).descriptor⟩)

/-- Pushes the outer instance of the receiver, which has the type `outer`. -/
def loadOuter (c : Context) (outer : Ty) : Gen Block := do
  return loadThis ++ (← Gen.instr (·.accessField .get ⟨c.cls.name.text, outerField, outer.descriptor⟩))

/-- Pushes the outer instance of a new instance of an inner class, and gives its type. -/
def newOuter (c : Context) (cls : ClassEntry) : Gen (Block × List Ty) := do
  if !cls.isInner then return (.empty, [])
  let source ← Gen.ofExcept (c.outerInstance cls)
  let outer : Ty := (cls.enclosing.map .ref).getD .null
  match source with
  | .this => return (loadThis, [outer])
  | .outerOfThis => return (← loadOuter c ((c.cls.enclosing.map .ref).getD outer), [outer])

/-- Stores the value that is on the stack above an object in a field of the object. -/
def storeField (keep : Bool) (f : FieldEntry) : Gen Block := do
  let put ← accessField .put f
  return if keep then .one .dupX1 ++ put else put

mutual

/-- The code of an expression and the type of the value that it leaves, `void` if it leaves none. Only if `keep`, an
assignment leaves its value. -/
def expr (c : Context) (scope : Scope) (keep : Bool) : Expr → Gen (Block × Ty)
  | .lit l => do return (← c.literal l, l.ty)
  | .var name => do
    match ← Gen.ofExcept (c.lookupVar scope name) with
    | .slot v => return (.one (.load v.slot), v.ty)
    | .field f => return (loadThis ++ (← accessField .get f), f.ty)
  | .this => do
    Gen.ofExcept (c.requireInstance "this")
    return (loadThis, c.thisType)
  | .outer => do
    let t ← Gen.ofExcept c.outerType
    return (← loadOuter c t, t)
  | .field target name => do
    let (code, t) ← expr c scope true target
    let f ← Gen.ofExcept (c.field t name)
    return (code ++ (← accessField .get f), f.ty)
  | .assign (.var name) value => do
    match ← Gen.ofExcept (c.lookupVar scope name) with
    | .slot v =>
      let code := widenTo v.ty (← expr c scope true value)
      let code := if keep then code ++ .one .dup else code
      return (code ++ .one (.store v.slot), if keep then v.ty else .void)
    | .field f =>
      let code := widenTo f.ty (← expr c scope true value)
      return (loadThis ++ code ++ (← storeField keep f), if keep then f.ty else .void)
  | .assign (.field object name) value => do
    let t ← Gen.ofExcept (c.typeOf scope (.field object name))
    let (target, objectTy) ← expr c scope true object
    let f ← Gen.ofExcept (c.field objectTy name)
    let code := widenTo f.ty (← expr c scope true value)
    return (target ++ code ++ (← storeField keep f), if keep then t else .void)
  | .assign target _ => do
    let _ ← Gen.ofExcept (c.typeOf scope target)
    throw c.invalidTarget
  | .call receiver method args => do
    let r ← Gen.ofExcept (c.typeOf scope receiver)
    let ts ← Gen.ofExcept (c.typesOf scope args)
    let m ← Gen.ofExcept (c.method r method ts)
    let (target, _) ← expr c scope true receiver
    if m.isStatic then
      -- The receiver is evaluated for its effects alone.
      let pushed ← exprs c scope args m.params .empty
      return (target ++ .one .pop ++ pushed ++ (← invoke .static m), m.ret)
    else
      let pushed ← exprs c scope args m.params .empty
      return (target ++ pushed ++ (← invoke .virtual m), m.ret)
  | .staticCall cls method args => do
    let ts ← Gen.ofExcept (c.typesOf scope args)
    let m ← Gen.ofExcept (c.staticMethod cls method ts)
    let pushed ← exprs c scope args m.params .empty
    return (pushed ++ (← invoke .static m), m.ret)
  | .new cls args => do
    let ts ← Gen.ofExcept (c.typesOf scope args)
    let k ← Gen.ofExcept (c.constructor cls ts)
    let entry ← Gen.ofExcept (c.classEntry cls)
    let new ← Gen.instr (·.newObject cls.text)
    let (outer, outerParams) ← newOuter c entry
    let pushed ← exprs c scope args k.params .empty
    let call ← invokeConstructor cls (outerParams ++ k.params)
    return (new ++ .one .dup ++ outer ++ pushed ++ call, .ref cls)
  | .binary op left right => do
    match op.instr? with
    | none =>
      let (l, _) ← expr c scope true left
      let (r, _) ← expr c scope true right
      return (shortCircuit op l r, .boolean)
    | some i =>
      let lt ← Gen.ofExcept (c.typeOf scope left)
      let rt ← Gen.ofExcept (c.typeOf scope right)
      let t ← Gen.ofExcept (c.binary op lt rt)
      let (l, _) ← expr c scope true left
      let (r, _) ← expr c scope true right
      let widen (code : Block) (source : Ty) : Block := match t.operand with
        | some target => widenTo target (code, source)
        | none => code
      return (widen l lt ++ widen r rt ++ .one (if t.isConcat then .concat else i), t.result)
  | .unary op operand => do
    let (code, t) ← expr c scope true operand
    let result ← Gen.ofExcept (c.unary op t)
    return (code ++ .one op.instr, result)

/-- The code of arguments, each widened to the type of its parameter, behind the code of those before them. -/
def exprs (c : Context) (scope : Scope) : List Expr → List Ty → Block → Gen Block
  | e :: rest, t :: ts, done => do
    let code := widenTo t (← expr c scope true e)
    exprs c scope rest ts (done ++ code)
  | _, _, done => pure done

end

/-- Evaluates an expression for its effects alone. -/
def discarded (c : Context) (scope : Scope) (e : Expr) : Gen Block := do
  let (code, t) ← expr c scope false e
  return if t.isVoid then code else code ++ .one .pop

/-- Calls the superclass constructor. -/
def superCall (c : Context) (scope : Scope) (superclass : Name) (args : List Expr) : Gen Block := do
  let ts ← Gen.ofExcept (c.typesOf scope args)
  let k ← Gen.ofExcept (c.superConstructor ts)
  let pushed ← exprs c scope args k.params .empty
  return loadThis ++ pushed ++
    (← Gen.instr (·.invoke .special ⟨superclass.text, constructorName, k.descriptor⟩))

end Typed

end ClassTree
