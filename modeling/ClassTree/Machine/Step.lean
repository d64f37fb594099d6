import ClassTree.Machine.Arith
import ClassTree.Machine.Call

/-!
# Steps of the machine

What one instruction does. The code of a called method is not run here: the step that calls it hands it out as a frame.
-/

namespace ClassTree

/-- What follows a step. -/
inductive Control where
  /-- The next instruction. -/
  | next (f : Frame)
  /-- The code of a method that was called; the caller waits. -/
  | call (caller callee : Frame)
  /-- The end of the method, with a value or without. -/
  | ret (f : Frame) (v : Option Value)

def Immediate.value : Immediate → Value
  | .null => .null
  | .true => .bool Bool.true
  | .false => .bool Bool.false
  | .zero => .int 0
  | .one => .int 1

namespace Frame

/-- The next instruction. -/
def fetch (f : Frame) : Except RuntimeError Instr :=
  match f.code[f.ip]? with
  | none => .error (f.invalid "execution ran past the end of the code")
  | some b =>
    match Opcode.ofByte? b with
    | none => .error (f.invalidAt (f.ip + 1) "unknown opcode")
    | some op =>
      match Instr.withOperands? f.code (f.ip + 1) op with
      | none => .error (f.invalidAt f.code.size "execution ran past the end of the code")
      | some i => .ok i

/-- What an operand stands for; the operand ends `back` bytes before the end of the instruction. -/
def operand {α : Type} (f : Frame) (o : Option α) (back : Nat) (reason : String) : Run α :=
  match o with
  | some a => pure a
  | none => Run.fail (f.invalidAt (f.ip - back) reason)

def name (f : Frame) (i : UInt16) (back : Nat) : Run String :=
  f.operand (f.constants.utf8? i) back "expected a name constant"

def className (f : Frame) (i : UInt16) (back : Nat) : Run String :=
  f.operand (f.constants.className? i) back "expected a class constant"

def fieldRef (f : Frame) (i : UInt16) : Run MemberRef :=
  f.operand (f.constants.fieldRef? i) 0 "expected a field reference"

def methodRef (f : Frame) (i : UInt16) : Run MemberRef :=
  f.operand (f.constants.methodRef? i) 0 "expected a method reference"

def signature (f : Frame) (r : MemberRef) : Run Signature :=
  f.operand (Signature.ofDescriptor? r.descriptor) 0 "malformed method descriptor"

/-- The value of a constant. -/
def constant (f : Frame) (i : UInt16) : Except RuntimeError Value :=
  match f.constants.get? i with
  | some (.int n) => .ok (.int n)
  | some (.long n) => .ok (.long n)
  | some (.double d) => .ok (.double d)
  | some (.string _) =>
    match f.constants.string? i with
    | some s => .ok (.str s)
    | none => .error (f.invalid "dangling string constant")
  | _ => .error (f.invalid "Ldc of a non-loadable constant")

/-- The topmost value, and the frame without it. -/
def pop (f : Frame) : Run (Value × Frame) :=
  match f.stack with
  | v :: stack => pure (v, { f with stack })
  | [] => Run.fail f.underflow

/-- The `n` topmost values in the order in which they were pushed, and the frame without them. -/
def popArgs (f : Frame) (n : Nat) : Run (List Value × Frame) :=
  if n ≤ f.stack.length then pure ((f.stack.take n).reverse, { f with stack := f.stack.drop n })
  else Run.fail f.underflow

/-- Replaces the topmost value by what an operator makes of it. -/
def unary (f : Frame) (op : Heap → Value → Except RuntimeError Value) : Run Control :=
  match f.stack with
  | v :: stack => do return .next { f with stack := (← Run.ask (op · v)) :: stack }
  | [] => Run.fail f.underflow

/-- Replaces the two topmost values by what an operator makes of them. -/
def binary (f : Frame) (op : Value → Value → Run Value) : Run Control :=
  match f.stack with
  | b :: a :: stack => do return .next { f with stack := (← op a b) :: stack }
  | _ => Run.fail f.underflow

end Frame

/-! ## Fields -/

/-- A value that must be an object, by its place in the heap. -/
def objectOf (v : Value) (member : String) : Run Nat :=
  match v with
  | .object id => pure id
  | .null => Run.fail (.nullReference member)
  | v => Run.ask fun h => .error (h.mismatch "object" v)

def noSuchField (cls : LoadedClass) (field : String) : RuntimeError := .noSuchField cls.name.text field

/-- The value of the field that `slot?` finds in the class of an object. -/
def readField (slot? : LoadedClass → Option Nat) (v : Value) (name : String) : Run Value := do
  let id ← objectOf v name
  let cls ← Run.classOf v name
  let slot ← Run.need (slot? cls) fun _ => noSuchField cls name
  Run.need ((← get).heap.field? id slot) fun _ => noSuchField cls name

/-- Stores a value, converted to the type of the field, in the field that `slot?` finds in the class of an object. -/
def writeField (slot? : LoadedClass → Option Nat) (v : Value) (name : String) (new : Value) : Run Unit := do
  let id ← objectOf v name
  let cls ← Run.classOf v name
  let slot ← Run.need (slot? cls) fun _ => noSuchField cls name
  let decl ← Run.need cls.layout[slot]? fun _ => noSuchField cls name
  let new ← Run.ask (·.coerce new decl.ty)
  if (← get).heap.hasSlot id slot then Run.onHeap (·.setField id slot new)
  else Run.fail (noSuchField cls name)

namespace Frame

/-- Pushes a field of the topmost object. -/
def getField (f : Frame) (slot? : LoadedClass → Option Nat) (name : String) : Run Control := do
  let (v, f) ← f.pop
  return .next (f.push (← readField slot? v name))

/-- Stores the topmost value in a field of the object under it. -/
def putField (f : Frame) (slot? : LoadedClass → Option Nat) (name : String) : Run Control := do
  let (new, f) ← f.pop
  let (v, f) ← f.pop
  writeField slot? v name new
  return .next f

/-! ## Calls -/

/-- Calls a method. Only if `keep`, its result is pushed. -/
def dispatch (f : Frame) (render : Value → Run String) (t : Target) (receiver : Option Value) (args : List Value)
    (keep : Bool) : Run Control := do
  match ← beginCall render t receiver args with
  | .done v => return .next (if keep then f.push v else f)
  | .enter callee => return .call f { callee with keepResult := keep }

/-- Calls a method by a reference. -/
def invoke (f : Frame) (render : Value → Run String) (kind : CallKind) (ref : UInt16) : Run Control := do
  let r ← f.methodRef ref
  let sig ← f.signature r
  let owner ← Run.link f.target.cls r.cls
  let keep := !sig.ret.isVoid
  match kind with
  | .virtual =>
    let (args, f) ← f.popArgs sig.params.length
    let (receiver, f) ← f.pop
    let cls ← Run.classOf receiver r.name
    let t ← Run.need (cls.findMethod? r.name r.descriptor) fun _ => noSuchMethod cls r.name
    f.dispatch render t (some receiver) args keep
  | .special =>
    let m ← Run.need (owner.ownMethod? r.name r.descriptor) fun _ => noSuchMethod owner r.name
    let (args, f) ← f.popArgs sig.params.length
    let (receiver, f) ← f.pop
    if receiver.isNull then Run.fail (.nullReference r.name)
    f.dispatch render ⟨owner, m⟩ (some receiver) args keep
  | .static =>
    let t ← Run.need ((owner.findMethod? r.name r.descriptor).filter (·.method.isStatic)) fun _ =>
      noSuchMethod owner r.name
    let (args, f) ← f.popArgs sig.params.length
    f.dispatch render t none args keep

def invokeDynamic (f : Frame) (render : Value → Run String) (name : UInt16) (argc : UInt8) : Run Control := do
  let name ← f.name name 1
  let (args, f) ← f.popArgs argc.toNat
  let (receiver, f) ← f.pop
  let t ← virtualTarget receiver name args
  f.dispatch render t (t.receiver? receiver) args true

/-- Calls a constructor by its arguments and leaves null. -/
def invokeSpecialDyn (f : Frame) (render : Value → Run String) (cls : UInt16) (argc : UInt8) : Run Control := do
  let name ← f.className cls 1
  let owner ← Run.link f.target.cls name
  let (args, f) ← f.popArgs argc.toNat
  let (receiver, f) ← f.pop
  if receiver.isNull then Run.fail (.nullReference (name ++ "." ++ constructorName))
  let t ← constructorTarget owner args
  (f.push .null).dispatch render t (some receiver) args false

def invokeStaticDyn (f : Frame) (render : Value → Run String) (cls method : UInt16) (argc : UInt8) : Run Control := do
  let name ← f.className cls 3
  let method ← f.name method 1
  let owner ← Run.link f.target.cls name
  let (args, f) ← f.popArgs argc.toNat
  let t ← staticTarget owner method args
  f.dispatch render t none args true

/-- Adds an instance of a class to the heap and pushes it. -/
def newObject (f : Frame) (cls : UInt16) : Run Control := do
  let name ← f.className cls 0
  let target ← Run.link f.target.cls name
  if target.isAbstract then Run.fail (.abstractInstantiation name)
  return .next (f.push (← Run.alloc target))

end Frame

/-! ## Instructions -/

/-- The texts of two values, one behind the other. -/
def concat (render : Value → Run String) (a b : Value) : Run Value := do
  let x ← render a
  let y ← render b
  return .str (x ++ y)

/-- An arithmetic operator; `+` joins the texts of its operands if one is a text. -/
def arithmetic (render : Value → Run String) (op : ArithOp) (a b : Value) : Run Value :=
  match op, a, b with
  | .add, .str _, _ | .add, _, .str _ => concat render a b
  | _, _, _ => Run.ask (·.arith op a b)

namespace Frame

/-- Does an instruction, with `ip` behind it. -/
def exec (f : Frame) (render : Value → Run String) : Instr → Run Control
  | .ldc i => do return .next (f.push (← Run.ofExcept (f.constant i)))
  | .push k => pure (.next (f.push k.value))
  | .pop => do
    let (_, f) ← f.pop
    return .next f
  | .dup =>
    match f.stack with
    | v :: _ => pure (.next (f.push v))
    | [] => Run.fail f.underflow
  | .dupX1 =>
    match f.stack with
    | b :: a :: stack => pure (.next { f with stack := b :: a :: b :: stack })
    | _ => Run.fail f.underflow
  | .load slot =>
    match f.locals[slot.toNat]? with
    | some v => pure (.next (f.push v))
    | none => Run.fail (f.invalid "local slot out of range")
  | .store slot =>
    match f.stack with
    | v :: stack =>
      if slot.toNat < f.locals.size then
        pure (.next { f with stack, locals := f.locals.setIfInBounds slot.toNat v })
      else Run.fail (f.invalid "local slot out of range")
    | [] => Run.fail f.underflow
  | .field access ref => do
    let r ← f.fieldRef ref
    let _ ← Run.link f.target.cls r.cls
    match access with
    | .get => f.getField (·.slot? r.cls r.name) r.name
    | .put => f.putField (·.slot? r.cls r.name) r.name
  | .fieldDyn access name => do
    let name ← f.name name 0
    match access with
    | .get => f.getField (·.slotNamed? name) name
    | .put => f.putField (·.slotNamed? name) name
  | .new cls => f.newObject cls
  | .invoke kind ref => f.invoke render kind ref
  | .invokeDynamic name argc => f.invokeDynamic render name argc
  | .invokeSpecialDyn cls argc => f.invokeSpecialDyn render cls argc
  | .invokeStaticDyn cls method argc => f.invokeStaticDyn render cls method argc
  | .arith op => f.binary (arithmetic render op)
  | .neg => f.unary Heap.negate
  | .concat => f.binary (concat render)
  | .widen w => f.unary (·.widen w)
  | .compare op => f.binary fun a b => Run.ask (·.compare op a b)
  | .not => f.unary Heap.complement
  | .jump distance => pure (.next { f with ip := f.ip + distance.toNat })
  | .jumpIfFalse distance => do
    let (v, f) ← f.pop
    if ← Run.ask (·.truth v) then return .next f
    else return .next { f with ip := f.ip + distance.toNat }
  | .loop distance =>
    if distance.toNat ≤ f.ip then pure (.next { f with ip := f.ip - distance.toNat })
    else Run.fail (f.invalid "loop before the start of the code")
  | .ret => do
    let (v, f) ← f.pop
    return .ret f (some v)
  | .retVoid => pure (.ret f none)

/-- Does the next instruction. -/
def step (f : Frame) (render : Value → Run String) : Run Control := do
  let i ← Run.ofExcept f.fetch
  { f with ip := f.ip + i.size }.exec render i

end Frame

end ClassTree
