import ClassTree.ClassDef
import ClassTree.ClassFile.Basic
import ClassTree.Code.Instr
import ClassTree.Verify.Constants

/-!
# Verification of code

Code is read from the front into instructions with their effect on the operand stack. Jumps must lead to instructions,
and a walk over all that can be reached must find one stack depth for each of them, without underflow and without an
end that is not a return.
-/

namespace ClassTree

/-- What an instruction takes from the operand stack and puts on it, and where it may jump. -/
structure Effect where
  op : Opcode
  pops : Nat
  pushes : Nat
  target : Option Nat := none
deriving DecidableEq

/-- The code of a method that is under verification. -/
structure CodeCheck where
  constants : Constants
  /-- How messages name the method. -/
  method : String
  maxLocals : UInt16
  code : Array UInt8
  /-- Whether the method gives a value. -/
  returnsValue : Bool

/-- The greatest depth of an operand stack. -/
def maxStackDepth : Nat := 65535

namespace CodeCheck

def error {α : Type} (c : CodeCheck) (offset : Nat) (reason : String) : Except VerifyError α :=
  .error (.badCode c.method offset reason)

/-- Fails at an offset unless an option has a value. -/
def need {α : Type} (c : CodeCheck) (offset : Nat) (reason : String) (o : Option α) : Except VerifyError α :=
  orFail (.badCode c.method offset reason) o

/-- The effect of the instruction at an offset; its operands must name what it needs. -/
def effect (c : CodeCheck) (offset : Nat) (i : Instr) : Except VerifyError Effect :=
  let simple (pops pushes : Nat) : Except VerifyError Effect := .ok { op := i.opcode, pops, pushes }
  let next := offset + i.size
  match i with
  | .ldc constant =>
    match c.constants.get? constant with
    | some (.int _) | some (.long _) | some (.double _) | some (.string _) => simple 0 1
    | _ => c.error offset "Ldc operand is not a loadable constant"
  | .push _ => simple 0 1
  | .pop => simple 1 0
  | .dup => simple 1 2
  | .dupX1 => simple 2 3
  | .load slot =>
    if slot < c.maxLocals then simple 0 1 else c.error offset s!"local slot {slot} is out of range"
  | .store slot =>
    if slot < c.maxLocals then simple 1 0 else c.error offset s!"local slot {slot} is out of range"
  | .field access ref => do
    let _ ← c.need offset "operand is not a field reference" (c.constants.fieldRef? ref)
    match access with
    | .get => simple 1 1
    | .put => simple 2 0
  | .fieldDyn access name => do
    let _ ← c.need offset "operand is not a field name" (c.constants.utf8? name)
    match access with
    | .get => simple 1 1
    | .put => simple 2 0
  | .new cls => do
    let _ ← c.need offset "operand is not a class reference" (c.constants.className? cls)
    simple 0 1
  | .invoke kind ref => do
    let ref ← c.need offset "operand is not a method reference" (c.constants.methodRef? ref)
    let sig ← c.need offset "invalid method descriptor" (Signature.ofDescriptor? ref.descriptor)
    if (kind = .special) ≠ (ref.name = constructorName) then
      c.error offset s!"{i.opcode.text} cannot call '{ref.name}'"
    else
      simple (sig.params.length + if kind = .static then 0 else 1) (if sig.ret.isVoid then 0 else 1)
  | .invokeDynamic name argc => do
    let _ ← c.need offset "operand is not a method name" (c.constants.utf8? name)
    simple (argc.toNat + 1) 1
  | .invokeSpecialDyn cls argc => do
    let _ ← c.need offset "operand is not a class reference" (c.constants.className? cls)
    simple (argc.toNat + 1) 1
  | .invokeStaticDyn cls name argc => do
    let _ ← c.need offset "operand is not a class reference" (c.constants.className? cls)
    let _ ← c.need offset "operand is not a method name" (c.constants.utf8? name)
    simple argc.toNat 1
  | .arith _ | .concat | .compare _ => simple 2 1
  | .neg | .not | .widen _ => simple 1 1
  | .jump distance => .ok { op := .jump, pops := 0, pushes := 0, target := some (next + distance.toNat) }
  | .jumpIfFalse distance => .ok { op := .jumpIfFalse, pops := 1, pushes := 0, target := some (next + distance.toNat) }
  | .loop distance =>
    if distance.toNat ≤ next then
      .ok { op := .loop, pops := 0, pushes := 0, target := some (next - distance.toNat) }
    else c.error offset "loop target before the start of the code"
  | .ret => if c.returnsValue then simple 1 0 else c.error offset "Return in a method declared void"
  | .retVoid => simple 0 0

/-- The effects of the instructions from `offset` on, at their offsets. Every instruction takes a byte at least, so the
code's size bounds their number. -/
def decodeFrom (c : CodeCheck) : Nat → Nat → Array (Option Effect) → Except VerifyError (Array (Option Effect))
  | 0, _, effects => .ok effects
  | fuel + 1, offset, effects =>
    match c.code[offset]? with
    | none => .ok effects
    | some b =>
      match Opcode.ofByte? b with
      | none => c.error offset ("invalid opcode 0x" ++ Hex.ofNat 2 b.toNat)
      | some op =>
        match Instr.withOperands? c.code (offset + 1) op with
        | none => c.error offset s!"truncated operands of {op.text}"
        | some i => do
          let e ← c.effect offset i
          c.decodeFrom fuel (offset + i.size) (effects.setIfInBounds offset (some e))

/-- The effects of all instructions, at their offsets. -/
def decode (c : CodeCheck) : Except VerifyError (Array (Option Effect)) :=
  c.decodeFrom c.code.size 0 (Array.replicate c.code.size none)

/-- Whether an instruction begins at an offset, or the code ends there. -/
def onBoundary (effects : Array (Option Effect)) (target : Nat) : Bool :=
  target = effects.size || (effects[target]?.join).isSome

/-- Checks the jumps of effects, the first of which stands at `offset`. -/
def checkTargetsFrom (c : CodeCheck) (effects : Array (Option Effect)) :
    Nat → List (Option Effect) → Except VerifyError Unit
  | _, [] => .ok ()
  | offset, e :: rest =>
    match e.bind (·.target) with
    | some target =>
      if onBoundary effects target then c.checkTargetsFrom effects (offset + 1) rest
      else c.error offset s!"branch target {target} is not an instruction"
    | none => c.checkTargetsFrom effects (offset + 1) rest

/-- Checks that every jump leads to an instruction or to the end of the code. -/
def checkTargets (c : CodeCheck) (effects : Array (Option Effect)) : Except VerifyError Unit :=
  c.checkTargetsFrom effects 0 effects.toList

/-- Where control can go from an instruction: first its target, then what follows it. -/
def successors (offset : Nat) (e : Effect) : List Nat :=
  e.target.toList ++ if e.op.isTerminator then [] else [offset + 1 + e.op.operandSize]

/-- Walks over what can be reached from `todo`, offsets with the stack depth there. `depths` holds the depths found so
far, and at the end all. An offset gets a depth once and then adds at most two to `todo`, which bounds the steps. -/
def walk (c : CodeCheck) (effects : Array (Option Effect)) :
    Nat → List (Nat × Nat) → Array (Option Nat) → Except VerifyError (Array (Option Nat))
  | 0, _, depths => .ok depths
  | _ + 1, [], depths => .ok depths
  | fuel + 1, (offset, depth) :: todo, depths =>
    match depths[offset]? with
    | none => c.error offset "execution runs past the end of the code"
    | some (some known) =>
      if known = depth then c.walk effects fuel todo depths
      else c.error offset s!"stack depth {depth} does not match {known} from another path"
    | some none =>
      match effects[offset]?.join with
      | none => c.error offset "jump into the middle of an instruction"
      | some e =>
        if depth < e.pops then c.error offset s!"stack underflow in {e.op.text}"
        else
          let after := depth - e.pops + e.pushes
          if after > maxStackDepth then c.error offset "operand stack too deep"
          else
            c.walk effects fuel ((successors offset e).map (·, after) ++ todo)
              (depths.setIfInBounds offset (some depth))

/-- Checks the stack depths of all that can be reached from the start, and gives them at the offsets. -/
def checkStack (c : CodeCheck) (effects : Array (Option Effect)) : Except VerifyError (Array (Option Nat)) :=
  c.walk effects (2 * effects.size + 2) [(0, 0)] (Array.replicate effects.size none)

/-- The effects of all instructions and the stack depths before those that can be reached, both at their offsets. -/
def analyze (c : CodeCheck) : Except VerifyError (Array (Option Effect) × Array (Option Nat)) := do
  let effects ← c.decode
  c.checkTargets effects
  let depths ← c.checkStack effects
  return (effects, depths)

def verify (c : CodeCheck) : Except VerifyError Unit := do
  let _ ← c.analyze

end CodeCheck

end ClassTree
