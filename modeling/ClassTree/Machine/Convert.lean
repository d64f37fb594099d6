import ClassTree.Error
import ClassTree.Heap

/-!
# Conversions at calls and stores

A value that is passed, returned or stored is converted to the declared type: numbers are widened, and references are
checked. The same rules price the candidates of a call by name, whose totals are counted in 32 bits and wrap.
-/

namespace ClassTree

namespace Heap

def mismatch (h : Heap) (expected : String) (v : Value) : RuntimeError := .typeMismatch expected (h.typeText v)

/-- How many superclass steps lead from the class of a value to the class that a type names; one for null. -/
def referenceCost (h : Heap) (v : Value) : Ty → Option Nat
  | .ref name =>
    match v with
    | .null => some 1
    | .str _ => if name = .string then some 0 else if name = .object then some 1 else none
    | .object id => (h.class? id).bind (·.distance? name)
    | _ => none
  | _ => none

/-- Converts a value to a declared type; what is converted to `void` is dropped. -/
def coerce (h : Heap) (v : Value) (t : Ty) : Except RuntimeError Value :=
  match v, t with
  | _, .void => .ok .null
  | .bool _, .boolean | .int _, .int | .long _, .long | .double _, .double => .ok v
  | .int n, .long => .ok (.long n.toInt64)
  | .int n, .double => .ok (.double (.ofInt n.toInt))
  | .long n, .double => .ok (.double (.ofInt n.toInt))
  | .null, .null => .ok v
  | _, _ => if (h.referenceCost v t).isSome then .ok v else .error (h.mismatch t.text v)

/-- Converts arguments to the types of their parameters. -/
def coerceAll (h : Heap) : List Value → List Ty → Except RuntimeError (List Value)
  | v :: vs, t :: ts => do
    let v ← h.coerce v t
    let vs ← h.coerceAll vs ts
    return v :: vs
  | _, _ => .ok []

/-- The cost of passing a value where a type is declared. -/
def argumentCost (h : Heap) (v : Value) (t : Ty) : Option Nat :=
  match v, t with
  | .bool _, .boolean | .int _, .int | .long _, .long | .double _, .double => some 0
  | .int _, .long | .long _, .double => some 1
  | .int _, .double => some 2
  | _, _ => h.referenceCost v t

/-- The total cost of passing arguments to parameters, which must be as many. -/
def callCost (h : Heap) (args : List Value) (params : List Ty) : Option UInt32 :=
  if params.length = args.length then
    (args.zip params).foldlM (fun total (v, t) => (h.argumentCost v t).map (total + .ofNat ·)) 0
  else none

/-- The cheaper of two candidates, the first if they cost the same. -/
def cheaper (best : Option (UInt32 × Target)) (c : UInt32 × Target) : Option (UInt32 × Target) :=
  match best with
  | some b => if c.1 < b.1 then some c else some b
  | none => some c

/-- The candidate with the least cost for the arguments; of several the first. -/
def select? (h : Heap) (candidates : List Target) (args : List Value) : Option Target :=
  let viable := candidates.filterMap fun t => (h.callCost args t.method.params).map (·, t)
  (viable.foldl cheaper none).map (·.2)

/-- What a method hands to its caller: nothing for `void`, and the default of its type if it ended without a value. -/
def finish (h : Heap) (m : LoadedMethod) : Option Value → Except RuntimeError Value
  | some v => if m.ret.isVoid then .ok .null else h.coerce v m.ret
  | none => if m.ret.isVoid then .ok .null else .ok (.defaultOf m.ret)

end Heap

end ClassTree
