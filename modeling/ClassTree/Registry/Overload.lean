import ClassTree.Registry.Basic

/-!
# Overloads

Every argument is converted to its parameter's type at a cost, and the candidate with the least total cost is taken. Two
candidates that share the least cost make a call ambiguous. Totals are counted in 32 bits and wrap.
-/

namespace ClassTree.Registry

/-- The cost of passing a value of the first type where the second is expected: nothing for the same type, one for each
widening or superclass step, one for null. -/
def conversionCost (r : Registry) (source target : Ty) : Option Nat :=
  if source.isVoid || target.isVoid then none
  else if source = target then some 0
  else
    match source, target with
    | .int, .long | .long, .double => some 1
    | .int, .double => some 2
    | .null, .ref _ => some 1
    | .ref sub, .ref sup => r.distance? sub sup
    | _, _ => none

/-- Whether a value of the first type may stand where the second is expected. -/
def isAssignable (r : Registry) (source target : Ty) : Bool := (r.conversionCost source target).isSome

/-- The total cost of passing arguments to parameters; none if their numbers differ or one does not convert. -/
def callCost (r : Registry) (args params : List Ty) : Option UInt32 :=
  if params.length = args.length then
    (args.zip params).foldlM (fun total (a, p) => (r.conversionCost a p).map (total + .ofNat ·)) 0
  else none

/-- What choosing among candidates comes to. -/
inductive Choice where
  | found (m : MethodEntry)
  | ambiguous (ms : List MethodEntry)
  | noMatch
deriving DecidableEq

/-- Chooses among candidates by the types of the arguments. -/
def select (r : Registry) (candidates : List MethodEntry) (args : List Ty) : Choice :=
  let viable := candidates.filterMap fun m => (r.callCost args m.params).map (·, m)
  match (viable.map (·.1)).min? with
  | none => .noMatch
  | some best =>
    match (viable.filter (·.1 = best)).map (·.2) with
    | [m] => .found m
    | ms => .ambiguous ms

/-- Chooses the method that a call by name means. -/
def resolveMethod (r : Registry) (cls : Name) (name : String) (args : List Ty) : Choice :=
  r.select (r.findMethods cls name) args

/-- Chooses the constructor that a class creation means; constructors are not inherited. -/
def resolveConstructor (r : Registry) (cls : Name) (args : List Ty) : Choice :=
  match r.get? cls with
  | some entry => r.select entry.constructors args
  | none => .noMatch

end ClassTree.Registry
