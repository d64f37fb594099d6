import ClassTree.Registry.Basic

/-!
# The host library

The three classes that every program can use without defining them.
-/

namespace ClassTree

/-- The classes of the host library. -/
inductive HostClass where
  | object
  | string
  | stringBuilder
deriving DecidableEq, Repr

namespace HostClass

def all : List HostClass := [.object, .string, .stringBuilder]

def name : HostClass → Name
  | .object => .object
  | .string => .string
  | .stringBuilder => .stringBuilder

/-- The host class of a name. -/
def ofName? (n : Name) : Option HostClass := all.find? (·.name = n)

/-- The host class whose name is written so. -/
def ofText? (s : String) : Option HostClass := all.find? (·.name.text = s)

end HostClass

namespace Host

def method (owner : Name) (name : String) (params : List Ty) (ret : Ty) : MethodEntry :=
  { owner, name, modifiers := .pub, params, ret }

def objectEntry : ClassEntry where
  name := .object
  modifiers := .pub
  isHost := true
  methods := [
    method .object "toString" [] .string,
    method .object "hashCode" [] .int,
    method .object "equals" [.object] .boolean]
  constructors := [.constructor .object .pub []]

def stringEntry : ClassEntry where
  name := .string
  modifiers := .pub ||| .final
  superclass := some .object
  isHost := true
  methods := [
    method .string "length" [] .int,
    method .string "isEmpty" [] .boolean,
    method .string "concat" [.string] .string,
    method .string "toString" [] .string]

def stringBuilderEntry : ClassEntry where
  name := .stringBuilder
  modifiers := .pub ||| .final
  superclass := some .object
  isHost := true
  methods :=
    [.string, .boolean, .int, .long, .double, .object].map
      (fun t => method .stringBuilder "append" [t] .stringBuilder) ++
    [method .stringBuilder "length" [] .int, method .stringBuilder "toString" [] .string]
  constructors := [.constructor .stringBuilder .pub [], .constructor .stringBuilder .pub [.string]]

/-- The host classes, the root first. -/
def classes : List ClassEntry := [objectEntry, stringEntry, stringBuilderEntry]

end Host

/-- The registry that holds the host library alone. -/
def Registry.host : Registry := ⟨Host.classes⟩

end ClassTree
