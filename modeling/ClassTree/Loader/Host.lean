import ClassTree.Loader.Class

/-!
# The host library at run time

The host classes are made of the entries that compilation sees, each method with what it does.
-/

namespace ClassTree

/-- What the methods of a host class do, by their names and the types of their parameters. -/
def HostClass.natives : HostClass → List (String × List Ty × Native)
  | .object => [
    (constructorName, [], .init),
    ("toString", [], .objectToString),
    ("hashCode", [], .objectHashCode),
    ("equals", [.object], .objectEquals)]
  | .string => [
    ("length", [], .stringLength),
    ("isEmpty", [], .stringIsEmpty),
    ("concat", [.string], .stringConcat),
    ("toString", [], .stringToString)]
  | .stringBuilder => [
    (constructorName, [], .init),
    (constructorName, [.string], .builderInit)] ++
    [.string, .boolean, .int, .long, .double, .object].map (fun t => ("append", [t], .builderAppend)) ++ [
    ("length", [], .builderLength),
    ("toString", [], .builderToString)]

/-- What the method of a host class with a signature does; a signature that nothing is known of is not bound. -/
def HostClass.native? (h : HostClass) (name : String) (params : List Ty) : Option Native :=
  (h.natives.find? fun n => n.1 = name && n.2.1 = params).map (·.2.2)

namespace LoadedClass

def ofHostMethod? (h : HostClass) (m : MethodEntry) : Option LoadedMethod :=
  (h.native? m.name m.params).map fun n => {
    name := m.name, descriptor := m.descriptor, params := m.params, ret := m.ret, access := m.modifiers
    body := .native n }

/-- A host class; its constructors come before its methods. -/
def ofHost (h : HostClass) (entry : ClassEntry) (superclass : Option LoadedClass) : LoadedClass where
  name := entry.name
  access := entry.modifiers
  superclass := superclass
  enclosing := none
  nested := []
  fields := []
  layout := []
  methods := (entry.constructors ++ entry.methods).filterMap (ofHostMethod? h)
  constants := #[]
  host := some h

def object : LoadedClass := ofHost .object Host.objectEntry none
def string : LoadedClass := ofHost .string Host.stringEntry (some object)
def stringBuilder : LoadedClass := ofHost .stringBuilder Host.stringBuilderEntry (some object)

/-- The host classes, the root first. -/
def hosts : List LoadedClass := [object, string, stringBuilder]

end LoadedClass

end ClassTree
