import ClassTree.Double.Render
import ClassTree.Hex
import ClassTree.Loader.Class
import ClassTree.Value

/-!
# Objects

Objects live in a heap and are named by their place in it; they are never removed. A value by itself does not tell the
class of an object, so what depends on the class of a value is asked of the heap.
-/

namespace ClassTree

structure Object where
  cls : LoadedClass
  /-- One value for each slot of the class's layout. -/
  fields : Array Value
  /-- The text of a text buffer. -/
  buffer : Option String

structure Heap where
  objects : Array Object
  /-- The number that an object keeps for its lifetime, by its place. Objects may share one. -/
  identity : Nat → Int32

namespace Heap

/-- A heap without objects; the numbers that objects will have are given. -/
def empty (identity : Nat → Int32 := Int32.ofNat) : Heap := ⟨#[], identity⟩

def get? (h : Heap) (id : Nat) : Option Object := h.objects[id]?

/-- Adds an instance of a class whose fields have the defaults of their types. -/
def alloc (h : Heap) (cls : LoadedClass) : Nat × Heap :=
  let object : Object := {
    cls
    fields := (cls.layout.map fun s => Value.defaultOf s.ty).toArray
    buffer := if cls.host = some .stringBuilder then some "" else none }
  (h.objects.size, { h with objects := h.objects.push object })

def class? (h : Heap) (id : Nat) : Option LoadedClass := (h.get? id).map (·.cls)

/-- The value in a slot of an object. -/
def field? (h : Heap) (id slot : Nat) : Option Value := (h.get? id).bind (·.fields[slot]?)

/-- Whether an object has a slot. -/
def hasSlot (h : Heap) (id slot : Nat) : Bool := (h.field? id slot).isSome

/-- Stores a value in a slot of an object, if there is such a slot. -/
def setField (h : Heap) (id slot : Nat) (v : Value) : Heap :=
  { h with objects := h.objects.modify id fun o => { o with fields := o.fields.setIfInBounds slot v } }

/-- The text of a text buffer. -/
def buffer? (h : Heap) (id : Nat) : Option String := (h.get? id).bind (·.buffer)

/-- Changes the text of a text buffer. -/
def modifyBuffer (h : Heap) (id : Nat) (f : String → String) : Heap :=
  { h with objects := h.objects.modify id fun o => { o with buffer := o.buffer.map f } }

/-! ## Values in a heap -/

/-- The class of a value that is an instance of one. -/
def className? (h : Heap) : Value → Option Name
  | .str _ => some .string
  | .object id => (h.class? id).map (·.name)
  | _ => none

/-- The type that a value has by itself. -/
def typeOf (h : Heap) : Value → Ty
  | .null => .null
  | .bool _ => .boolean
  | .int _ => .int
  | .long _ => .long
  | .double _ => .double
  | .str _ => .string
  | .object id => match h.class? id with
    | some c => .ref c.name
    | none => .null

/-- How messages name the type of a value. -/
def typeText (h : Heap) (v : Value) : String := (h.typeOf v).text

/-- The text of a value without a call of any method: an object is written as its class and its identity. -/
def render (h : Heap) : Value → String
  | .null => "null"
  | .bool b => toString b
  | .int n => toString n.toInt
  | .long n => toString n.toInt
  | .double d => d.render
  | .str s => s
  | v@(.object id) => h.typeText v ++ "@" ++ String.ofList (Nat.toDigits 16 (h.identity id).toUInt32.toNat)

end Heap

end ClassTree
