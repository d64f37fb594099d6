import ClassTree.Machine.Basic

/-!
# Methods of the host library

Text lengths count characters. The hash of a text is a polynomial over its UTF-16 units.
-/

namespace ClassTree

/-- The UTF-16 units of a character. -/
def utf16Units (c : Char) : List Nat :=
  let n := c.toNat
  if n < 0x10000 then [n] else [0xd800 + (n - 0x10000) / 0x400, 0xdc00 + (n - 0x10000) % 0x400]

/-- The polynomial with base 31 over the UTF-16 units of a text, wrapped to 32 bits. -/
def textHash (s : String) : Int32 :=
  s.toList.foldl (fun h c => (utf16Units c).foldl (fun h u => h * 31 + Int32.ofNat u) h) 0

/-- The number of characters of a text, as far as an integer can say. -/
def textLength (s : String) : Value := .int (Int32.ofNat (min s.length 2147483647))

namespace Native

/-- A receiver or argument that must be a text. -/
def text (v : Value) (member : String) : Run String :=
  match v with
  | .str s => pure s
  | .null => Run.fail (.nullReference member)
  | v => Run.ask fun h => .error (h.mismatch Name.string.text v)

/-- A receiver that must be a text buffer, by its place in the heap. -/
def builder (v : Value) (member : String) : Run Nat := do
  match v with
  | .null => Run.fail (.nullReference member)
  | .object id =>
    if ((← get).heap.class? id).any (·.host = some .stringBuilder) then pure id
    else Run.ask fun h => .error (h.mismatch Name.stringBuilder.text v)
  | v => Run.ask fun h => .error (h.mismatch Name.stringBuilder.text v)

/-- The text of a buffer. -/
def buffer (id : Nat) : Run String := do return ((← get).heap.buffer? id).getD ""

def hash : Value → Run Value
  | .str s => pure (.int (textHash s))
  | .object id => do return .int ((← get).heap.identity id)
  | .null => Run.fail (.nullReference "hashCode")
  | _ => pure (.int 0)

/-- Does what a host method does for a receiver, null for a static method, and arguments. A buffer takes the text that
`render` gives a value. -/
def run (render : Value → Run String) (n : Native) (receiver : Value) (args : List Value) : Run Value :=
  let first := args.headD .null
  match n with
  | .init => pure .null
  | .objectToString => do return .str ((← get).heap.render receiver)
  | .objectHashCode => hash receiver
  | .objectEquals => pure (.bool (receiver.looseEq first))
  | .stringLength => do return textLength (← text receiver "length")
  | .stringIsEmpty => do return .bool (← text receiver "isEmpty").isEmpty
  | .stringConcat => do
    let head ← text receiver "concat"
    let tail ← text first "concat"
    return .str (head ++ tail)
  | .stringToString => do
    let _ ← text receiver "toString"
    return receiver
  | .builderInit => do
    let id ← builder receiver constructorName
    let initial ← text first constructorName
    Run.onHeap (·.modifyBuffer id fun _ => initial)
    return .null
  | .builderAppend => do
    let id ← builder receiver "append"
    let more ← render first
    Run.onHeap (·.modifyBuffer id (· ++ more))
    return receiver
  | .builderLength => do
    let id ← builder receiver "length"
    return textLength (← buffer id)
  | .builderToString => do
    let id ← builder receiver "toString"
    return .str (← buffer id)

end Native

end ClassTree
