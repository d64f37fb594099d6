import ClassTree.Ty
import Std.Data.HashMap

/-!
# Local variables

A `Scope` knows the variables that are visible at a point of a body and hands out their slots. A name may be declared
only while it is not visible; slots are never reused, so sibling blocks may share a name but not a slot.
-/

namespace ClassTree

/-- A visible variable. -/
structure Local where
  name : String
  ty : Ty
  slot : UInt16
  /-- How many blocks were open at its declaration. -/
  depth : Nat
deriving DecidableEq

/-- Why a declaration is refused. -/
inductive DeclareError where
  | duplicate
  | tooManyLocals
deriving DecidableEq, Repr

structure Scope where
  visible : Std.HashMap String Local
  /-- How many blocks are open. -/
  depth : Nat
  nextSlot : Nat

namespace Scope

/-- How many slots a method can have. -/
def slotLimit : Nat := 65536

/-- The scope of a static method. -/
def ofStatic : Scope := ⟨∅, 0, 0⟩

/-- The scope of an instance method, whose first slot holds the receiver. -/
def ofInstance : Scope := ⟨∅, 0, 1⟩

/-- How far the count of open blocks goes, in 32 bits. -/
def depthLimit : Nat := 4294967296

/-- Opens a block; the count of open blocks wraps. -/
def push (s : Scope) : Scope := { s with depth := (s.depth + 1) % depthLimit }

/-- Opens the block of a statement. Statements are never nested as deep as the count goes, since they are walked through by
recursion. -/
def enter (s : Scope) : Scope := { s with depth := s.depth + 1 }

/-- Closes the innermost block; what was declared in it is no longer visible. -/
def pop (s : Scope) : Scope :=
  { s with visible := s.visible.filter fun _ v => v.depth < s.depth, depth := s.depth - 1 }

def lookup? (s : Scope) (name : String) : Option Local := s.visible[name]?

/-- Declares a variable in the innermost block and gives its slot; a refusal changes nothing. -/
def declare (s : Scope) (name : String) (ty : Ty) : Except DeclareError UInt16 × Scope :=
  if s.visible.contains name then (.error .duplicate, s)
  else if s.nextSlot < slotLimit then
    let slot := s.nextSlot.toUInt16
    let v : Local := { name, ty, slot, depth := s.depth }
    (.ok slot, { s with visible := s.visible.insert name v, nextSlot := s.nextSlot + 1 })
  else (.error .tooManyLocals, s)

/-- How many slots the method needs, as far as a 16-bit count can say. -/
def maxLocals (s : Scope) : UInt16 := (min s.nextSlot 65535).toUInt16

end Scope

end ClassTree
