/-!
# Access and storage flags

The bits are written as they are into class files, unknown ones included.
-/

namespace ClassTree

/-- The flags of a class, a field or a method. -/
structure Modifiers where
  bits : UInt16
deriving DecidableEq, Repr

namespace Modifiers

instance : OrOp Modifiers := ⟨fun a b => ⟨a.bits ||| b.bits⟩⟩

def none : Modifiers := ⟨0⟩
def pub : Modifiers := ⟨0x0001⟩
def priv : Modifiers := ⟨0x0002⟩
def prot : Modifiers := ⟨0x0004⟩
def static : Modifiers := ⟨0x0008⟩
def final : Modifiers := ⟨0x0010⟩
def abstract : Modifiers := ⟨0x0400⟩

/-- Made by the compiler, not declared in the tree. -/
def synthetic : Modifiers := ⟨0x1000⟩

/-- All flags that have a meaning. -/
def known : Modifiers := ⟨0x141f⟩

/-- Whether every flag of `b` is set in `a`. -/
def contains (a b : Modifiers) : Bool := a.bits &&& b.bits = b.bits

def isPrivate (m : Modifiers) : Bool := m.contains priv
def isStatic (m : Modifiers) : Bool := m.contains static
def isFinal (m : Modifiers) : Bool := m.contains final
def isAbstract (m : Modifiers) : Bool := m.contains abstract

/-- Drops the bits without a meaning. -/
def truncate (m : Modifiers) : Modifiers := ⟨m.bits &&& known.bits⟩

/-- Whether every bit that is set has a meaning. -/
def isKnown (m : Modifiers) : Bool := m.truncate = m

/-- Whether more than one of public, private and protected is set. -/
def hasConflictingVisibility (m : Modifiers) : Bool :=
  [pub, priv, prot].countP m.contains > 1

end Modifiers

end ClassTree
