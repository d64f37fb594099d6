import ClassTree.Double
import Std.Data.HashMap

/-!
# Constant pools

The literals, names and member references of a class, numbered from 1; index 0 means that there is none. A pool gives
equal constants one index: doubles are equal as numbers are, and all NaNs are equal.
-/

namespace ClassTree

inductive Constant where
  /-- Text of names, descriptors and string literals. -/
  | utf8 (s : String)
  | int (n : Int32)
  | long (n : Int64)
  | double (d : Double)
  /-- A string literal, by the index of its text. -/
  | string (text : UInt16)
  /-- A class, by the index of its name. -/
  | cls (name : UInt16)
  | fieldRef (cls name descriptor : UInt16)
  | methodRef (cls name descriptor : UInt16)
deriving DecidableEq, Hashable

namespace Constant

/-- The byte that marks the kind of a constant in a class file. -/
def tag : Constant → UInt8
  | .utf8 _ => 1
  | .int _ => 2
  | .long _ => 3
  | .double _ => 4
  | .string _ => 5
  | .cls _ => 6
  | .fieldRef .. => 7
  | .methodRef .. => 8

/-- One constant for all that a pool takes as equal. -/
def canonical : Constant → Constant
  | .double d => .double d.canonical
  | c => c

end Constant

/-- A reference to a field or method, with the texts that its indices stand for. -/
structure MemberRef where
  cls : String
  name : String
  descriptor : String
deriving DecidableEq, Repr

/-- The constants of a class; the first has index 1. -/
abbrev Constants := Array Constant

namespace Constants

def get? (cs : Constants) (i : UInt16) : Option Constant :=
  if i = 0 then none else cs[i.toNat - 1]?

def utf8? (cs : Constants) (i : UInt16) : Option String :=
  match cs.get? i with
  | some (.utf8 s) => some s
  | _ => none

/-- The name of a class constant. -/
def className? (cs : Constants) (i : UInt16) : Option String :=
  match cs.get? i with
  | some (.cls name) => cs.utf8? name
  | _ => none

/-- The text of a string constant. -/
def string? (cs : Constants) (i : UInt16) : Option String :=
  match cs.get? i with
  | some (.string text) => cs.utf8? text
  | _ => none

def member? (cs : Constants) (cls name descriptor : UInt16) : Option MemberRef := do
  return ⟨← cs.className? cls, ← cs.utf8? name, ← cs.utf8? descriptor⟩

def fieldRef? (cs : Constants) (i : UInt16) : Option MemberRef :=
  match cs.get? i with
  | some (.fieldRef cls name descriptor) => cs.member? cls name descriptor
  | _ => none

def methodRef? (cs : Constants) (i : UInt16) : Option MemberRef :=
  match cs.get? i with
  | some (.methodRef cls name descriptor) => cs.member? cls name descriptor
  | _ => none

end Constants

/-! ## Adding constants -/

structure Pool where
  constants : Constants
  /-- The index of the first constant equal to a canonical one. -/
  index : Std.HashMap Constant UInt16
  /-- Whether a constant was refused because the pool is full. -/
  overflowed : Bool

namespace Pool

/-- The greatest number of constants. -/
def maxEntries : Nat := 65534

def empty : Pool := ⟨#[], ∅, false⟩

/-- A pool of given constants in their order; equal constants stay apart, and the first is the one that is found. -/
def ofConstants (cs : Constants) : Pool where
  constants := cs
  index := (cs.foldl (fun (ix, i) c => (ix.insertIfNew c.canonical i, i + 1)) ((∅ : Std.HashMap Constant UInt16), 1)).1
  overflowed := false

def size (p : Pool) : Nat := p.constants.size

/-- The index of a constant, which is added if it is new. A full pool gives 0 and remembers that it did. -/
def add (p : Pool) (c : Constant) : UInt16 × Pool :=
  match p.index[c.canonical]? with
  | some i => (i, p)
  | none =>
    if p.size < maxEntries then
      let i := (p.size + 1).toUInt16
      (i, { p with constants := p.constants.push c, index := p.index.insert c.canonical i })
    else (0, { p with overflowed := true })

def addUtf8 (p : Pool) (s : String) : UInt16 × Pool := p.add (.utf8 s)

/-- Adds a string literal after its text. -/
def addString (p : Pool) (s : String) : UInt16 × Pool :=
  let (text, p) := p.addUtf8 s
  p.add (.string text)

/-- Adds a class after its name. -/
def addClass (p : Pool) (name : String) : UInt16 × Pool :=
  let (name, p) := p.addUtf8 name
  p.add (.cls name)

/-- Adds the class, the name and the descriptor of a member. -/
def addMember (p : Pool) (m : MemberRef) : (UInt16 × UInt16 × UInt16) × Pool :=
  let (cls, p) := p.addClass m.cls
  let (name, p) := p.addUtf8 m.name
  let (descriptor, p) := p.addUtf8 m.descriptor
  ((cls, name, descriptor), p)

def addFieldRef (p : Pool) (m : MemberRef) : UInt16 × Pool :=
  let ((cls, name, descriptor), p) := p.addMember m
  p.add (.fieldRef cls name descriptor)

def addMethodRef (p : Pool) (m : MemberRef) : UInt16 × Pool :=
  let ((cls, name, descriptor), p) := p.addMember m
  p.add (.methodRef cls name descriptor)

end Pool

end ClassTree
