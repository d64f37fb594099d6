import ClassTree.Digest.Xxh64
import ClassTree.Hex

/-!
# Identity of classes, methods and constructors

A `Digest` is a 64-bit word computed from a class name, or from the owner, the method name and the parameter
descriptors. The word of a text is a parameter `word` of the mixing functions: nothing about them hangs on which hash
of texts is taken.
-/

namespace ClassTree

structure Digest where
  bits : UInt64
deriving DecidableEq, Repr

namespace Digest

/-- Marks class digests. -/
def classMark : UInt64 := 0x2fac10b63a6cc57c

/-- Marks method digests. -/
def methodMark : UInt64 := 0x7d3c8b4a92e15f6d

/-- Marks constructor digests. -/
def constructorMark : UInt64 := 0x9a7f3d5e2b8c4601

/-- Separates the parameters: odd, so that multiplication by it can be undone. -/
def separator : UInt64 := 0x4bc94d6bd06053ad

/-- Words that mark the first sixteen parameter positions. -/
def positionMarks : List UInt64 := [
  0x9e3779b97f4a7c15, 0xbf58476d1ce4e5b9, 0x94d049bb133111eb, 0xd6e8feb86659fd93,
  0xe7037ed1a0b428db, 0xc6a4a7935bd1e995, 0x8648dbbc94d49b8d, 0xa2b48b2c69e0d657,
  0x7c3e9f2a5b8d1403, 0x5d8c7b4a3e9f2106, 0x3f1e9d8c7b5a4203, 0x1a2b3c4d5e6f7089,
  0x9f8e7d6c5b4a3210, 0x2468ace013579bdf, 0xfdb97531eca86420, 0x123456789abcdef0]

/-- The word that marks position `i`; past the table it is counted on from the first one. -/
def positionMark (i : Nat) : UInt64 := (positionMarks[i]?).getD (0x9e3779b97f4a7c15 + i.toUInt64)

/-- Mixes the parameter descriptors from position `i` on into `h`, in order. -/
def mixParams (word : String → UInt64) : Nat → UInt64 → List String → UInt64
  | _, h, [] => h
  | i, h, p :: ps => mixParams word (i + 1) (h * separator + (positionMark i ^^^ word p)) ps

/-- The digest of a class name. -/
def ofClassWith (word : String → UInt64) (name : String) : Digest := ⟨classMark ^^^ word name⟩

/-- The digest of a method of the class with digest `owner`. -/
def ofMethodWith (word : String → UInt64) (owner : Digest) (name : String) (params : List String) : Digest :=
  ⟨mixParams word 0 (methodMark ^^^ owner.bits ^^^ word name) params⟩

/-- The digest of a constructor of the class with digest `owner`. -/
def ofConstructorWith (word : String → UInt64) (owner : Digest) (params : List String) : Digest :=
  ⟨mixParams word 0 (constructorMark ^^^ owner.bits) params⟩

def ofClass : String → Digest := ofClassWith xxh64
def ofMethod : Digest → String → List String → Digest := ofMethodWith xxh64
def ofConstructor : Digest → List String → Digest := ofConstructorWith xxh64

/-- The printed form, `0x` and sixteen digits. -/
def text (d : Digest) : String := "0x" ++ Hex.ofNat 16 d.bits.toNat

end Digest

end ClassTree
