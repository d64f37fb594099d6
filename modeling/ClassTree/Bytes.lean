/-!
# Numbers as bytes

Big-endian numbers of a fixed width.
-/

namespace ClassTree

/-- A sequence of bytes. -/
abbrev Bytes := List UInt8

namespace Bytes

/-- The number that bytes stand for, the most significant byte first. -/
def toNat (bs : Bytes) : Nat := bs.foldl (fun n b => n * 256 + b.toNat) 0

/-- The lowest `width` bytes of a number, the most significant byte first. -/
def ofNat : Nat → Nat → Bytes
  | 0, _ => []
  | width + 1, n => (n >>> (8 * width)).toUInt8 :: ofNat width n

theorem length_ofNat (width n : Nat) : (ofNat width n).length = width := by
  induction width with
  | zero => rfl
  | succ w ih => simp [ofNat, ih]

/-- The first `n` bytes and the rest, if there are that many; `taken` holds those before, reversed. -/
def splitFrom : Nat → Bytes → Bytes → Option (Bytes × Bytes)
  | 0, taken, rest => some (taken.reverse, rest)
  | _ + 1, _, [] => none
  | n + 1, taken, b :: rest => splitFrom n (b :: taken) rest

/-- The first `n` bytes and the rest, if there are that many. -/
def split? (n : Nat) (bs : Bytes) : Option (Bytes × Bytes) := splitFrom n [] bs

/-- The text of UTF-8 bytes. -/
def toText? (bs : Bytes) : Option String := String.fromUTF8? ⟨bs.toArray⟩

/-- The UTF-8 bytes of a text. -/
def ofText (s : String) : Bytes := s.toUTF8.toList

end Bytes

end ClassTree
