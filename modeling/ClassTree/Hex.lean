/-!
# Hexadecimal text

Digits are written in lower case. Numbers have a least number of digits, and bytes have two each.
-/

namespace ClassTree.Hex

/-- The digits of `n`, lower case, with zeros on the left up to `width` digits. -/
def ofNat (width n : Nat) : String :=
  let ds := Nat.toDigits 16 n
  String.ofList (List.replicate (width - ds.length) '0' ++ ds)

/-- The value of a digit. -/
def digit (c : Char) : Nat := if c.isDigit then c.toNat - '0'.toNat else c.toNat - 'a'.toNat + 10

/-- The number that digits stand for. -/
def toNat (s : String) : Nat := s.foldl (fun n c => n * 16 + digit c) 0

/-- The two digits of each byte. -/
def ofBytes (bs : List UInt8) : String :=
  bs.foldl (fun s b => (s.push (b.toNat / 16).digitChar).push (b.toNat % 16).digitChar) ""

/-- The bytes of pairs of digits, behind those in `acc`. -/
def pairs : List Char → Array UInt8 → Array UInt8
  | x :: y :: rest, acc => pairs rest (acc.push (digit x * 16 + digit y).toUInt8)
  | _, acc => acc

/-- The bytes that pairs of digits stand for. -/
def toBytes (s : String) : Array UInt8 := pairs s.toList #[]

end ClassTree.Hex
