import ClassTree.Decimal
import ClassTree.Double

/-!
# The text of a double

The shortest decimal that reads back as the number, positional for magnitudes from 10⁻⁴ up to 10¹⁶ and with an
exponent outside.
-/

namespace ClassTree

/-- How a number is laid out. -/
structure NumberStyle where
  /-- The least and greatest `point` of a decimal that is written positionally. -/
  leastPoint : Int
  greatestPoint : Int
  /-- The mark before a decimal exponent. -/
  exponentMark : String
  nan : String
  infinity : String

/-- Positional from `0.0001` to `9999999999999999.0`, always with a decimal point there; `1.5e-5` outside. -/
def Double.style : NumberStyle where
  leastPoint := -3
  greatestPoint := 16
  exponentMark := "e"
  nan := "NaN"
  infinity := "inf"

namespace Decimal

def zeros (n : Nat) : String := String.ofList (List.replicate n '0')

/-- Positional notation with at least one digit on each side of the point. -/
def positional (d : Decimal) : String :=
  let ds := Nat.toDigits 10 d.digits
  if d.point ≤ 0 then "0." ++ zeros (-d.point).toNat ++ String.ofList ds
  else
    let whole := d.point.toNat
    let fraction := ds.drop whole
    String.ofList (ds.take whole) ++ zeros (whole - ds.length) ++ "." ++
      (if fraction.isEmpty then "0" else String.ofList fraction)

/-- One digit, the others after a point if there are any, and the exponent. -/
def scientific (mark : String) (d : Decimal) : String :=
  let ds := Nat.toDigits 10 d.digits
  let fraction := ds.drop 1
  String.ofList (ds.take 1) ++ (if fraction.isEmpty then "" else "." ++ String.ofList fraction) ++
    mark ++ toString (d.point - 1)

def render (style : NumberStyle) (d : Decimal) : String :=
  if style.leastPoint ≤ d.point && d.point ≤ style.greatestPoint then d.positional
  else d.scientific style.exponentMark

end Decimal

namespace Double

/-- The text of a double. -/
def render (d : Double) : String :=
  match d.read with
  | .nan => style.nan
  | .infinite s => (if s then "-" else "") ++ style.infinity
  | .finite s 0 _ => (if s then "-" else "") ++ "0.0"
  | .finite s m q =>
    let halfBelow := m = fractions && q > -1074
    (if s then "-" else "") ++ (Decimal.shortest m q halfBelow).render style

end Double

end ClassTree
