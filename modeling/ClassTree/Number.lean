import ClassTree.Double

/-!
# Numbers of the three numeric types
-/

namespace ClassTree

inductive Number where
  | int (n : Int32)
  | long (n : Int64)
  | double (d : Double)
deriving DecidableEq

namespace Number

/-- The nearest double. -/
def toDouble : Number → Double
  | .int n => .ofInt n.toInt
  | .long n => .ofInt n.toInt
  | .double d => d

end Number

end ClassTree
