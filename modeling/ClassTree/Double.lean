/-!
# 64-bit floating point numbers

A `Double` is its 64 bits, so that two NaNs with different payloads stay apart. Arithmetic goes through the exact value
`± m · 2^q`: compute exactly, then round once, to the nearest number and from the middle to the even one.
-/

namespace ClassTree

structure Double where
  bits : UInt64
deriving DecidableEq, Repr

instance : Hashable Double := ⟨fun d => hash d.bits⟩

namespace Double

/-- What the bits stand for. -/
inductive Reading where
  /-- Not a number. -/
  | nan
  | infinite (negative : Bool)
  /-- The number `± m · 2^q`, with a zero of either sign. -/
  | finite (negative : Bool) (m : Nat) (q : Int)
deriving DecidableEq, Repr

/-- How many fractions there are for each exponent, 2⁵². -/
def fractions : Nat := 0x10000000000000

def isNegative (d : Double) : Bool := d.bits >>> 63 = 1

def read (d : Double) : Reading :=
  let bits := d.bits.toNat
  let exponent : Nat := bits / fractions % 2048
  let fraction : Nat := bits % fractions
  if exponent = 2047 then (if fraction = 0 then .infinite d.isNegative else .nan)
  else if exponent = 0 then .finite d.isNegative fraction (-1074)
  else .finite d.isNegative (fractions + fraction) ((exponent : Int) - 1075)

def isNaN (d : Double) : Bool := d.read = .nan

/-- Sets the sign bit of a magnitude. -/
def withSign (negative : Bool) (magnitude : Nat) : Double :=
  ⟨((if negative then 0x8000000000000000 else 0) + magnitude).toUInt64⟩

def zero (negative : Bool) : Double := withSign negative 0

def infinity (negative : Bool) : Double := withSign negative (2047 * fractions)

/-- The NaN that an operation without a result gives. -/
def invalid : Double := ⟨0xfff8000000000000⟩

/-- The NaN that a NaN operand gives: its payload with the quiet bit set. -/
def quiet (d : Double) : Double := ⟨d.bits ||| 0x0008000000000000⟩

/-- The quotient `m / 2^s` rounded to the nearest integer, a half going to the even one. -/
def shiftRound (m s : Nat) : Nat :=
  let low := m >>> s
  let rest := m - low <<< s
  if 2 * rest < 1 <<< s then low
  else if 1 <<< s < 2 * rest then low + 1
  else low + low % 2

/-- The double nearest to `± m · 2^q`. A magnitude's bits are the mantissa in units of the last place, counted on
from the first number with that unit; a mantissa that rounds up into the next binade needs no other treatment. -/
def round (negative : Bool) (m : Nat) (q : Int) : Double :=
  if m = 0 then zero negative
  else
    let unit := max (q + m.log2 - 52) (-1074)
    let mantissa := if unit ≤ q then m <<< (q - unit).toNat else shiftRound m (unit - q).toNat
    let magnitude := (unit + 1074).toNat * fractions + mantissa
    if magnitude < 2047 * fractions then withSign negative magnitude else infinity negative

/-- The double nearest to an integer. -/
def ofInt (n : Int) : Double := round (n < 0) n.natAbs 0

/-- Flips the sign, of a NaN too. -/
def neg (a : Double) : Double := ⟨a.bits ^^^ 0x8000000000000000⟩

instance : Neg Double := ⟨neg⟩

/-- Applies an operation to operands that are numbers; a NaN operand is the result, the left one first. -/
def onNumbers (op : Reading → Reading → Double) (a b : Double) : Double :=
  if a.isNaN then a.quiet else if b.isNaN then b.quiet else op a.read b.read

/-- The signed integer `± m`. -/
def signed (negative : Bool) (m : Nat) : Int := if negative then -(m : Int) else m

def addReadings : Reading → Reading → Double
  | .infinite s, .infinite t => if s = t then infinity s else invalid
  | .infinite s, _ => infinity s
  | _, .infinite t => infinity t
  | .finite s m q, .finite t n r =>
    let unit := min q r
    let sum := signed s (m <<< (q - unit).toNat) + signed t (n <<< (r - unit).toNat)
    if sum = 0 then zero (s && t) else round (sum < 0) sum.natAbs unit
  | _, _ => invalid

def add : Double → Double → Double := onNumbers addReadings

instance : Add Double := ⟨add⟩

def Reading.neg : Reading → Reading
  | .nan => .nan
  | .infinite s => .infinite !s
  | .finite s m q => .finite (!s) m q

def sub : Double → Double → Double := onNumbers fun a b => addReadings a b.neg

instance : Sub Double := ⟨sub⟩

def mulReadings : Reading → Reading → Double
  | .infinite s, .infinite t => infinity (s != t)
  | .infinite s, .finite t n _ => if n = 0 then invalid else infinity (s != t)
  | .finite s m _, .infinite t => if m = 0 then invalid else infinity (s != t)
  | .finite s m q, .finite t n r => round (s != t) (m * n) (q + r)
  | _, _ => invalid

def mul : Double → Double → Double := onNumbers mulReadings

instance : Mul Double := ⟨mul⟩

/-- The quotient is computed to more than 64 binary digits, and a last digit tells whether something is left over. -/
def divReadings : Reading → Reading → Double
  | .infinite _, .infinite _ => invalid
  | .infinite s, .finite t _ _ => infinity (s != t)
  | .finite s _ _, .infinite t => zero (s != t)
  | .finite s m q, .finite t n r =>
    if n = 0 then (if m = 0 then invalid else infinity (s != t))
    else
      let scaled := m <<< 120
      let rest := if scaled % n = 0 then 0 else 1
      round (s != t) (2 * (scaled / n) + rest) (q - r - 121)
  | _, _ => invalid

def div : Double → Double → Double := onNumbers divReadings

instance : Div Double := ⟨div⟩

/-- The remainder of the division toward zero, exact, with the sign of the dividend. -/
def remReadings : Reading → Reading → Double
  | .finite s m q, .infinite _ => round s m q
  | .finite s m q, .finite _ n r =>
    if n = 0 then invalid
    else
      let unit := min q r
      round s (m <<< (q - unit).toNat % n <<< (r - unit).toNat) unit
  | _, _ => invalid

def rem : Double → Double → Double := onNumbers remReadings

instance : Mod Double := ⟨rem⟩

/-- How two numbers compare; nothing compares with NaN, and the two zeros are equal. -/
def compare? (a b : Double) : Option Ordering :=
  match a.read, b.read with
  | .nan, _ | _, .nan => none
  | .infinite s, .infinite t => some (if s = t then .eq else if s then .lt else .gt)
  | .infinite s, _ => some (if s then .lt else .gt)
  | _, .infinite t => some (if t then .gt else .lt)
  | .finite s m q, .finite t n r =>
    let unit := min q r
    some (compare (signed s (m <<< (q - unit).toNat)) (signed t (n <<< (r - unit).toNat)))

/-- Equality of numbers: NaN differs from itself, and the two zeros are equal. -/
def equal (a b : Double) : Bool := a.compare? b = some .eq

/-- One double for all that are equal as constants: all NaNs, and the two zeros. -/
def canonical (d : Double) : Double :=
  match d.read with
  | .nan => ⟨0x7ff8000000000000⟩
  | .finite _ 0 _ => zero false
  | _ => d

end Double

end ClassTree
