/-!
# Shortest decimals

A binary number stands for every real that rounds to it. `Decimal.shortest` finds, among the decimals of that interval,
one with the fewest digits, and of those the nearest to the number.
-/

namespace ClassTree

/-- The decimal `0.d₁d₂… · 10^point`, whose digits `d₁d₂…` are those of `digits`. -/
structure Decimal where
  digits : Nat
  point : Int
deriving DecidableEq, Repr

namespace Decimal

/-- The power of ten with an exponent. -/
def tenTo (n : Nat) : Nat := Nat.pow 10 n

/-- A positive quotient of naturals. -/
structure Ratio where
  num : Nat
  den : Nat

/-- The number `m · 2^q`. -/
def Ratio.ofBinary (m : Nat) (q : Int) : Ratio := ⟨m <<< q.toNat, 1 <<< (-q).toNat⟩

/-- The number `n · 10^e`. -/
def Ratio.ofDecimal (n : Nat) (e : Int) : Ratio := ⟨n * tenTo e.toNat, tenTo (-e).toNat⟩

def Ratio.lt (a b : Ratio) : Bool := a.num * b.den < b.num * a.den
def Ratio.le (a b : Ratio) : Bool := a.num * b.den ≤ b.num * a.den

/-- How many decimal digits a number has. -/
def digitCount (n : Nat) : Nat := (Nat.toDigits 10 n).length

/-- The exponent `e` with `10^(e-1) ≤ x < 10^e`. -/
def Ratio.point (x : Ratio) : Int :=
  if x.den ≤ x.num then digitCount (x.num / x.den)
  else
    let size := digitCount (x.den / x.num)
    if x.den ≤ x.num * tenTo (size - 1) then 2 - size else 1 - size

/-- The reals that round to a binary number. -/
structure Interval where
  low : Ratio
  high : Ratio
  /-- Whether the ends belong to it. -/
  closed : Bool

def Interval.contains (i : Interval) (x : Ratio) : Bool :=
  if i.closed then i.low.le x && x.le i.high else i.low.lt x && x.lt i.high

/-- The reals that round to `m · 2^q`: half a unit up, and half a unit down, or a quarter where the unit below is half
as large. The ends round to the number exactly when `m` is even. -/
def interval (m : Nat) (q : Int) (halfBelow : Bool) : Interval where
  low := .ofBinary (if halfBelow then 4 * m - 1 else 4 * m - 2) (q - 2)
  high := .ofBinary (4 * m + 2) (q - 2)
  closed := m % 2 = 0

/-- The best decimal of `n` digits in the interval, if one is there: the nearer of the two neighbours of `x` on the grid
of `n` digits, the upper one from the middle. -/
def onGrid (x : Ratio) (i : Interval) (n : Nat) : Option Decimal :=
  let point := x.point
  let e := point - n
  let scaled : Ratio := ⟨x.num * tenTo (-e).toNat, x.den * tenTo e.toNat⟩
  let below := scaled.num / scaled.den
  let down := i.contains (.ofDecimal below e)
  let up := i.contains (.ofDecimal (below + 1) e)
  let upNearer := scaled.den ≤ 2 * (scaled.num % scaled.den)
  if up && (!down || upNearer) then
    some (if below + 1 = tenTo n then ⟨1, point + 1⟩ else ⟨below + 1, point⟩)
  else if down then some ⟨below, point⟩
  else none

/-- Drops the zeros at the end of a number's decimal digits; `fuel` bounds their count. -/
def trimZeros : Nat → Nat → Nat
  | 0, n => n
  | fuel + 1, n => if n % 10 = 0 then trimZeros fuel (n / 10) else n

/-- The shortest decimal that rounds to `m · 2^q`, `0 < m`; seventeen digits always do. -/
def shortest (m : Nat) (q : Int) (halfBelow : Bool) : Decimal :=
  let x := Ratio.ofBinary m q
  let i := interval m q halfBelow
  match (List.range' 1 17).findSome? (onGrid x i) with
  | some d => ⟨trimZeros 17 d.digits, d.point⟩
  | none => ⟨0, 0⟩

end Decimal

end ClassTree
