import Mustache.Decimal.Double

/-! # Shortest decimals

The decimal with the fewest digits that reads back as a given double-precision number, and of
those the nearest; a tie goes up.  All the arithmetic is exact.

For one digit, two, three and so on, the two neighbours of the number on the decimal grid of so
many digits are tried: if any point of a grid reads back as the number, one of the two does.
-/

namespace Mustache.Decimal

/-- The number `digits · 10 ^ exponent`. -/
structure Expansion where
  digits : Nat
  exponent : Int
deriving DecidableEq

/-- A positive number and the ends of the interval of numbers that round to it, over a common
    denominator. -/
structure Interval where
  low : Nat
  value : Nat
  high : Nat
  den : Nat
  closed : Bool

/-- The numbers that round to a double.  The lower end is nearer at a power of two, where the
    spacing of doubles changes. -/
def Interval.ofDouble (x : Double) : Interval :=
  let (m, q) := x.parts
  let step := if x.fractionField = 0 && 1 < x.exponentField then 1 else 2
  let up := 1 <<< (q - 2).toNat
  let down := 1 <<< (2 - q).toNat
  ⟨(4 * m - step) * up, 4 * m * up, (4 * m + 2) * up, down, m % 2 = 0⟩

def Interval.inUnits (i : Interval) (g : Int) : Interval :=
  let up := Nat.pow 10 (-g).toNat
  let down := Nat.pow 10 g.toNat
  ⟨i.low * up, i.value * up, i.high * up, i.den * down, i.closed⟩

def Interval.holds (i : Interval) (d : Nat) : Bool :=
  if i.closed then i.low ≤ d * i.den && d * i.den ≤ i.high
  else i.low < d * i.den && d * i.den < i.high

/-- The whole number in the interval that is nearest to the value, if the value has a neighbour
    in the interval. -/
def Interval.nearest? (i : Interval) : Option Nat :=
  let d := i.value / i.den
  match i.holds d, i.holds (d + 1) with
  | true, true =>
    -- Both neighbours read back: the nearer one, or the upper one of a tie.
    if i.value - d * i.den < (d + 1) * i.den - i.value then some d else some (d + 1)
  | true, false => some d
  | false, true => some (d + 1)
  | false, false => none

def Interval.isBelow (i : Interval) (k : Int) : Bool :=
  let j := i.inUnits k
  j.value < j.den

/-- How many digits the value has before the point, or minus how many zeros it has after it: the
    least `k` with the value below `10 ^ k`.  The binary exponent tells it to within a few. -/
def Interval.magnitude (i : Interval) (log2 : Int) : Int :=
  -- The factor is the decimal logarithm of two, to five places.
  let k := log2 * 30103 / 100000
  (([-1, 0, 1, 2] : List Int).map (k + ·)).find? i.isBelow |>.getD (k + 3)

def trimZeros : Nat → Expansion → Expansion
  | 0, d => d
  | fuel + 1, d =>
    if d.digits ≠ 0 ∧ d.digits % 10 = 0 then trimZeros fuel ⟨d.digits / 10, d.exponent + 1⟩
    else d

/-- The shortest decimal of the magnitude of a finite double other than zero. -/
def shortest (x : Double) : Expansion :=
  let i := Interval.ofDouble x
  let k := i.magnitude ((Nat.log2 x.parts.1 : Int) + x.parts.2)
  let found := (List.range' 1 17).findSome? fun (n : Nat) =>
    let g := k - (n : Int)
    (i.inUnits g).nearest?.map fun d => (⟨d, g⟩ : Expansion)
  trimZeros 20 (found.getD ⟨0, 0⟩)

end Mustache.Decimal
