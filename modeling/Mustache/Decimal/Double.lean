/-! # Double-precision numbers

Binary floating-point numbers of 64 bits, as the words that encode them.  Nothing is computed with
them: they are compared, and written in decimal.
-/

namespace Mustache

/-- A double-precision number, by its word: one bit of sign, eleven of exponent, fifty-two of
    fraction. -/
structure Double where
  bits : UInt64
deriving DecidableEq

namespace Double

def isNegative (x : Double) : Bool :=
  x.bits.toNat >>> 63 = 1

def exponentField (x : Double) : Nat :=
  x.bits.toNat >>> 52 % 1 <<< 11

def fractionField (x : Double) : Nat :=
  x.bits.toNat % 1 <<< 52

def isNaN (x : Double) : Bool :=
  x.exponentField = 2047 && x.fractionField ≠ 0

def isInfinite (x : Double) : Bool :=
  x.exponentField = 2047 && x.fractionField = 0

def isZero (x : Double) : Bool :=
  x.exponentField = 0 && x.fractionField = 0

/-- Equality of numbers: one that is no number equals nothing, and the two zeros are equal. -/
def eq (x y : Double) : Bool :=
  !x.isNaN && !y.isNaN && (x.bits = y.bits || (x.isZero && y.isZero))

/-- The whole number `m` and the exponent `q` of a finite number `m · 2 ^ q`, the sign apart. -/
def parts (x : Double) : Nat × Int :=
  if x.exponentField = 0 then (x.fractionField, -1074)
  else (1 <<< 52 + x.fractionField, (x.exponentField : Int) - 1075)

end Double

end Mustache
