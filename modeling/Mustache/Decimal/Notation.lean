import Mustache.Decimal.Shortest

/-! # Decimal notation

Doubles written in decimal, with the fewest digits that read back.  Two styles are in use: one
for rendered text, one for diagnostics.
-/

namespace Mustache.Decimal

structure Style where
  /-- Whether a whole number gets a point and a zero. -/
  showsFraction : Bool
  /-- The least and the greatest magnitude that are written without an exponent, if there are
      bounds. -/
  positional : Option (Int × Int)

/-- Rendered text: never with an exponent, whole numbers without a fraction. -/
def plain : Style where
  showsFraction := false
  positional := none

/-- Diagnostics: whole numbers show a fraction; an exponent is used from ten to the sixteenth on
    and below one ten-thousandth. -/
def exact : Style where
  showsFraction := true
  positional := some (-3, 16)

def zeros (n : Nat) : String :=
  .ofList (.replicate n '0')

/-- Digits with the point after `k` of them, or `-k` zeros after the point. -/
def Style.writePositional (s : Style) (digits : List Char) (k : Int) : String :=
  let n : Int := digits.length
  if k ≤ 0 then "0." ++ zeros (-k).toNat ++ .ofList digits
  else if n ≤ k then
    .ofList digits ++ zeros (k - n).toNat ++ (if s.showsFraction then ".0" else "")
  else .ofList (digits.take k.toNat) ++ "." ++ .ofList (digits.drop k.toNat)

/-- Digits with the point after the first, times ten to the power `k - 1`. -/
def writeScientific (digits : List Char) (k : Int) : String :=
  let fraction := digits.drop 1
  .ofList (digits.take 1) ++ (if fraction.isEmpty then "" else "." ++ .ofList fraction) ++
    "e" ++ Int.repr (k - 1)

def Style.writeMagnitude (s : Style) (x : Double) : String :=
  if x.isZero then if s.showsFraction then "0.0" else "0"
  else
    let d := shortest x
    let digits := Nat.toDigits 10 d.digits
    let k : Int := digits.length + d.exponent
    match s.positional with
    | some (least, greatest) =>
      if least ≤ k ∧ k ≤ greatest then s.writePositional digits k else writeScientific digits k
    | none => s.writePositional digits k

def Style.write (s : Style) (x : Double) : String :=
  if x.isNaN then "NaN"
  else
    let sign := if x.isNegative then "-" else ""
    sign ++ if x.isInfinite then "inf" else s.writeMagnitude x

end Mustache.Decimal
