import BrakeCheck.Fault
import BrakeCheck.Rational.Digits

/-!
# Decimal numerals

A decimal numeral is an integer together with the number of its digits that stand after the
decimal point, so `98` with one such digit is `9.8`.  Trailing zeros are part of the numeral.

## Main definitions

* `Decimal.toRat` — the exact value.
* `Decimal.digits`, `Decimal.render` — the numeral as it is written.
-/

namespace BrakeCheck

/-- The numeral `mantissa / 10 ^ scale`. -/
structure Decimal where
  mantissa : Int
  scale : Nat
  deriving DecidableEq

namespace Decimal

open Rational

/-- The exact value of a numeral. -/
def toRat (d : Decimal) : Rat := mkRat d.mantissa (powerOfTen d.scale)

/-- The digits of the magnitude, led by zeros until one of them stands before the point. -/
def paddedDigits (d : Decimal) : List Char :=
  let digits := naturalDigits d.mantissa.natAbs
  List.replicate (d.scale + 1 - digits.length) '0' ++ digits

/-- The characters of a numeral; the point is left out when no digit follows it. -/
def digits (d : Decimal) : List Char :=
  let sign := if d.mantissa < 0 then ['-'] else []
  if d.scale = 0 then integerDigits d.mantissa
  else
    let ds := d.paddedDigits
    sign ++ ds.take (ds.length - d.scale) ++ '.' :: ds.drop (ds.length - d.scale)

/-- The largest number of decimal places that can be written. -/
def maxPlaces : Nat := 65534

/-- The numeral as it is written. -/
def render (d : Decimal) : Except Fault String :=
  if d.scale ≤ maxPlaces then .ok (String.ofList d.digits) else .error .tooManyPlaces

end Decimal

end BrakeCheck
