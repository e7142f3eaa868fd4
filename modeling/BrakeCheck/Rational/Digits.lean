/-!
# Written rationals

A rational is written in lowest terms: the integer alone when the denominator is one, otherwise
numerator, slash and denominator.

## Main definitions

* `powerOfTen` — the number with a one and some zeros.
* `integerDigits` — the characters of an integer in base ten.
* `rationalDigits`, `showRational` — the characters and the text of a rational.
-/

namespace BrakeCheck.Rational

/-- The number that is written as a one and `n` zeros. -/
def powerOfTen (n : Nat) : Nat := Nat.pow 10 n

/-- The characters of a natural number in base ten. -/
def naturalDigits (n : Nat) : List Char := Nat.toDigits 10 n

/-- The characters of an integer in base ten, after a minus sign if it is negative. -/
def integerDigits : Int → List Char
  | .ofNat n => naturalDigits n
  | .negSucc n => '-' :: naturalDigits (n + 1)

/-- The characters of a rational in lowest terms. -/
def rationalDigits (q : Rat) : List Char :=
  if q.den = 1 then integerDigits q.num else integerDigits q.num ++ '/' :: naturalDigits q.den

/-- The text of a rational in lowest terms. -/
def showRational (q : Rat) : String := String.ofList (rationalDigits q)

end BrakeCheck.Rational
