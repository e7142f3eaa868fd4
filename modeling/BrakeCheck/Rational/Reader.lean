import BrakeCheck.Rational.Digits
import BrakeCheck.Text.Quoted

/-!
# Reading rationals

The number grammar of the program: a fraction of two integers such as `49/5`, or a decimal
numeral such as `9.8`, `-0.6`, `.5` or `3.`; blanks around the text and around the two sides of
a slash are skipped.  The value is exact, whatever the number of digits, as long as the places
after the point can be counted.

## Main definitions

* `ReadError` — why a text is no number.
* `readInteger?` — an integer with an optional minus sign.
* `readDecimal?` — a decimal numeral with an optional sign of either kind.
* `readRational` — the whole grammar.
-/

namespace BrakeCheck.Rational

open Text

/-- Why a text is no number; the text is kept without the blanks around it. -/
inductive ReadError where
  /-- Nothing but blanks. -/
  | empty
  /-- Neither a fraction of integers nor a decimal numeral. -/
  | invalid (text : String)
  /-- A fraction whose denominator is zero. -/
  | zeroDenominator (text : String)
  deriving DecidableEq

/-- The message that tells a user what is wrong with a number. -/
def ReadError.message : ReadError → String
  | .empty => "empty number"
  | .invalid text =>
    "invalid number " ++ quote text
      ++ ", expected a decimal like \x609.8\x60 or a fraction like \x6049/5\x60"
  | .zeroDenominator text => "zero denominator in " ++ quote text

/-- The parts before and after the first occurrence of `c`, if there is one. -/
def splitFirst? (c : Char) (cs : List Char) : Option (List Char × List Char) :=
  if c ∈ cs then some (cs.takeWhile (· != c), (cs.dropWhile (· != c)).tail) else none

/-- The value of a string of decimal digits. -/
def digitsValue (cs : List Char) : Nat := Nat.ofDigitChars 10 cs 0

/-- A natural number written with at least one digit and nothing else. -/
def readNatural? (cs : List Char) : Option Nat :=
  if !cs.isEmpty && cs.all Char.isDigit then some (digitsValue cs) else none

/-- An integer: digits after an optional minus sign. -/
def readInteger? : List Char → Option Int
  | '-' :: cs => (readNatural? cs).map fun (n : Nat) => -(n : Int)
  | cs => (readNatural? cs).map Int.ofNat

/-- The sign of a numeral as a factor, and the text after it. -/
def splitSign : List Char → Int × List Char
  | '-' :: cs => (-1, cs)
  | '+' :: cs => (1, cs)
  | cs => (1, cs)

/-- The places after the point are counted in a word of 32 bits. -/
def placeRange : Nat := 1 <<< 32

/-- A decimal numeral: an optional sign, then digits with at most one point among them. -/
def readDecimal? (cs : List Char) : Option Rat :=
  let (sign, body) := splitSign cs
  let (whole, fraction) := (splitFirst? '.' body).getD (body, [])
  if (whole.isEmpty && fraction.isEmpty) || !whole.all Char.isDigit || !fraction.all Char.isDigit
  then none
  else
    let places := fraction.length % placeRange
    some (mkRat (sign * digitsValue (whole ++ fraction)) (powerOfTen places))

/-- The number that a text without surrounding blanks stands for. -/
def readTrimmed (cs : List Char) : Except ReadError Rat :=
  if cs.isEmpty then .error .empty
  else match splitFirst? '/' cs with
    | some (upper, lower) =>
      match readInteger? (trim upper), readInteger? (trim lower) with
      | some n, some d =>
        if d = 0 then .error (.zeroDenominator (String.ofList cs)) else .ok (Rat.divInt n d)
      | _, _ => .error (.invalid (String.ofList cs))
    | none =>
      match readDecimal? cs with
      | some q => .ok q
      | none => .error (.invalid (String.ofList cs))

/-- The number that a text stands for. -/
def readRational (s : String) : Except ReadError Rat := readTrimmed (trim s.toList)

end BrakeCheck.Rational
