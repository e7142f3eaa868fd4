/-!
# Reading counts

A count is written with decimal digits, after an optional plus sign, and fits a word of 64 bits.

## Main definitions

* `CountError` — why a text is no count.
* `readCount` — the count that a text stands for.
-/

namespace BrakeCheck.Rational

/-- Why a text is no count. -/
inductive CountError where
  /-- Nothing at all. -/
  | empty
  /-- A character that is no decimal digit, or no digit after the sign. -/
  | invalidDigit
  /-- A number beyond the largest word. -/
  | tooLarge
  deriving DecidableEq

/-- The message that tells a user what is wrong with a count. -/
def CountError.message : CountError → String
  | empty => "cannot parse integer from empty string"
  | invalidDigit => "invalid digit found in string"
  | tooLarge => "number too large to fit in target type"

/-- The largest count. -/
def maxCount : Nat := 1 <<< 64 - 1

/-- Reads on when the digits before have given `n`; the first character that is wrong decides. -/
def readDigits (n : Nat) : List Char → Except CountError Nat
  | [] => .ok n
  | c :: cs =>
    if !c.isDigit then .error .invalidDigit
    else
      let n := 10 * n + (c.toNat - '0'.toNat)
      if n ≤ maxCount then readDigits n cs else .error .tooLarge

/-- The count that a text stands for. -/
def readCount (s : String) : Except CountError Nat :=
  match s.toList with
  | [] => .error .empty
  | ['+'] => .error .invalidDigit
  | '+' :: cs => readDigits 0 cs
  | cs => readDigits 0 cs

end BrakeCheck.Rational
