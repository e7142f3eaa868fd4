import BrakeCheck.Rational.Digits

/-!
# Intervals of rationals

An interval is given by at most one bound on either side; a bound may be strict, that is, not
belong to the interval itself.

## Main definitions

* `Interval.admits` — the numbers in an interval.
* `Interval.raise`, `Interval.reduce` — an interval cut off by one more bound from below or from
  above.
* `Interval.pick` — one number of an interval, with zero and integers next to a bound preferred.
-/

namespace BrakeCheck

/-- An end of an interval; a strict one is not in the interval. -/
structure Bound where
  value : Rat
  strict : Bool
  deriving DecidableEq

namespace Bound

/-- Whether a number may stand above a lower bound. -/
def admitsAbove (b : Bound) (q : Rat) : Bool := b.value < q || (!b.strict && q = b.value)

/-- Whether a number may stand below an upper bound. -/
def admitsBelow (b : Bound) (q : Rat) : Bool := q < b.value || (!b.strict && q = b.value)

/-- How a bound is written in the journal. -/
def render : Option Bound → String
  | none => "None"
  | some b =>
    "Some(Bound \x7b value: Ratio \x7b numer: " ++ toString b.value.num ++ ", denom: "
      ++ toString b.value.den ++ " \x7d, strict: " ++ toString b.strict ++ " \x7d)"

/-- The tighter of two lower bounds: the greater one, and of two equal ones the strict one. -/
def tighterLower (a b : Bound) : Bound :=
  if b.value < a.value then a
  else if a.value = b.value then ⟨a.value, a.strict || b.strict⟩
  else b

/-- The tighter of two upper bounds: the smaller one, and of two equal ones the strict one. -/
def tighterUpper (a b : Bound) : Bound :=
  if a.value < b.value then a
  else if a.value = b.value then ⟨a.value, a.strict || b.strict⟩
  else b

end Bound

/-- The numbers between two bounds, either of which may be missing. -/
structure Interval where
  lower : Option Bound
  upper : Option Bound
  deriving DecidableEq

namespace Interval

/-- All rationals. -/
def everything : Interval := ⟨none, none⟩

/-- Whether a number is in an interval. -/
def admits (i : Interval) (q : Rat) : Bool :=
  i.lower.all (·.admitsAbove q) && i.upper.all (·.admitsBelow q)

/-- The part of an interval above one more lower bound. -/
def raise (i : Interval) (b : Bound) : Interval :=
  { i with lower := some (i.lower.elim b (Bound.tighterLower · b)) }

/-- The part of an interval below one more upper bound. -/
def reduce (i : Interval) (b : Bound) : Interval :=
  { i with upper := some (i.upper.elim b (Bound.tighterUpper · b)) }

/-- The least integer that a lower bound admits. -/
def leastInteger (b : Bound) : Rat :=
  if b.strict then (b.value.floor : Rat) + 1 else (b.value.ceil : Rat)

/-- The greatest integer that an upper bound admits. -/
def greatestInteger (b : Bound) : Rat :=
  if b.strict then (b.value.ceil : Rat) - 1 else (b.value.floor : Rat)

/-- A number between two bounds: their common value, the first integer above the lower one, or
the middle. -/
def between (i : Interval) (l u : Bound) : Rat :=
  if l.value = u.value then l.value
  else
    let candidate := (l.value.floor : Rat) + 1
    if i.admits candidate then candidate else (l.value + u.value) / 2

/-- One number of an interval that has any: zero if it is there, else the integer next to its only
bound, or a number between its two bounds. -/
def pick (i : Interval) : Rat :=
  if i.admits 0 then 0
  else match i.lower, i.upper with
    | some l, none => leastInteger l
    | none, some u => greatestInteger u
    | some l, some u => i.between l u
    | none, none => 0

end Interval

end BrakeCheck
