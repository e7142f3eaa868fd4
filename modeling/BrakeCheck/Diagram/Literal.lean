import BrakeCheck.Fault

/-!
# Literals

A literal is a variable or its complement, kept as one signed word of 32 bits: the variable for
the positive literal and its negation for the negative one.  Variables from `2 ^ 31` on do not
fit and wrap around, and the least of the words has no negation.

## Main definitions

* `Literal.pos`, `Literal.neg` — the two literals of a variable.
* `Literal.complement` — the opposite literal.
* `Literal.var`, `Literal.isPositive` — the parts of a literal.
-/

namespace BrakeCheck

/-- A signed variable. -/
structure Literal where
  code : Int
  deriving DecidableEq

namespace Literal

/-- The literal with a given code, wrapped to 32 bits. -/
def ofCode (code : Int) : Literal := ⟨code.bmod (1 <<< 32)⟩

/-- The positive literal of a variable. -/
def pos (v : Nat) : Literal := ofCode v

/-- The least of the signed words of 32 bits. -/
def leastCode : Int := -2147483648

/-- The opposite literal; the one with the least code has none. -/
def complement (l : Literal) : Except Fault Literal :=
  if l.code = leastCode then .error .noComplement else .ok ⟨-l.code⟩

/-- The negative literal of a variable. -/
def neg (v : Nat) : Except Fault Literal := (pos v).complement

/-- The variable of a literal. -/
def var (l : Literal) : Nat := l.code.natAbs

/-- Whether a literal is its variable, and not the complement of it. -/
def isPositive (l : Literal) : Bool := 0 < l.code

/-- The literal of a variable with the given sign; the terminal's variable has none. -/
def create (v : Nat) (positive : Bool) : Except Fault Literal :=
  if v = 0 then .error .variableZero
  else if positive then .ok (pos v)
  else neg v

/-- Literals are ordered as their codes. -/
def compare (a b : Literal) : Ordering := compareOfLessAndEq a.code b.code

/-- How a literal is written: `x` and the variable, after `~` for a negative literal. -/
def render (l : Literal) : String := (if l.isPositive then "x" else "~x") ++ toString l.var

instance : ToString Literal := ⟨render⟩

/-- How a list of literals is written with their codes. -/
def renderCodes (ls : List Literal) : String :=
  "[" ++ ", ".intercalate (ls.map fun l => s!"Lit({l.code})") ++ "]"

end Literal

end BrakeCheck
