import BrakeCheck.Linear.Expr

/-!
# Linear constraints

A constraint says that a linear expression is below zero, or that it is at most zero.

## Main definitions

* `Constraint.Holds`, with its decision `Constraint.holds` — the meaning of a constraint.
* `Constraint.compare` — a total order, and `Constraint.sort`.
* `Constraint.tidy` — a list of constraints without repetitions.
-/

namespace BrakeCheck

/-- The expression is below zero if `strict` is set, and at most zero otherwise. -/
structure Constraint where
  expr : LinExpr
  strict : Bool
  deriving DecidableEq

namespace Constraint

/-- The expression is below zero. -/
def ltZero (e : LinExpr) : Constraint := ⟨e, true⟩

/-- The expression is at most zero. -/
def leZero (e : LinExpr) : Constraint := ⟨e, false⟩

/-- Whether a number keeps the side of zero that a constraint asks for. -/
def admits (strict : Bool) (value : Rat) : Bool := if strict then value < 0 else value ≤ 0

/-- Whether a constraint holds when the symbolic constants have the given values. -/
def holds (c : Constraint) (v : String → Rat) : Bool := admits c.strict (c.expr.eval v)

/-- Whether no symbolic constant occurs in a constraint. -/
def isGround (c : Constraint) : Bool := c.expr.isConstant

/-- Whether a constraint without symbolic constants is false. -/
def isViolated (c : Constraint) : Bool := c.isGround && !admits c.strict c.expr.constant

/-- The same half-space with a normalised expression. -/
def normalized (c : Constraint) : Constraint := { c with expr := c.expr.normalized }

/-- How a constraint is written. -/
def render (c : Constraint) : String :=
  c.expr.render ++ (if c.strict then " < 0" else " <= 0")

instance : ToString Constraint := ⟨render⟩

/-- Constraints are compared by their expressions; of equal ones the strict constraint is
greater. -/
def compare (a b : Constraint) : Ordering :=
  (a.expr.compare b.expr).then (Ord.compare a.strict b.strict)

/-- Whether `a` may stand before `b` in ascending order. -/
def le (a b : Constraint) : Bool := (a.compare b).isLE

/-- The constraints in ascending order. -/
def sort (cs : List Constraint) : List Constraint := cs.mergeSort le

/-- A list without the members that equal their predecessors. -/
def skipRepeats : List Constraint → List Constraint
  | [] => []
  | [c] => [c]
  | c :: d :: rest => if c = d then skipRepeats (d :: rest) else c :: skipRepeats (d :: rest)

/-- The members of a list of constraints, each of them once, in ascending order. -/
def tidy (cs : List Constraint) : List Constraint := skipRepeats (sort cs)

end Constraint

end BrakeCheck
