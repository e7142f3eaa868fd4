import BrakeCheck.OrderedMap
import BrakeCheck.Rational.Digits

/-!
# Linear expressions

Sums of rational multiples of symbolic constants and a rational.  The operations keep no
coefficient that is zero, so expressions that agree as functions are equal as values.

## Main definitions

* `LinExpr.scaled`, `LinExpr.normalized`, `LinExpr.without` and the ring operations.
* `LinExpr.eval` — the value under given values of the symbolic constants.
* `LinExpr.compare` — a total order.
-/

namespace BrakeCheck

/-- Coefficients by name, and the constant term. -/
structure LinExpr where
  coeffs : OrderedMap Rat
  constant : Rat
  deriving DecidableEq

namespace LinExpr

/-- The expression that is zero. -/
def zero : LinExpr := ⟨∅, 0⟩

/-- The expression that is a given number. -/
def const (value : Rat) : LinExpr := ⟨∅, value⟩

/-- The expression that is a symbolic constant. -/
def var (x : String) : LinExpr := ⟨OrderedMap.empty.insert x 1, 0⟩

/-- Whether an expression has no symbolic constant in it. -/
def isConstant (e : LinExpr) : Bool := e.coeffs.isEmpty

/-- The coefficient of a symbolic constant, if it has one. -/
def coeff? (e : LinExpr) (x : String) : Option Rat := e.coeffs.get? x

/-- The symbolic constants of an expression, ascending. -/
def vars (e : LinExpr) : List String := e.coeffs.names

/-- The expression without one of its symbolic constants. -/
def without (e : LinExpr) (x : String) : LinExpr := { e with coeffs := e.coeffs.erase x }

/-- An expression times a number. -/
def scaled (e : LinExpr) (factor : Rat) : LinExpr :=
  if factor = 0 then zero else ⟨e.coeffs.mapValues (· * factor), e.constant * factor⟩

/-- The coefficient of the first symbolic constant. -/
def lead? (e : LinExpr) : Option Rat := e.coeffs.toList.head?.map Prod.snd

/-- The positive multiple of an expression whose first coefficient is one or minus one. -/
def normalized (e : LinExpr) : LinExpr :=
  match e.lead? with
  | some lead => if lead.abs = 1 then e else e.scaled lead.abs⁻¹
  | none => e

/-- Adds a multiple of a symbolic constant to coefficients; one that becomes zero is dropped. -/
def addCoeff (m : OrderedMap Rat) (x : String) (c : Rat) : OrderedMap Rat :=
  m.alter x fun old =>
    let sum := old.getD 0 + c
    if sum = 0 then none else some sum

/-- The sum of two expressions. -/
protected def add (a b : LinExpr) : LinExpr :=
  ⟨b.coeffs.toList.foldl (fun m e => addCoeff m e.1 e.2) a.coeffs, a.constant + b.constant⟩

/-- The expression with all signs changed. -/
protected def neg (e : LinExpr) : LinExpr := ⟨e.coeffs.mapValues (-·), -e.constant⟩

instance : Add LinExpr := ⟨LinExpr.add⟩

instance : Neg LinExpr := ⟨LinExpr.neg⟩

instance : Sub LinExpr := ⟨fun a b => a + -b⟩

/-- The value of an expression when the symbolic constants have the given values. -/
def eval (e : LinExpr) (v : String → Rat) : Rat :=
  e.coeffs.toList.foldl (fun sum c => sum + c.2 * v c.1) e.constant

/-! ### Order -/

/-- Coefficients are compared entry by entry, name before number; a list that ends first is
smaller. -/
def compareCoeffs : List (String × Rat) → List (String × Rat) → Ordering
  | [], [] => .eq
  | [], _ :: _ => .lt
  | _ :: _, [] => .gt
  | (x, c) :: as, (y, d) :: bs =>
    (compareOfLessAndEq x y).then <| (compareOfLessAndEq c d).then <| compareCoeffs as bs

/-- Expressions are compared by their coefficients, then by their constant terms. -/
def compare (a b : LinExpr) : Ordering :=
  (compareCoeffs a.coeffs.toList b.coeffs.toList).then (compareOfLessAndEq a.constant b.constant)

/-! ### Text -/

/-- How a multiple of a symbolic constant is written. -/
def renderMultiple (x : String) (c : Rat) : String :=
  if c = 1 then x
  else if c = -1 then "-" ++ x
  else Rational.showRational c ++ "*" ++ x

/-- How an expression is written: the multiples and a constant term other than zero, joined by
plus signs. -/
def render (e : LinExpr) : String :=
  let multiples := e.coeffs.toList.map fun (x, c) => renderMultiple x c
  let parts :=
    if multiples.isEmpty || e.constant ≠ 0 then multiples ++ [Rational.showRational e.constant]
    else multiples
  " + ".intercalate parts

instance : ToString LinExpr := ⟨render⟩

end LinExpr

end BrakeCheck
