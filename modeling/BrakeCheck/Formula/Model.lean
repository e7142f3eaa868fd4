import BrakeCheck.Formula.Basic
import BrakeCheck.Rational.Digits

/-!
# Models

A model gives rational values to symbolic constants; one that it does not mention counts as zero.
Under a model every term has a value and every formula a truth value.

## Main definitions

* `Term.eval`, `Formula.eval` — values under given values of the symbolic constants.
* `Model` — finitely many values, with `Model.evalTerm` and `Model.eval`.
-/

namespace BrakeCheck

/-- Whether a relation holds between two numbers. -/
def Relation.holds : Relation → Rat → Rat → Bool
  | lt, a, b => a < b
  | le, a, b => a ≤ b
  | gt, a, b => b < a
  | ge, a, b => b ≤ a
  | eq, a, b => a = b
  | ne, a, b => a ≠ b

mutual

/-- The value of a term when the symbolic constants have the given values. -/
def Term.eval (v : String → Rat) : Term → Rat
  | .var x => v x
  | .const c => c
  | .add a b => a.eval v + b.eval v
  | .sub a b => a.eval v - b.eval v
  | .neg a => -a.eval v
  | .scale c a => c * a.eval v
  | .abs a => (a.eval v).abs
  | .ite c a b => bif c.eval v then a.eval v else b.eval v

/-- The truth value of a formula when the symbolic constants have the given values. -/
def Formula.eval (v : String → Rat) : Formula → Bool
  | .true => Bool.true
  | .false => Bool.false
  | .compare a r b => r.holds (a.eval v) (b.eval v)
  | .not f => !f.eval v
  | .and fs => Formula.evalAll v fs
  | .or fs => Formula.evalAny v fs
  | .implies f g => !f.eval v || g.eval v
  | .ite c f g => bif c.eval v then f.eval v else g.eval v

/-- Whether all formulas of a list are true. -/
def Formula.evalAll (v : String → Rat) : List Formula → Bool
  | [] => Bool.true
  | f :: fs => f.eval v && Formula.evalAll v fs

/-- Whether some formula of a list is true. -/
def Formula.evalAny (v : String → Rat) : List Formula → Bool
  | [] => Bool.false
  | f :: fs => f.eval v || Formula.evalAny v fs

end

theorem Formula.evalAll_eq_all (v : String → Rat) (fs : List Formula) :
    Formula.evalAll v fs = fs.all (Formula.eval v) := by
  induction fs with
  | nil => rfl
  | cons f fs ih => simp [Formula.evalAll, ih]

theorem Formula.evalAny_eq_any (v : String → Rat) (fs : List Formula) :
    Formula.evalAny v fs = fs.any (Formula.eval v) := by
  induction fs with
  | nil => rfl
  | cons f fs ih => simp [Formula.evalAny, ih]

/-- Values of finitely many symbolic constants. -/
abbrev Model := OrderedMap Rat

namespace Model

/-- The value of a symbolic constant; one without a value counts as zero. -/
def value (m : Model) (x : String) : Rat := m.getD x 0

/-- The value of a term under a model. -/
def evalTerm (m : Model) (t : Term) : Rat := t.eval m.value

/-- The truth value of a formula under a model. -/
def eval (m : Model) (f : Formula) : Bool := f.eval m.value

/-- A model with a value, zero, for every name of a set that it does not mention. -/
def complete (m : Model) (names : NameSet) : Model :=
  names.names.foldl (fun m x => m.insertNew x 0) m

/-- How an entry is written. -/
def renderEntry (e : String × Rat) : String := e.1 ++ " = " ++ Rational.showRational e.2

/-- How a model is written. -/
def render (m : Model) : String := "[" ++ ", ".intercalate (m.toList.map renderEntry) ++ "]"

end Model

end BrakeCheck
