import BrakeCheck.Linear.Constraint
import BrakeCheck.Linear.Interval

/-!
# Feasibility of linear constraints

Whether constraints have a common solution is decided by eliminating the symbolic constants one
after the other: a constraint that bounds one from above and a constraint that bounds it from
below are added with such positive factors that it cancels.  A solution is found on the way back,
where the constraints on the last constant eliminated have become an interval.

## Main definitions

* `eliminate` — the constraints that remain when one symbolic constant is eliminated.
* `Elimination.ofConstraints` — a whole elimination: a contradiction, or the system that stood
  before each step.
* `Elimination.verdict` — infeasible, or feasible with a solution.
* `Elimination.findings` — what is reported of an elimination.
-/

namespace BrakeCheck.Linear

/-! ### Eliminating one symbolic constant -/

/-- The constraints in which a symbolic constant does not occur. -/
def free (x : String) (cs : List Constraint) : List Constraint :=
  cs.filter fun c => (c.expr.coeff? x).isNone

/-- The constraints that bound a symbolic constant from above, with its coefficients. -/
def uppers (x : String) (cs : List Constraint) : List (Rat × Constraint) :=
  cs.filterMap fun c =>
    match c.expr.coeff? x with
    | some a => if 0 < a then some (a, c) else none
    | none => none

/-- The constraints that bound a symbolic constant from below, with its coefficients. -/
def lowers (x : String) (cs : List Constraint) : List (Rat × Constraint) :=
  cs.filterMap fun c =>
    match c.expr.coeff? x with
    | some a => if 0 < a then none else some (a, c)
    | none => none

/-- The sum of an upper and a lower bound on a symbolic constant, with such positive factors that
it cancels. -/
def resolvent (up low : Rat × Constraint) : Constraint :=
  Constraint.normalized
    ⟨up.2.expr.scaled (-low.1) + low.2.expr.scaled up.1, up.2.strict || low.2.strict⟩

/-- The constraints that remain when a symbolic constant is eliminated. -/
def eliminate (x : String) (cs : List Constraint) : List Constraint :=
  free x cs ++ (uppers x cs).flatMap fun up => (lowers x cs).map (resolvent up)

/-! ### Eliminating all of them -/

/-- A symbolic constant, and the constraints that stood before it was eliminated. -/
structure Stage where
  name : String
  constraints : List Constraint

/-- The course of an elimination. -/
inductive Elimination where
  /-- A constraint without symbolic constants is false. -/
  | violated (c : Constraint)
  /-- The elimination of this symbolic constant left a constraint that is false. -/
  | contradiction (x : String)
  /-- Nothing is false after the last stage. -/
  | solved (stages : List Stage)

/-- Whether constraints have a common solution, and if so, one of them. -/
inductive Feasibility where
  | feasible (values : OrderedMap Rat)
  | infeasible
  deriving DecidableEq

namespace Elimination

/-- The symbolic constants of constraints, ascending. -/
def namesOf (cs : List Constraint) : List String :=
  (NameSet.ofList (cs.flatMap fun c => c.expr.vars)).names

/-- The constraints that still have a symbolic constant in them, each of them once. -/
def pending (cs : List Constraint) : List Constraint :=
  Constraint.tidy (cs.filter fun c => !c.isGround)

/-- Eliminates symbolic constants one after the other, as long as nothing is false. -/
def run : List String → List Constraint → Elimination
  | [], _ => .solved []
  | x :: xs, cs =>
    let next := eliminate x cs
    if next.any Constraint.isViolated then .contradiction x
    else match run xs (pending next) with
      | .solved stages => .solved (⟨x, cs⟩ :: stages)
      | stopped => stopped

/-- Eliminates the symbolic constants of constraints in ascending order. -/
def ofConstraints (cs : List Constraint) : Elimination :=
  match cs.find? Constraint.isViolated with
  | some c => .violated c
  | none => run (namesOf cs) (pending (cs.map Constraint.normalized))

/-! ### The way back -/

/-- Cuts an interval off by what a constraint says about one symbolic constant when the others
have the given values. -/
def cut (x : String) (values : OrderedMap Rat) (i : Interval) (c : Constraint) : Interval :=
  match c.expr.coeff? x with
  | none => i
  | some a =>
    let bound : Bound := ⟨-((c.expr.without x).eval (values.getD · 0)) / a, c.strict⟩
    if 0 < a then i.reduce bound else i.raise bound

/-- The interval that a stage leaves to its symbolic constant when the later ones have the given
values. -/
def interval (s : Stage) (values : OrderedMap Rat) : Interval :=
  s.constraints.foldl (cut s.name values) .everything

/-- A value for the symbolic constant of every stage, chosen from the last stage to the first. -/
def solution : List Stage → OrderedMap Rat
  | [] => ∅
  | s :: later =>
    let values := solution later
    values.insert s.name (interval s values).pick

/-- Whether the eliminated constraints have a common solution. -/
def verdict : Elimination → Feasibility
  | .solved stages => .feasible (solution stages)
  | _ => .infeasible

/-! ### Reports -/

/-- The report on the value chosen for a symbolic constant. -/
def renderChoice (s : Stage) (i : Interval) : String :=
  s!"{s.name} = {Rational.showRational i.pick} "
    ++ s!"(lower = {Bound.render i.lower}, upper = {Bound.render i.upper})"

/-- The reports on the values chosen, from the last stage to the first. -/
def choices : List Stage → List String
  | [] => []
  | s :: later => choices later ++ [renderChoice s (interval s (solution later))]

/-- What is reported of an elimination. -/
def findings : Elimination → List String
  | .violated c => [s!"ground constraint {c} is violated"]
  | .contradiction x => [s!"eliminating {x} yields a contradiction"]
  | .solved stages => choices stages

end Elimination

/-- Whether constraints have a common solution, and if so, one of them. -/
def check (cs : List Constraint) : Feasibility := (Elimination.ofConstraints cs).verdict

end BrakeCheck.Linear
