import BrakeCheck.Solver

/-!
# Verdicts

A property is verified by searching for a counterexample: the formulas describe a system together
with a violation of the property, and a common model of them shows that the violation can happen.

## Main definitions

* `Verdict` — violated by a model, proved, or not decided within the budget.
* `verify` — the verdict on formulas.
-/

namespace BrakeCheck

/-- What is known of a property after a search for a counterexample. -/
inductive Verdict where
  /-- The model is a counterexample. -/
  | violated (counterexample : Model)
  /-- There is no counterexample. -/
  | proved
  /-- The budget was spent on as many paths without an answer. -/
  | inconclusive (theoryChecks : Nat)

namespace Verdict

/-- The answer of the check behind a verdict. -/
def answer : Verdict → Satisfiability
  | violated _ => .sat
  | proved => .unsat
  | inconclusive _ => .unknown

/-- The counterexample, if there is one. -/
def counterexample? : Verdict → Option Model
  | violated m => some m
  | _ => none

/-- Whether the property is proved. -/
def isProved : Verdict → Bool
  | proved => true
  | _ => false

/-- The exit code of the program for a verdict. -/
def exitCode : Verdict → Nat
  | proved => 0
  | violated _ => 1
  | inconclusive _ => 2

/-- The verdict that belongs to the answer of a check and what the check has left in a solver. -/
def ofCheck (answer : Satisfiability) (s : Solver) : Verdict :=
  match answer with
  | .sat => .violated (s.model.getD ∅)
  | .unsat => .proved
  | .unknown => .inconclusive s.theoryChecks

end Verdict

/-- Asserts formulas and checks them. -/
def Solver.judge (fs : List Formula) : Step Solver Verdict := do
  addAll fs
  let answer ← check
  return Verdict.ofCheck answer (← get)

/-- The verdict on a property, given formulas that describe a violation of it. -/
def verify (fs : List Formula) (config : SolverConfig) : Step Journal Verdict := do
  let solver ← Step.query (Solver.create config)
  let (outcome, solver) := (Solver.judge fs).perform solver
  set solver.journal
  let verdict ← outcome
  modify fun j =>
    j.note .info .verification s!"verify: {fs.length} formulas, verdict {verdict.answer}"
  return verdict

end BrakeCheck
