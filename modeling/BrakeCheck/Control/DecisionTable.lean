import BrakeCheck.Formula.Model

/-!
# Decision tables

Rules in the order of their priority, each with a guard and a consequence, and a consequence for
when no guard holds.  The first rule whose guard holds decides.

## Main definitions

* `DecisionTable.empty`, `DecisionTable.addRule` — a table as it is put together.
* `DecisionTable.select` — the rule that decides under a model.
* `DecisionTable.consequence` — the consequence in force under a model.
* `DecisionTable.toFormula` — the table as one formula.
-/

namespace BrakeCheck

/-- A consequence under a guard. -/
structure Rule where
  label : String
  guard : Formula
  consequence : Formula

/-- Rules in the order of their priority, and a default. -/
structure DecisionTable where
  rules : List Rule
  default : Formula

namespace DecisionTable

/-- The table without rules. -/
def empty (default : Formula) : DecisionTable := ⟨[], default⟩

/-- A table with one more rule, of the least priority. -/
def addRule (t : DecisionTable) (r : Rule) : DecisionTable := { t with rules := t.rules ++ [r] }

/-- The table as one formula: nested conditionals, the rule of the highest priority outermost. -/
def toFormula (t : DecisionTable) : Formula :=
  t.rules.foldr (fun r rest => .ite r.guard r.consequence rest) t.default

/-- The first rule whose guard holds under a model. -/
def select (t : DecisionTable) (m : Model) : Option Rule := t.rules.find? fun r => m.eval r.guard

/-- The consequence of the first rule whose guard holds under a model, or else the default. -/
def consequence (t : DecisionTable) (m : Model) : Formula :=
  match t.select m with
  | some r => r.consequence
  | none => t.default

end DecisionTable

end BrakeCheck
