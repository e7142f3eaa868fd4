import BrakeCheck.Formula.Basic
import BrakeCheck.Rational.Digits

/-!
# Written terms and formulas

The text of a term or formula.  Operands of subtraction, negation and scaling are put into
parentheses unless they are a name, a number, an absolute value or a conditional.

## Main definitions

* `Term.render`, `Formula.render` — the texts.
-/

namespace BrakeCheck

/-- How a relation is written. -/
def Relation.render : Relation → String
  | lt => "<"
  | le => "<="
  | gt => ">"
  | ge => ">="
  | eq => "=="
  | ne => "!="

/-- Whether a term needs no parentheses as an operand. -/
def Term.isAtomic : Term → Bool
  | .var _ => true
  | .const _ => true
  | .abs _ => true
  | .ite _ _ _ => true
  | _ => false

/-- The text of an operand, given that of the term itself. -/
def Term.operand (t : Term) (text : String) : String :=
  if t.isAtomic then text else "(" ++ text ++ ")"

/-- The text of a list of arguments between parentheses. -/
def renderArguments (name : String) (arguments : List String) : String :=
  name ++ "(" ++ ", ".intercalate arguments ++ ")"

mutual

/-- The text of a term. -/
def Term.render : Term → String
  | .var x => x
  | .const c => Rational.showRational c
  | .add a b => a.render ++ " + " ++ b.render
  | .sub a b => a.render ++ " - " ++ b.operand b.render
  | .neg a => "-" ++ a.operand a.render
  | .scale c a => Rational.showRational c ++ "*" ++ a.operand a.render
  | .abs a => renderArguments "Abs" [a.render]
  | .ite c a b => renderArguments "If" [c.render, a.render, b.render]

/-- The text of a formula. -/
def Formula.render : Formula → String
  | .true => "True"
  | .false => "False"
  | .compare a r b => a.render ++ " " ++ r.render ++ " " ++ b.render
  | .not f => renderArguments "Not" [f.render]
  | .and fs => renderArguments "And" (Formula.renderAll fs)
  | .or fs => renderArguments "Or" (Formula.renderAll fs)
  | .implies f g => renderArguments "Implies" [f.render, g.render]
  | .ite c f g => renderArguments "If" [c.render, f.render, g.render]

/-- The texts of a list of formulas. -/
def Formula.renderAll : List Formula → List String
  | [] => []
  | f :: fs => f.render :: Formula.renderAll fs

end

instance : ToString Term := ⟨Term.render⟩

instance : ToString Formula := ⟨Formula.render⟩

end BrakeCheck
