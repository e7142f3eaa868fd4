import BrakeCheck.OrderedMap

/-!
# Formulas over rational terms

The language of the queries: terms denote rationals, formulas denote truth values, and the two
are built from each other through comparisons and conditional terms.  The symbolic constants of a
query are given by name.

## Main definitions

* `Term`, `Formula` — the two kinds of expressions.
* `Term.names`, `Formula.names` — the symbolic constants in the order of their occurrence, and
  `Formula.nameSet` — the set of them.
-/

namespace BrakeCheck

/-- The relations that a comparison can ask for. -/
inductive Relation where
  | lt | le | gt | ge | eq | ne
  deriving DecidableEq

mutual

/-- A rational-valued expression. -/
inductive Term where
  | var (name : String)
  | const (value : Rat)
  | add (a b : Term)
  | sub (a b : Term)
  | neg (a : Term)
  | scale (factor : Rat) (a : Term)
  | abs (a : Term)
  | ite (c : Formula) (a b : Term)

/-- A truth-valued expression. -/
inductive Formula where
  | true
  | false
  | compare (a : Term) (r : Relation) (b : Term)
  | not (f : Formula)
  | and (fs : List Formula)
  | or (fs : List Formula)
  | implies (f g : Formula)
  | ite (c f g : Formula)

end

namespace Term

/-- The term that is zero. -/
def zero : Term := .const 0

/-- The term that is an integer. -/
def int (n : Int) : Term := .const n

/-- The formula that `a` is below `b`. -/
def lt (a b : Term) : Formula := .compare a .lt b

/-- The formula that `a` equals `b`. -/
def eq (a b : Term) : Formula := .compare a .eq b

end Term

mutual

/-- The symbolic constants of a term, in the order of their occurrence. -/
def Term.names : Term → List String
  | .var x => [x]
  | .const _ => []
  | .add a b => a.names ++ b.names
  | .sub a b => a.names ++ b.names
  | .neg a => a.names
  | .scale _ a => a.names
  | .abs a => a.names
  | .ite c a b => c.names ++ a.names ++ b.names

/-- The symbolic constants of a formula, in the order of their occurrence. -/
def Formula.names : Formula → List String
  | .true => []
  | .false => []
  | .compare a _ b => a.names ++ b.names
  | .not f => f.names
  | .and fs => Formula.namesOfAll fs
  | .or fs => Formula.namesOfAll fs
  | .implies f g => f.names ++ g.names
  | .ite c f g => c.names ++ f.names ++ g.names

/-- The symbolic constants of a list of formulas. -/
def Formula.namesOfAll : List Formula → List String
  | [] => []
  | f :: fs => f.names ++ Formula.namesOfAll fs

end

/-- The set of symbolic constants of a term. -/
def Term.nameSet (t : Term) : NameSet := .ofList t.names

/-- The set of symbolic constants of a formula. -/
def Formula.nameSet (f : Formula) : NameSet := .ofList f.names

end BrakeCheck
