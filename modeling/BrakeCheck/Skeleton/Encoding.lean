import BrakeCheck.Formula.Basic
import BrakeCheck.Skeleton.AtomTable

/-!
# Formulas as functions of atoms

A formula is turned into a diagram over atoms.  Absolute values and conditionals inside terms are
resolved by cases: a term becomes a list of linear expressions, each under a guard, and the
guards exclude each other and leave no assignment out.

## Main definitions

* `Case` — a linear expression under a guard.
* `Skeleton.belowZero`, `Skeleton.relate` — the function that says how an expression stands to
  zero.
* `Term.caseSplit`, `Formula.encode` — the cases of a term and the function of a formula.
-/

namespace BrakeCheck

/-- A linear expression, and the function that says where it is the value meant. -/
structure Case where
  guard : Ref
  value : LinExpr

namespace Skeleton

/-! ### Comparisons with zero -/

/-- The function that says that an expression is below zero; without symbolic constants in it, it
is a constant. -/
def belowZero (e : LinExpr) : Step Skeleton Ref := do
  if e.isConstant then return if e.constant < 0 then .one else .zero
  let v ← intern e.normalized
  onManager (Manager.mkVar v)

/-- The function that says that an expression is zero: neither it nor its opposite is below. -/
def isZero (e : LinExpr) : Step Skeleton Ref := do
  let below ← belowZero e
  let above ← belowZero (-e)
  onManager (Manager.conj (-below) (-above))

/-- The function that says that an expression stands to zero in a relation. -/
def relate (r : Relation) (e : LinExpr) : Step Skeleton Ref :=
  match r with
  | .lt => belowZero e
  | .gt => belowZero (-e)
  | .le => do return -(← belowZero (-e))
  | .ge => do return -(← belowZero e)
  | .eq => isZero e
  | .ne => do return -(← isZero e)

/-! ### Cases -/

/-- The case that an expression is meant where both functions hold; none if that is nowhere. -/
def caseUnder (guard condition : Ref) (e : LinExpr) : Step Skeleton (List Case) := do
  let g ← onManager (Manager.conj guard condition)
  return if g = .zero then [] else [⟨g, e⟩]

/-- What remains of cases under a further condition. -/
def restrict (condition : Ref) (cs : List Case) : Step Skeleton (List Case) :=
  Step.collect (fun c => caseUnder c.guard condition c.value) cs

/-- The cases of an operation on two terms, given the cases of either. -/
def combine (op : LinExpr → LinExpr → LinExpr) (as bs : List Case) : Step Skeleton (List Case) :=
  Step.collect (fun a => Step.collect (fun b => caseUnder a.guard b.guard (op a.value b.value)) bs)
    as

/-- The cases of an absolute value: each case of the term is split by the sign of its value. -/
def splitSigns (cs : List Case) : Step Skeleton (List Case) :=
  Step.collect (fun c => do
    let negative ← belowZero c.value
    let kept ← caseUnder c.guard (-negative) c.value
    let turned ← caseUnder c.guard negative (-c.value)
    return kept ++ turned) cs

/-- Adds to a function the assignments under which two cases are meant together and their values
stand in a relation. -/
def compareCases (r : Relation) (a : Case) (acc : Ref) (b : Case) : Step Skeleton Ref := do
  let guard ← onManager (Manager.conj a.guard b.guard)
  if guard = .zero then return acc
  let holds ← relate r (a.value - b.value)
  let piece ← onManager (Manager.conj guard holds)
  onManager (Manager.disj acc piece)

/-- The function that says that two terms stand in a relation, given the cases of either. -/
def compareAll (r : Relation) (as bs : List Case) : Step Skeleton Ref :=
  as.foldlM (fun acc a => bs.foldlM (compareCases r a) acc) .zero

end Skeleton

open Skeleton

mutual

/-- The cases of a term. -/
def Term.caseSplit : Term → Step Skeleton (List Case)
  | .var x => pure [⟨.one, .var x⟩]
  | .const c => pure [⟨.one, .const c⟩]
  | .add a b => do
    let as ← a.caseSplit
    let bs ← b.caseSplit
    combine (· + ·) as bs
  | .sub a b => do
    let as ← a.caseSplit
    let bs ← b.caseSplit
    combine (· - ·) as bs
  | .neg a => do return (← a.caseSplit).map fun c => ⟨c.guard, -c.value⟩
  | .scale factor a => do return (← a.caseSplit).map fun c => ⟨c.guard, c.value.scaled factor⟩
  | .abs a => do splitSigns (← a.caseSplit)
  | .ite c a b => do
    let test ← c.encode
    let yes ← restrict test (← a.caseSplit)
    let no ← restrict (-test) (← b.caseSplit)
    return yes ++ no

/-- The function of a formula. -/
def Formula.encode : Formula → Step Skeleton Ref
  | .true => pure .one
  | .false => pure .zero
  | .compare a r b => do
    let as ← a.caseSplit
    let bs ← b.caseSplit
    compareAll r as bs
  | .not f => do return -(← f.encode)
  | .and fs => do onManager (Manager.conjAll (← Formula.encodeAll fs))
  | .or fs => do onManager (Manager.disjAll (← Formula.encodeAll fs))
  | .implies f g => do
    let a ← f.encode
    let b ← g.encode
    onManager (Manager.imp a b)
  | .ite c f g => do
    let test ← c.encode
    let yes ← f.encode
    let no ← g.encode
    onManager (Manager.ite ⟨test, yes, no⟩)

/-- The functions of a list of formulas. -/
def Formula.encodeAll : List Formula → Step Skeleton (List Ref)
  | [] => pure []
  | f :: fs => do
    let r ← f.encode
    let rs ← Formula.encodeAll fs
    return r :: rs

end

end BrakeCheck
