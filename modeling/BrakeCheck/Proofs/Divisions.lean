import BrakeCheck.Proofs.Elimination
import Mathlib.Data.List.Basic

/-!
# The divisions of an elimination

An elimination divides where it normalises, by the first coefficients, and on the way back, by the
coefficients of the constants eliminated.  Here the same elimination is made with any function in the
place of the reciprocal.  It takes the same course if this is the reciprocal of the numbers that are
listed; so an elimination divides by no others.  Constraints that store no coefficient zero stay such
from step to step, and then none of these numbers is zero.

The middle between two bounds is not among the divisions here, as it is always taken by two.

## Main definitions

* `Linear.checkBy` — the decision on constraints with any function for the reciprocal.
* `Linear.Elimination.divisors` — the numbers by which an elimination divides.

## Main statements

* `Linear.checkBy_eq` — a function that is the reciprocal of the divisors does as well as the
  reciprocal.
* `Linear.Elimination.zero_notMem_divisors` — reduced constraints lead to no division by zero.
-/

namespace BrakeCheck

/-! ### Any function for the reciprocal -/

/-- The normal form of an expression, with `inv` for the reciprocal. -/
def LinExpr.normalizedBy (inv : Rat → Rat) (e : LinExpr) : LinExpr :=
  match e.lead? with
  | some lead => if lead.abs = 1 then e else e.scaled (inv lead.abs)
  | none => e

/-- The normal form of a constraint, with `inv` for the reciprocal. -/
def Constraint.normalizedBy (inv : Rat → Rat) (c : Constraint) : Constraint :=
  { c with expr := c.expr.normalizedBy inv }

namespace Linear

open Constraint

/-- The sums of the upper and the lower bounds on a symbolic constant, which become resolvents when
they are normalised. -/
def sums (x : String) (cs : List Constraint) : List Constraint :=
  (uppers x cs).flatMap fun up => (lowers x cs).map fun low =>
    ⟨up.2.expr.scaled (-low.1) + low.2.expr.scaled up.1, up.2.strict || low.2.strict⟩

/-- The constraints that remain when a symbolic constant is eliminated, with `inv` for the
reciprocal. -/
def eliminateBy (inv : Rat → Rat) (x : String) (cs : List Constraint) : List Constraint :=
  free x cs ++ (sums x cs).map (normalizedBy inv)

namespace Elimination

/-- The elimination of symbolic constants one after the other, with `inv` for the reciprocal. -/
def runBy (inv : Rat → Rat) : List String → List Constraint → Elimination
  | [], _ => .solved []
  | x :: xs, cs =>
    let next := eliminateBy inv x cs
    if next.any isViolated then .contradiction x
    else match runBy inv xs (pending next) with
      | .solved stages => .solved (⟨x, cs⟩ :: stages)
      | stopped => stopped

/-- The elimination of the symbolic constants of constraints, with `inv` for the reciprocal. -/
def ofConstraintsBy (inv : Rat → Rat) (cs : List Constraint) : Elimination :=
  match cs.find? isViolated with
  | some c => .violated c
  | none => runBy inv (namesOf cs) (pending (cs.map (normalizedBy inv)))

/-- What is left of an interval by a constraint, with `inv` for the reciprocal. -/
def cutBy (inv : Rat → Rat) (x : String) (values : OrderedMap Rat) (i : Interval) (c : Constraint) :
    Interval :=
  match c.expr.coeff? x with
  | none => i
  | some a =>
    let bound : Bound := ⟨-((c.expr.without x).eval (values.getD · 0)) * inv a, c.strict⟩
    if 0 < a then i.reduce bound else i.raise bound

/-- The interval that a stage leaves to its symbolic constant, with `inv` for the reciprocal. -/
def intervalBy (inv : Rat → Rat) (s : Stage) (values : OrderedMap Rat) : Interval :=
  s.constraints.foldl (cutBy inv s.name values) .everything

/-- A value for the symbolic constant of every stage, with `inv` for the reciprocal. -/
def solutionBy (inv : Rat → Rat) : List Stage → OrderedMap Rat
  | [] => ∅
  | s :: later =>
    let values := solutionBy inv later
    values.insert s.name (intervalBy inv s values).pick

/-- Whether the eliminated constraints have a common solution, with `inv` for the reciprocal on the
way back. -/
def verdictBy (inv : Rat → Rat) : Elimination → Feasibility
  | .solved stages => .feasible (solutionBy inv stages)
  | _ => .infeasible

end Elimination

/-- Whether constraints have a common solution, decided with `inv` for the reciprocal. -/
def checkBy (inv : Rat → Rat) (cs : List Constraint) : Feasibility :=
  (Elimination.ofConstraintsBy inv cs).verdictBy inv

/-! ### The divisors -/

namespace Elimination

/-- The sizes of the first coefficients of constraints, by which these are divided to be
normalised. -/
def leads (cs : List Constraint) : List Rat := cs.filterMap fun c => c.expr.lead?.map Rat.abs

/-- The coefficients of a symbolic constant, by which its bounds are divided. -/
def coefficients (x : String) (cs : List Constraint) : List Rat :=
  cs.filterMap (·.expr.coeff? x)

/-- The numbers by which the elimination of symbolic constants divides: those for the resolvents, and
on the way back the coefficients of the constant eliminated.  That an elimination may end early is
left out of account. -/
def runDivisors : List String → List Constraint → List Rat
  | [], _ => []
  | x :: xs, cs =>
    leads (sums x cs) ++ coefficients x cs ++ runDivisors xs (pending (eliminate x cs))

/-- The numbers by which an elimination divides, from the normal forms of its constraints on. -/
def divisors (cs : List Constraint) : List Rat :=
  leads cs ++ runDivisors (namesOf cs) (pending (cs.map normalized))

end Elimination

/-! ### There are no others -/

/-- Resolvents are the normal forms of sums. -/
theorem eliminate_eq (x : String) (cs : List Constraint) :
    eliminate x cs = free x cs ++ (sums x cs).map normalized := by
  rw [eliminate, sums, List.map_flatMap]
  simp only [List.map_map]
  rfl

namespace Elimination

variable {inv : Rat → Rat} {x : String} {xs : List String} {cs : List Constraint}

theorem map_normalizedBy (h : ∀ q ∈ leads cs, inv q = q⁻¹) :
    cs.map (normalizedBy inv) = cs.map normalized := by
  refine List.map_congr_left fun c hc => ?_
  rw [normalizedBy, normalized, LinExpr.normalizedBy, LinExpr.normalized]
  cases hlead : c.expr.lead? with
  | none => rfl
  | some q =>
    dsimp only
    rw [h q.abs (List.mem_filterMap.2 ⟨c, hc, by rw [hlead, Option.map_some]⟩)]

theorem eliminateBy_eq (h : ∀ q ∈ leads (sums x cs), inv q = q⁻¹) :
    eliminateBy inv x cs = eliminate x cs := by
  rw [eliminateBy, map_normalizedBy h, eliminate_eq]

theorem runBy_eq (h : ∀ q ∈ runDivisors xs cs, inv q = q⁻¹) : runBy inv xs cs = run xs cs := by
  induction xs generalizing cs with
  | nil => rfl
  | cons x xs ih =>
    simp only [runDivisors, List.forall_mem_append] at h
    rw [runBy, eliminateBy_eq h.1.1, ih h.2]
    rfl

/-- The divisors of a run are those of the way back as well. -/
theorem coefficients_of_run {stages : List Stage} (h : run xs cs = .solved stages) :
    ∀ s ∈ stages, ∀ q ∈ coefficients s.name s.constraints, q ∈ runDivisors xs cs := by
  induction xs generalizing cs stages with
  | nil =>
    cases h
    exact fun s hs => by cases hs
  | cons x xs ih =>
    unfold run at h
    dsimp only at h
    split at h
    · cases h
    · split at h
      · next later hlater =>
        cases h
        refine List.forall_mem_cons.2 ⟨fun q hq => ?_, fun s hs q hq => ?_⟩
        · exact List.mem_append_left _ (List.mem_append_right _ hq)
        · exact List.mem_append_right _ (ih hlater s hs q hq)
      · next hother => exact absurd h (hother stages)

theorem intervalBy_eq {s : Stage} (h : ∀ q ∈ coefficients s.name s.constraints, inv q = q⁻¹)
    (values : OrderedMap Rat) : intervalBy inv s values = interval s values := by
  refine List.foldl_ext _ _ _ fun i c hc => ?_
  rw [cutBy, cut]
  cases ha : c.expr.coeff? s.name with
  | none => rfl
  | some a =>
    dsimp only
    rw [h a (List.mem_filterMap.2 ⟨c, hc, ha⟩), ← Rat.div_def]

theorem solutionBy_eq {stages : List Stage}
    (h : ∀ s ∈ stages, ∀ q ∈ coefficients s.name s.constraints, inv q = q⁻¹) :
    solutionBy inv stages = solution stages := by
  induction stages with
  | nil => rfl
  | cons s later ih =>
    obtain ⟨hfirst, hlater⟩ := List.forall_mem_cons.1 h
    rw [solutionBy, solution, ih hlater, intervalBy_eq hfirst]

end Elimination

open Elimination

/-- An elimination divides by no other numbers: with any function for the reciprocal that is the
reciprocal of these it finds the same. -/
theorem checkBy_eq {inv : Rat → Rat} {cs : List Constraint} (h : ∀ q ∈ divisors cs, inv q = q⁻¹) :
    checkBy inv cs = check cs := by
  obtain ⟨hleads, hrun⟩ := List.forall_mem_append.1 h
  unfold checkBy check ofConstraintsBy ofConstraints
  cases cs.find? isViolated with
  | some c => rfl
  | none =>
    dsimp only
    rw [map_normalizedBy hleads, runBy_eq hrun]
    cases hstages : run (namesOf cs) (pending (cs.map normalized)) with
    | violated c => rfl
    | contradiction x => rfl
    | solved stages =>
      exact congrArg Feasibility.feasible
        (solutionBy_eq fun s hs q hq => hrun q (coefficients_of_run hstages s hs q hq))

end Linear

/-! ### None of them is zero -/

theorem LinExpr.Reduced.lead?_ne_zero {e : LinExpr} (he : e.Reduced) : e.lead? ≠ some 0 := by
  intro h
  obtain ⟨d, hd, hzero⟩ := Option.map_eq_some_iff.1 h
  have hget := OrderedMap.get?_of_head? hd
  rw [hzero] at hget
  exact he d.1 hget

namespace Linear.Elimination

open Constraint

theorem zero_notMem_leads {cs : List Constraint} (h : AllReduced cs) : 0 ∉ leads cs := by
  intro hzero
  obtain ⟨c, hc, hsize⟩ := List.mem_filterMap.1 hzero
  obtain ⟨q, hq, habs⟩ := Option.map_eq_some_iff.1 hsize
  rw [Rat.abs_eq_zero_iff.1 habs] at hq
  exact (h c hc).lead?_ne_zero hq

theorem zero_notMem_coefficients {cs : List Constraint} (h : AllReduced cs) (x : String) :
    0 ∉ coefficients x cs := by
  intro hzero
  obtain ⟨c, hc, hcoeff⟩ := List.mem_filterMap.1 hzero
  exact h c hc x hcoeff

theorem allReduced_sums {cs : List Constraint} (h : AllReduced cs) (x : String) :
    AllReduced (sums x cs) := by
  intro c hc
  obtain ⟨up, hup, hmem⟩ := List.mem_flatMap.1 hc
  obtain ⟨low, -, rfl⟩ := List.mem_map.1 hmem
  exact reduced_combination (h up.2 (mem_uppers.1 hup).1) low

/-- Constraints stay reduced from stage to stage. -/
theorem zero_notMem_runDivisors {xs : List String} {cs : List Constraint} (h : AllReduced cs) :
    0 ∉ runDivisors xs cs := by
  induction xs generalizing cs with
  | nil => exact List.not_mem_nil
  | cons x xs ih =>
    have hnext : AllReduced (pending (eliminate x cs)) :=
      allReduced_pending (allReduced_eliminate h)
    rw [runDivisors, List.mem_append, List.mem_append, not_or, not_or]
    exact ⟨⟨zero_notMem_leads (allReduced_sums h x), zero_notMem_coefficients h x⟩, ih hnext⟩

/-- The elimination of reduced constraints divides by no number that is zero. -/
theorem zero_notMem_divisors {cs : List Constraint} (h : AllReduced cs) : 0 ∉ divisors cs := by
  have hnormalized : AllReduced (pending (cs.map normalized)) := allReduced_pending h.normalized
  rw [divisors, List.mem_append, not_or]
  exact ⟨zero_notMem_leads h, zero_notMem_runDivisors hnormalized⟩

end Linear.Elimination

end BrakeCheck
