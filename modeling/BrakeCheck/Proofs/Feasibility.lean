import BrakeCheck.Proofs.Elimination

/-!
# Feasibility is decided

The elimination of all symbolic constants ends with values exactly if there are any, and the values
it ends with are for the symbolic constants of the constraints and make all of them hold.

## Main statements

* `Linear.check_eq_feasible` — what the values of a feasible answer are.
* `Linear.feasible_iff_exists` — the answer is feasible exactly if the constraints have a common
  solution.
-/

namespace BrakeCheck.Linear

open Constraint

variable {cs : List Constraint}

/-- The values of a feasible answer are those of a whole elimination. -/
theorem check_eq_feasible {values : OrderedMap Rat} :
    check cs = .feasible values ↔ ∃ stages, Elimination.ofConstraints cs = .solved stages ∧
      Elimination.solution stages = values := by
  unfold check
  cases Elimination.ofConstraints cs with
  | solved stages => simp [Elimination.verdict]
  | violated c => simp [Elimination.verdict]
  | contradiction x => simp [Elimination.verdict]

/-- A feasible answer comes with a solution: its values are for just the symbolic constants of the
constraints. -/
theorem solves_of_check (h : AllReduced cs) {values : OrderedMap Rat}
    (hcheck : check cs = .feasible values) :
    (∀ x, x ∈ values.names ↔ ∃ c ∈ cs, x ∈ c.expr.vars) ∧ AllHold cs (values.getD · 0) := by
  obtain ⟨stages, hsolved, rfl⟩ := check_eq_feasible.1 hcheck
  have hsettles := Elimination.settles_ofConstraints h
  rw [hsolved] at hsettles
  refine ⟨fun x => ?_, hsettles⟩
  rw [OrderedMap.mem_names_iff, Elimination.isSome_solution_of_solved hsolved]

/-- Constraints with a common solution are not found infeasible. -/
theorem exists_feasible (h : AllReduced cs) {v : String → Rat} (hv : AllHold cs v) :
    ∃ values, check cs = .feasible values := by
  have hsettles := Elimination.settles_ofConstraints h
  cases hcase : Elimination.ofConstraints cs with
  | solved stages => exact ⟨_, check_eq_feasible.2 ⟨stages, hcase, rfl⟩⟩
  | violated c =>
    rw [hcase] at hsettles
    exact absurd hv (hsettles v)
  | contradiction x =>
    rw [hcase] at hsettles
    exact absurd hv (hsettles v)

/-- Feasibility is decided exactly: for constraints over expressions made by the operations, there
is a feasible answer if and only if some values of the symbolic constants make all of them hold,
and then the answer has values for exactly the symbolic constants that occur, and these make all
constraints hold. -/
theorem feasible_iff_exists (h : ∀ c ∈ cs, c.expr.Built) :
    ((∃ values, check cs = .feasible values) ↔ ∃ v : String → Rat, ∀ c ∈ cs, c.holds v) ∧
    ∀ values, check cs = .feasible values →
      (∀ x, x ∈ values.names ↔ ∃ c ∈ cs, x ∈ c.expr.vars) ∧
        ∀ c ∈ cs, c.holds (values.getD · 0) := by
  have hreduced : AllReduced cs := fun c hc => (h c hc).reduced
  refine ⟨⟨?_, ?_⟩, fun values hcheck => solves_of_check hreduced hcheck⟩
  · rintro ⟨values, hcheck⟩
    exact ⟨_, (solves_of_check hreduced hcheck).2⟩
  · rintro ⟨v, hv⟩
    exact exists_feasible hreduced hv

/-- Three constraints of which one is without symbolic constants: `x < y`, `2 y ≤ 1` and `0 < 1`,
which hold when `x` is minus one and `y` is zero. -/
theorem feasible_iff_exists_two_names :
    ∃ values, check [.ltZero (.var "x" - .var "y"), .leZero ((LinExpr.var "y").scaled 2 - .const 1),
        .ltZero (.zero - .const 1)] = .feasible values ∧
      ∀ c ∈ [Constraint.ltZero (.var "x" - .var "y"),
        .leZero ((LinExpr.var "y").scaled 2 - .const 1), .ltZero (.zero - .const 1)],
        c.holds (values.getD · 0) := by
  have hbuilt : ∀ c ∈ [Constraint.ltZero (.var "x" - .var "y"),
      .leZero ((LinExpr.var "y").scaled 2 - .const 1), .ltZero (.zero - .const 1)],
      c.expr.Built := by
    simp only [List.forall_mem_cons, List.not_mem_nil, false_implies, implies_true, and_true]
    exact ⟨.sub (.var _) (.var _), .sub (.scaled (.var _) _) (.const _), .sub .zero (.const _)⟩
  obtain ⟨values, hvalues⟩ := (feasible_iff_exists hbuilt).1.2
    ⟨fun x => if x = "x" then -1 else 0, by decide +kernel⟩
  exact ⟨values, hvalues, ((feasible_iff_exists hbuilt).2 values hvalues).2⟩

end BrakeCheck.Linear
