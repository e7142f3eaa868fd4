import BrakeCheck.Proofs.Elimination

/-!
# Elimination is projection

The constraints that remain when a symbolic constant is eliminated say about the other ones exactly
what the constraints before say about them: values of the others fulfil them if and only if a value
of the one eliminated can be added.

The way back through an elimination has a map from names to values; for the statement about all
assignments the values of the names that occur are put in such a map.

## Main statements

* `Linear.allHold_eliminate_iff` — one step.
* `Linear.eliminate_projects` — what remains does not mention the symbolic constant, and it is the
  projection.
-/

namespace BrakeCheck.Linear

open Constraint

variable {x : String} {cs : List Constraint} {v w : String → Rat}

/-! ### Values of the names that occur -/

/-- Whether constraints hold depends on the values of their symbolic constants only. -/
theorem allHold_congr (h : ∀ c ∈ cs, ∀ y ∈ c.expr.vars, v y = w y) :
    AllHold cs v ↔ AllHold cs w :=
  forall₂_congr fun c hc => by rw [holds, holds, LinExpr.eval_congr (h c hc)]

/-- The values of finitely many names can be put in a map. -/
theorem exists_values (xs : List String) (v : String → Rat) :
    ∃ values : OrderedMap Rat, ∀ y ∈ xs, values.getD y 0 = v y := by
  induction xs with
  | nil => exact ⟨∅, by simp⟩
  | cons x xs ih =>
    obtain ⟨values, hvalues⟩ := ih
    refine ⟨values.insert x (v x), fun y hy => ?_⟩
    rw [congrFun (Elimination.getD_insert values x (v x)) y, Function.update_apply]
    split
    · next heq => rw [heq]
    · next hne => exact hvalues y (List.mem_of_ne_of_mem hne hy)

/-! ### One step -/

/-- Any values for which the remaining constraints hold leave room for a value of the symbolic
constant that has been eliminated. -/
theorem exists_allHold_update (hred : AllReduced cs) (h : AllHold (eliminate x cs) v) :
    ∃ q : Rat, AllHold cs (Function.update v x q) := by
  obtain ⟨values, hvalues⟩ := exists_values (cs.flatMap fun c => c.expr.vars) v
  have hsame : ∀ c ∈ cs, ∀ y ∈ c.expr.vars, values.getD y 0 = v y :=
    fun c hc y hy => hvalues y (List.mem_flatMap.2 ⟨c, hc, hy⟩)
  have hrest : AllHold (eliminate x cs) (values.getD · 0) := by
    refine (allHold_congr fun c hc y hy => ?_).1 h
    obtain ⟨-, d, hd, hyd⟩ := vars_eliminate hred hc hy
    exact (hsame d hd y hyd).symm
  have hpicked := Elimination.allHold_update_pick hred hrest
  refine ⟨(Elimination.interval ⟨x, cs⟩ values).pick, (allHold_congr fun c hc y hy => ?_).1 hpicked⟩
  rw [Function.update_apply, Function.update_apply, hsame c hc y hy]

/-- The constraints that remain hold exactly if some value of the symbolic constant makes those
before hold. -/
theorem allHold_eliminate_iff (hred : AllReduced cs) :
    AllHold (eliminate x cs) v ↔ ∃ q : Rat, AllHold cs (Function.update v x q) := by
  refine ⟨exists_allHold_update hred, fun ⟨q, hq⟩ => ?_⟩
  refine (allHold_congr fun c hc y hy => ?_).1 (allHold_eliminate hred hq)
  exact Function.update_of_ne (vars_eliminate hred hc hy).1 q v

/-- Eliminating a symbolic constant from constraints that store no coefficient zero is exact
projection: no constraint that remains mentions it, and under any values of the symbolic constants
all of these hold if and only if there is a number that, put in the place of its value, makes all
constraints before hold. -/
theorem eliminate_projects (h : ∀ c ∈ cs, c.expr.Reduced) (x : String) :
    (∀ c ∈ eliminate x cs, x ∉ c.expr.vars) ∧
      ∀ v : String → Rat, (∀ c ∈ eliminate x cs, c.holds v) ↔
        ∃ q : Rat, ∀ c ∈ cs, c.holds (Function.update v x q) :=
  ⟨fun _ hc hx => (vars_eliminate h hc hx).1 rfl, fun _ => allHold_eliminate_iff h⟩

/-- The constraints `z < 2 x`, `0 ≤ x`, `x ≤ y`, `x < 1` and `y ≤ 5`: there is a number for `x` if
`y` is a half and `z` is zero, and none if `z` is one, since this leaves nothing between an open and
a closed bound of the same value. -/
theorem eliminate_projects_mixed_bounds :
    ∃ cs : List Constraint,
      cs = [.ltZero (.var "z" - (LinExpr.var "x").scaled 2), .leZero (.zero - .var "x"),
        .leZero (.var "x" - .var "y"), .ltZero (.var "x" - .const 1),
        .leZero (.var "y" - .const 5)] ∧
      (eliminate "x" cs).length = 5 ∧ (∀ c ∈ eliminate "x" cs, "x" ∉ c.expr.vars) ∧
      (∃ q : Rat, ∀ c ∈ cs,
        c.holds (Function.update (fun y => if y = "y" then 1 / 2 else 0) "x" q)) ∧
      ¬ ∃ q : Rat, ∀ c ∈ cs,
        c.holds (Function.update (fun y => if y = "y" then 1 / 2 else 1) "x" q) := by
  refine ⟨_, rfl, ?_⟩
  have hreduced : ∀ c ∈ [Constraint.ltZero (.var "z" - (LinExpr.var "x").scaled 2),
      .leZero (.zero - .var "x"), .leZero (.var "x" - .var "y"), .ltZero (.var "x" - .const 1),
      .leZero (.var "y" - .const 5)], c.expr.Reduced := by
    simp only [List.forall_mem_cons, List.not_mem_nil, false_implies, implies_true, and_true]
    have hx := LinExpr.reduced_var "x"
    have hy := LinExpr.reduced_var "y"
    have hz := LinExpr.reduced_var "z"
    exact ⟨hz.sub _, LinExpr.reduced_zero.sub _, hx.sub _, hx.sub _, hy.sub _⟩
  obtain ⟨hfree, hexact⟩ := eliminate_projects hreduced "x"
  exact ⟨by decide +kernel, hfree, (hexact _).1 (by decide +kernel),
    (hexact _).not.1 (by decide +kernel)⟩

end BrakeCheck.Linear
