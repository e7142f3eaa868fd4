import BrakeCheck.Control.DecisionTable

/-!
# The first rule that matches decides

A decision table is read from its first rule on, and as a formula it is built from its last rule
on.  Both readings agree under every model, also where several guards hold: what counts is the
consequence of the first rule whose guard holds.  A rule below all others therefore has a say only
where none of their guards holds.

## Main statements

* `DecisionTable.eval_toFormula` — a table has the truth value of the consequence in force.
* `DecisionTable.select_eq_of_first` — the rule that decides is the first one whose guard holds.
* `DecisionTable.foldl_addRule` — the order of rules that are added.
* `DecisionTable.consequence_addRule` — what one more rule changes.
* `DecisionTable.first_match_decides` — all of it for the formula of a table.
-/

namespace BrakeCheck.DecisionTable

variable {t : DecisionTable} {m : Model} {r : Rule}

/-! ### The formula of a table -/

theorem toFormula_cons (r : Rule) (rules : List Rule) (default : Formula) :
    toFormula ⟨r :: rules, default⟩ = .ite r.guard r.consequence (toFormula ⟨rules, default⟩) := rfl

theorem consequence_cons (m : Model) (r : Rule) (rules : List Rule) (default : Formula) :
    consequence ⟨r :: rules, default⟩ m =
      if m.eval r.guard then r.consequence else consequence ⟨rules, default⟩ m := by
  unfold consequence select
  rw [List.find?_cons]
  cases m.eval r.guard <;> rfl

/-- A table has the truth value of the consequence in force. -/
theorem eval_toFormula (t : DecisionTable) (m : Model) :
    m.eval t.toFormula = m.eval (t.consequence m) := by
  obtain ⟨rules, default⟩ := t
  induction rules with
  | nil => rfl
  | cons r rules ih =>
    rw [toFormula_cons, consequence_cons]
    show (bif m.eval r.guard then m.eval r.consequence else m.eval (toFormula ⟨rules, default⟩)) = _
    cases m.eval r.guard with
    | false => exact ih
    | true => rfl

/-! ### The rule that decides -/

/-- A rule whose guard holds decides if no earlier guard does. -/
theorem select_eq_of_first {i : Nat} (hi : i < t.rules.length)
    (hguard : m.eval t.rules[i].guard = true)
    (hearlier : ∀ j (hj : j < i), m.eval t.rules[j].guard = false) :
    t.select m = some t.rules[i] := by
  refine List.find?_eq_some_iff_getElem.2 ⟨hguard, i, hi, rfl, fun j hj => ?_⟩
  rw [hearlier j hj]
  rfl

theorem consequence_of_select (h : t.select m = some r) : t.consequence m = r.consequence := by
  rw [consequence, h]

/-- Some rule decides exactly if the disjunction of the guards holds. -/
theorem isSome_select_iff :
    (t.select m).isSome = true ↔ m.eval (.or (t.rules.map Rule.guard)) = true := by
  show _ ↔ Formula.evalAny m.value (t.rules.map Rule.guard) = true
  rw [select, List.find?_isSome, Formula.evalAny_eq_any, List.any_map, List.any_eq_true]
  rfl

/-! ### One more rule -/

/-- Rules that are added one after the other stand in this order, below the ones that were there. -/
theorem foldl_addRule (rules : List Rule) (t : DecisionTable) :
    rules.foldl addRule t = { t with rules := t.rules ++ rules } := by
  induction rules generalizing t with
  | nil => rw [List.foldl_nil, List.append_nil]
  | cons r rules ih =>
    rw [List.foldl_cons, ih, addRule, List.append_assoc]
    rfl

/-- A rule below all others decides where none of them does. -/
theorem select_addRule (t : DecisionTable) (r : Rule) (m : Model) :
    (t.addRule r).select m = (t.select m).or (if m.eval r.guard then some r else none) := by
  show (t.rules ++ [r]).find? (fun s => m.eval s.guard) = _
  rw [List.find?_append, List.find?_singleton]
  rfl

/-- One more rule changes what is in force only where its guard holds and no other one does. -/
theorem consequence_addRule (t : DecisionTable) (r : Rule) (m : Model) :
    (t.addRule r).consequence m =
      if m.eval r.guard && (t.select m).isNone then r.consequence else t.consequence m := by
  unfold consequence
  rw [select_addRule]
  cases t.select m with
  | none => cases m.eval r.guard <;> rfl
  | some s => cases m.eval r.guard <;> rfl

/-- A rule is idle where its guard implies the disjunction of the guards above it. -/
theorem consequence_addRule_of_implied
    (h : m.eval (.implies r.guard (.or (t.rules.map Rule.guard))) = true) :
    (t.addRule r).consequence m = t.consequence m := by
  have himplied : m.eval r.guard = true → (t.select m).isSome = true := by
    intro hguard
    rw [isSome_select_iff]
    change (!m.eval r.guard || m.eval (.or (t.rules.map Rule.guard))) = true at h
    rwa [hguard, Bool.not_true, Bool.false_or] at h
  rw [consequence_addRule, if_neg]
  rw [Bool.and_eq_true, not_and, Bool.not_eq_true, Option.isNone_eq_false_iff]
  exact himplied

/-- As a formula a table is true exactly if the consequence in force is.  That is the consequence of
the first rule whose guard holds, whatever guards hold after it; and a rule below all others changes
nothing where its guard implies the disjunction of theirs. -/
theorem first_match_decides (t : DecisionTable) (m : Model) :
    m.eval t.toFormula = m.eval (t.consequence m) ∧
    (∀ i (hi : i < t.rules.length), m.eval t.rules[i].guard = true →
      (∀ j (hj : j < i), m.eval t.rules[j].guard = false) →
      m.eval t.toFormula = m.eval t.rules[i].consequence) ∧
    ∀ r : Rule, m.eval (.implies r.guard (.or (t.rules.map Rule.guard))) = true →
      m.eval (t.addRule r).toFormula = m.eval t.toFormula := by
  refine ⟨eval_toFormula t m, fun i hi hguard hearlier => ?_, fun r himplied => ?_⟩
  · rw [eval_toFormula, consequence_of_select (select_eq_of_first hi hguard hearlier)]
  · rw [eval_toFormula, eval_toFormula, consequence_addRule_of_implied himplied]

/-- A table whose guards overlap: from zero on the output is one, and the rule from two on comes too
late. -/
def overlapping : DecisionTable where
  rules :=
    [⟨"below", (Term.var "x").lt .zero, (Term.var "y").eq .zero⟩,
      ⟨"from zero", .compare (.var "x") .ge .zero, (Term.var "y").eq (.int 1)⟩,
      ⟨"from two", .compare (.var "x") .ge (.int 2), (Term.var "y").eq (.int 2)⟩]
  default := .false

/-- Where two of the guards hold the earlier one decides, and a rule from one on has no say. -/
theorem first_match_decides_overlapping :
    Model.eval (.ofList [("x", 3), ("y", 1)]) overlapping.toFormula = true ∧
      Model.eval (.ofList [("x", 3), ("y", 1)])
        (overlapping.addRule ⟨"from one", .compare (.var "x") .ge (.int 1), .false⟩).toFormula =
          true := by
  obtain ⟨-, hfirst, hadded⟩ :=
    first_match_decides overlapping (.ofList [("x", 3), ("y", 1)])
  have htable : Model.eval (.ofList [("x", 3), ("y", 1)]) overlapping.toFormula = true :=
    (hfirst 1 (by decide) (by decide +kernel) (by decide +kernel)).trans (by decide +kernel)
  exact ⟨htable, (hadded _ (by decide +kernel)).trans htable⟩

end BrakeCheck.DecisionTable
