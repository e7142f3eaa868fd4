import BrakeCheck.Proofs.HalfSpace

/-!
# Values depend on the symbolic constants that occur

Two assignments that agree on the symbolic constants of a term give it the same value, and so for
formulas.  Terms and formulas are built from each other through comparisons and conditional terms,
so the two statements are proved together, one case per constructor.

## Main statements

* `Term.eval_congr`, `Formula.eval_congr` — values under assignments that agree.
* `Model.evalTerm_insert`, `Model.eval_insert` — a model in which one other symbolic constant is
  given another value.
-/

namespace BrakeCheck

variable {v w : String → Rat}

mutual

theorem Term.eval_congr (t : Term) (h : ∀ x ∈ t.names, v x = w x) : t.eval v = t.eval w := by
  cases t with
  | var x => exact h x List.mem_cons_self
  | const q => rfl
  | add a b =>
    obtain ⟨ha, hb⟩ := List.forall_mem_append.1 h
    rw [Term.eval, Term.eval, a.eval_congr ha, b.eval_congr hb]
  | sub a b =>
    obtain ⟨ha, hb⟩ := List.forall_mem_append.1 h
    rw [Term.eval, Term.eval, a.eval_congr ha, b.eval_congr hb]
  | neg a => rw [Term.eval, Term.eval, a.eval_congr h]
  | scale q a => rw [Term.eval, Term.eval, a.eval_congr h]
  | abs a => rw [Term.eval, Term.eval, a.eval_congr h]
  | ite c a b =>
    obtain ⟨hca, hb⟩ := List.forall_mem_append.1 h
    obtain ⟨hc, ha⟩ := List.forall_mem_append.1 hca
    rw [Term.eval, Term.eval, c.eval_congr hc, a.eval_congr ha, b.eval_congr hb]

theorem Formula.eval_congr (f : Formula) (h : ∀ x ∈ f.names, v x = w x) : f.eval v = f.eval w := by
  cases f with
  | true => rfl
  | false => rfl
  | compare a r b =>
    obtain ⟨ha, hb⟩ := List.forall_mem_append.1 h
    rw [Formula.eval, Formula.eval, a.eval_congr ha, b.eval_congr hb]
  | not f => rw [Formula.eval, Formula.eval, f.eval_congr h]
  | and fs => rw [Formula.eval, Formula.eval, (Formula.evalEach_congr fs h).1]
  | or fs => rw [Formula.eval, Formula.eval, (Formula.evalEach_congr fs h).2]
  | implies f g =>
    obtain ⟨hf, hg⟩ := List.forall_mem_append.1 h
    rw [Formula.eval, Formula.eval, f.eval_congr hf, g.eval_congr hg]
  | ite c f g =>
    obtain ⟨hcf, hg⟩ := List.forall_mem_append.1 h
    obtain ⟨hc, hf⟩ := List.forall_mem_append.1 hcf
    rw [Formula.eval, Formula.eval, c.eval_congr hc, f.eval_congr hf, g.eval_congr hg]

/-- The members of a list of formulas, taken together in either way. -/
theorem Formula.evalEach_congr (fs : List Formula) (h : ∀ x ∈ Formula.namesOfAll fs, v x = w x) :
    Formula.evalAll v fs = Formula.evalAll w fs ∧ Formula.evalAny v fs = Formula.evalAny w fs := by
  cases fs with
  | nil => exact ⟨rfl, rfl⟩
  | cons f fs =>
    obtain ⟨hf, hfs⟩ := List.forall_mem_append.1 h
    obtain ⟨hall, hany⟩ := Formula.evalEach_congr fs hfs
    rw [Formula.evalAll, Formula.evalAll, Formula.evalAny, Formula.evalAny, f.eval_congr hf, hall,
      hany]
    exact ⟨rfl, rfl⟩

end

namespace Model

/-! ### Giving one symbolic constant another value -/

theorem value_insert_self (m : Model) (y : String) (q : Rat) :
    Model.value (m.insert y q) y = q := by
  rw [value_insert, Function.update_self]

theorem value_insert_of_ne (m : Model) {x y : String} (h : x ≠ y) (q : Rat) :
    Model.value (m.insert y q) x = m.value x := by
  rw [value_insert, Function.update_of_ne h]

/-- A term in which a symbolic constant does not occur keeps its value when that gets another. -/
theorem evalTerm_insert (m : Model) {t : Term} {y : String} (h : y ∉ t.names) (q : Rat) :
    Model.evalTerm (m.insert y q) t = m.evalTerm t :=
  t.eval_congr fun x hx => value_insert_of_ne m (fun heq : x = y => h (heq ▸ hx)) q

/-- A formula in which a symbolic constant does not occur keeps its truth value. -/
theorem eval_insert (m : Model) {f : Formula} {y : String} (h : y ∉ f.names) (q : Rat) :
    Model.eval (m.insert y q) f = m.eval f :=
  f.eval_congr fun x hx => value_insert_of_ne m (fun heq : x = y => h (heq ▸ hx)) q

end Model

end BrakeCheck
