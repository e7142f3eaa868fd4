import BrakeCheck.Formula.Model
import BrakeCheck.Proofs.Elimination

/-!
# Linear expressions as functions and as half-spaces

Expressions made by the operations are equal as soon as they have the same values: the model
without entries gives the constant term, and the model that sets one symbolic constant to one
gives its coefficient.

A normal form is determined by less, by the half-space where the expression is below zero.  Along
a line on which an expression is not constant it changes its sign in one point, and an expression
that is below zero in the same half-space changes its sign there as well.  So each is a positive
multiple of the other on every line in that direction, with the same factor, and hence everywhere.

## Main definitions

* `LinExpr.SameHalfSpace` — two expressions are below zero under the same models.

## Main statements

* `LinExpr.Reduced.eq_of_eval_eq` — expressions with the same values are equal.
* `LinExpr.Built.canonical_form` — equality, values and the operations, for all expressions.
* `LinExpr.Reduced.eq_scaled_of_sameHalfSpace` — expressions with the same half-space are positive
  multiples of each other.
* `LinExpr.normalized_eq_iff` — normal forms are the half-spaces.
-/

namespace BrakeCheck

theorem Model.value_insert (m : Model) (x : String) (q : Rat) :
    Model.value (m.insert x q) = Function.update m.value x q := Linear.Elimination.getD_insert m x q

theorem Model.value_empty : Model.value ∅ = fun _ => 0 := rfl

namespace LinExpr

variable {a b e : LinExpr}

/-! ### Expressions as functions -/

/-- The expression without a symbolic constant has the value when that is zero. -/
theorem eval_without (e : LinExpr) (x : String) (v : String → Rat) :
    (e.without x).eval v = e.eval (Function.update v x 0) := by
  rw [eval_update, mul_zero, zero_add]

/-- Where all symbolic constants are zero, the constant term is left. -/
theorem eval_origin (e : LinExpr) : e.eval (fun _ => 0) = e.constant := by
  have hsum : ∀ es : List (String × Rat), sumOf (fun _ => 0) es = 0 := by
    intro es
    induction es with
    | nil => rfl
    | cons d es ih =>
      obtain ⟨x, c⟩ := d
      rw [sumOf_cons, ih, mul_zero, add_zero]
  rw [eval_eq, hsum, add_zero]

/-- Where one symbolic constant is one and all others are zero, its coefficient is added. -/
theorem eval_unit (e : LinExpr) (x : String) :
    e.eval (Function.update (fun _ => 0) x 1) = e.coeff x + e.constant := by
  rw [eval_update, mul_one, eval_origin]
  rfl

/-- Expressions that have the same values are equal: finitely many models, one for each symbolic
constant and one more, tell them apart. -/
theorem Reduced.eq_of_eval_eq (ha : a.Reduced) (hb : b.Reduced)
    (h : ∀ m : Model, a.eval m.value = b.eval m.value) : a = b := by
  have hconstant : a.constant = b.constant := by
    have horigin := h ∅
    rwa [Model.value_empty, eval_origin, eval_origin] at horigin
  refine ha.eq_of_coeff_eq hb (fun x => ?_) hconstant
  have hunit := h (OrderedMap.insert ∅ x 1)
  rw [Model.value_insert, Model.value_empty, eval_unit, eval_unit, hconstant] at hunit
  exact add_right_cancel hunit

/-- Linear expressions are a canonical form.  In whatever way they are built by the operations, no
coefficient that is stored is zero, two of them are equal exactly if they have the same value under
all models, and the operations on them are those on the values. -/
theorem Built.canonical_form (ha : a.Built) (hb : b.Built) :
    a.Reduced ∧ (a = b ↔ ∀ m : Model, a.eval m.value = b.eval m.value) ∧
      ∀ v : String → Rat, (a + b).eval v = a.eval v + b.eval v ∧
        (a - b).eval v = a.eval v - b.eval v ∧ (-a).eval v = -a.eval v ∧
        (∀ c, (a.scaled c).eval v = c * a.eval v) ∧
        ∀ x, (a.without x).eval v = a.eval (Function.update v x 0) := by
  refine ⟨ha.reduced, ⟨?_, ha.reduced.eq_of_eval_eq hb.reduced⟩, fun v => ?_⟩
  · rintro rfl m
    rfl
  · exact ⟨eval_add a b v, eval_sub a b v, eval_neg a v, fun c => eval_scaled a c v,
      fun x => eval_without a x v⟩

/-- A symbolic constant that is added and taken away again leaves no trace. -/
theorem canonical_form_cancelled : (var "x" + var "y" - var "x").Reduced ∧
    var "x" + var "y" - var "x" = var "y" := by
  obtain ⟨hreduced, heq, -⟩ :=
    (((Built.var "x").add (.var "y")).sub (.var "x")).canonical_form (Built.var "y")
  refine ⟨hreduced, heq.2 fun m => ?_⟩
  rw [eval_sub, eval_add]
  ring

/-! ### Multiples -/

theorem scaled_one (he : e.Reduced) : e.scaled 1 = e :=
  LinExpr.Reduced.eq_of_eval_eq (he.scaled 1) he fun m => by rw [eval_scaled, one_mul]

theorem scaled_scaled (he : e.Reduced) (p q : Rat) : (e.scaled p).scaled q = e.scaled (p * q) :=
  LinExpr.Reduced.eq_of_eval_eq ((he.scaled p).scaled q) (he.scaled (p * q)) fun m => by
    rw [eval_scaled, eval_scaled, eval_scaled]
    ring

theorem lead?_scaled {factor : Rat} (hfactor : factor ≠ 0) (e : LinExpr) :
    (e.scaled factor).lead? = e.lead?.map (· * factor) := by
  unfold scaled
  rw [if_neg hfactor]
  show ((e.coeffs.entries.map _).head?.map Prod.snd) = (e.coeffs.entries.head?.map Prod.snd).map _
  rw [List.head?_map, Option.map_map, Option.map_map]
  rfl

/-- The first coefficient of an expression with symbolic constants. -/
theorem exists_lead? (he : e.Reduced) (hconst : e.isConstant = false) :
    ∃ lead : Rat, e.lead? = some lead ∧ 0 < lead.abs := by
  cases hentries : e.coeffs.entries with
  | nil =>
    rw [isConstant, OrderedMap.isEmpty, hentries] at hconst
    cases hconst
  | cons d es =>
    have hlead : e.lead? = some d.2 := by
      rw [lead?, OrderedMap.toList, hentries]
      rfl
    have hne : d.2 ≠ 0 := by
      intro hzero
      refine he d.1 (OrderedMap.mem_toList_iff.1 ?_)
      rw [OrderedMap.toList, hentries, ← hzero]
      exact List.mem_cons_self
    exact ⟨d.2, hlead, lt_of_le_of_ne Rat.abs_nonneg fun h => hne (Rat.abs_eq_zero_iff.1 h.symm)⟩

/-- A normal form divides by the absolute value of the first coefficient. -/
theorem normalized_eq_scaled (he : e.Reduced) {lead : Rat} (hlead : e.lead? = some lead) :
    e.normalized = e.scaled lead.abs⁻¹ := by
  unfold normalized
  rw [hlead]
  dsimp only
  split
  · next hone => rw [hone, inv_one, scaled_one he]
  · rfl

/-- Positive multiples have the same normal form. -/
theorem normalized_scaled (he : e.Reduced) (hconst : e.isConstant = false) {factor : Rat}
    (hfactor : 0 < factor) : (e.scaled factor).normalized = e.normalized := by
  obtain ⟨lead, hlead, hpos⟩ := exists_lead? he hconst
  have hlead' : (e.scaled factor).lead? = some (lead * factor) := by
    rw [lead?_scaled (ne_of_gt hfactor), hlead]
    rfl
  have habs : (lead * factor).abs = lead.abs * factor := by
    simp only [Rat.abs, mul_nonneg_iff_of_pos_right hfactor, ite_mul, neg_mul]
  rw [normalized_eq_scaled (he.scaled factor) hlead', normalized_eq_scaled he hlead,
    scaled_scaled he, habs, mul_inv, mul_left_comm, mul_inv_cancel₀ (ne_of_gt hfactor), mul_one]

theorem normalized_normalized (he : e.Reduced) : e.normalized.normalized = e.normalized := by
  cases hconst : e.isConstant with
  | true =>
    have hlead : e.lead? = none := by
      rw [lead?, OrderedMap.toList, List.isEmpty_iff.1 hconst]
      rfl
    have hself : e.normalized = e := by rw [normalized, hlead]
    rw [hself, hself]
  | false =>
    obtain ⟨lead, hlead, hpos⟩ := exists_lead? he hconst
    rw [normalized_eq_scaled he hlead, normalized_scaled he hconst (inv_pos.2 hpos),
      normalized_eq_scaled he hlead]

/-! ### Expressions as half-spaces -/

/-- Two expressions are below zero under the same models. -/
def SameHalfSpace (a b : LinExpr) : Prop :=
  ∀ m : Model, a.eval m.value < 0 ↔ b.eval m.value < 0

/-- Two functions of one number that are below zero in the same places, the first of which is not
constant: the second one is a positive multiple of it. -/
theorem positive_multiple_of_line {α β p q : Rat} (hα : α ≠ 0)
    (h : ∀ z, α * z + p < 0 ↔ β * z + q < 0) : 0 < β / α ∧ q = β / α * p := by
  have hcancel : α * (β / α) = β := mul_div_cancel₀ β hα
  generalize β / α = k at hcancel ⊢
  subst hcancel
  -- at the point where the first one comes to `z`, the second one comes to `k * z + r`
  obtain ⟨r, hr⟩ : ∃ r, q = k * p + r := ⟨q - k * p, by ring⟩
  have hvalue : ∀ z, z < 0 ↔ k * z + r < 0 := by
    intro z
    have hz := h ((z - p) / α)
    have hfirst : α * ((z - p) / α) + p = z := by rw [mul_div_cancel₀ _ hα, sub_add_cancel]
    have hsecond : α * k * ((z - p) / α) + q = k * z + r := by
      rw [hr, mul_comm α k, mul_assoc, mul_div_cancel₀ _ hα]
      ring
    rwa [hfirst, hsecond] at hz
  have hnonneg : 0 ≤ r := by
    have hzero := (hvalue 0).not.1 (lt_irrefl 0)
    linarith
  have hpos : 0 < k := by
    have hbelow := (hvalue (-1)).1 (by norm_num)
    linarith
  refine ⟨hpos, ?_⟩
  by_contra hne
  have hr0 : 0 < r := lt_of_le_of_ne hnonneg fun hzero => hne (by rw [hr, ← hzero, add_zero])
  -- between the two points where they come to zero they have different signs
  have hbetween := (hvalue (-(r / k))).1 (neg_lt_zero.2 (div_pos hr0 hpos))
  rw [mul_neg, mul_div_cancel₀ r (ne_of_gt hpos)] at hbetween
  linarith

/-- Expressions that are below zero in the same half-space are positive multiples of each other,
if one of them is not constant. -/
theorem Reduced.eq_scaled_of_sameHalfSpace (ha : a.Reduced) (hb : b.Reduced)
    (hconst : a.isConstant = false) (h : a.SameHalfSpace b) :
    ∃ factor : Rat, 0 < factor ∧ b = a.scaled factor := by
  -- a symbolic constant along which the first expression changes
  obtain ⟨x, hx⟩ : ∃ x, a.coeff x ≠ 0 := by
    refine not_forall.1 fun hnone => ?_
    have hconstant : a.isConstant := isConstant_iff.2 fun x hx => ha.mem_vars_iff.1 hx (hnone x)
    rw [hconst] at hconstant
    cases hconstant
  have hline : ∀ m : Model, 0 < b.coeff x / a.coeff x ∧
      (b.without x).eval m.value = b.coeff x / a.coeff x * (a.without x).eval m.value := by
    refine fun m => positive_multiple_of_line hx fun z => ?_
    have hz := h (m.insert x z)
    rwa [Model.value_insert, eval_update, eval_update] at hz
  refine ⟨b.coeff x / a.coeff x, (hline ∅).1, hb.eq_of_eval_eq (ha.scaled _) fun m => ?_⟩
  rw [eval_scaled, eval_eq_coeff_mul_add b x, eval_eq_coeff_mul_add a x, (hline m).2, mul_add,
    ← mul_assoc, div_mul_cancel₀ _ hx]

/-- Normal forms are below zero where the expressions are. -/
theorem sameHalfSpace_normalized (he : e.Reduced) : e.SameHalfSpace e.normalized := by
  obtain ⟨factor, hpos, hvalue⟩ := eval_normalized he
  intro m
  have hlt := mul_lt_mul_iff_right₀ (b := e.eval m.value) (c := 0) hpos
  rw [mul_zero] at hlt
  rw [hvalue]
  exact hlt.symm

/-- Expressions have the same normal form exactly if they are below zero in the same half-space. -/
theorem normalized_eq_iff (ha : a.Reduced) (hb : b.Reduced) (hconst : a.isConstant = false) :
    a.normalized = b.normalized ↔ a.SameHalfSpace b := by
  constructor
  · intro heq m
    rw [sameHalfSpace_normalized ha m, heq, ← sameHalfSpace_normalized hb m]
  · intro h
    obtain ⟨factor, hpos, rfl⟩ := ha.eq_scaled_of_sameHalfSpace hb hconst h
    exact (normalized_scaled ha hconst hpos).symm

end LinExpr

end BrakeCheck
