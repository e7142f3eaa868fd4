import BrakeCheck.Linear.Expr

/-!
# Values of linear expressions

The value of an expression is its constant term and the sum of its multiples, and the ring
operations on expressions are those on the values.

## Main definitions

* `LinExpr.sumOf` — the multiples of symbolic constants, added up.

## Main statements

* `LinExpr.eval_eq` — the value as a constant and a sum.
* `LinExpr.eval_add`, `LinExpr.eval_sub`, `LinExpr.eval_neg`, `LinExpr.eval_scaled` — values of the
  operations.
-/

namespace BrakeCheck.LinExpr

/-! ### Sums of multiples -/

/-- The multiples of symbolic constants in a list, added up. -/
def sumOf (v : String → Rat) : List (String × Rat) → Rat
  | [] => 0
  | (x, c) :: es => c * v x + sumOf v es

@[simp] theorem sumOf_nil (v : String → Rat) : sumOf v [] = 0 := rfl

@[simp] theorem sumOf_cons (v : String → Rat) (x : String) (c : Rat) (es : List (String × Rat)) :
    sumOf v ((x, c) :: es) = c * v x + sumOf v es := rfl

theorem sumOf_append (v : String → Rat) (as bs : List (String × Rat)) :
    sumOf v (as ++ bs) = sumOf v as + sumOf v bs := by
  induction as with
  | nil => rw [List.nil_append, sumOf_nil, Rat.zero_add]
  | cons e es ih =>
    obtain ⟨x, c⟩ := e
    rw [List.cons_append, sumOf_cons, sumOf_cons, ih, Rat.add_assoc]

theorem sumOf_map_mul (v : String → Rat) (factor : Rat) (es : List (String × Rat)) :
    sumOf v (es.map fun e => (e.1, e.2 * factor)) = factor * sumOf v es := by
  induction es with
  | nil => rw [List.map_nil, sumOf_nil, Rat.mul_zero]
  | cons e es ih =>
    obtain ⟨x, c⟩ := e
    rw [List.map_cons, sumOf_cons, sumOf_cons, ih, Rat.mul_add, Rat.mul_comm c, Rat.mul_assoc]

theorem sumOf_map_neg (v : String → Rat) (es : List (String × Rat)) :
    sumOf v (es.map fun e => (e.1, -e.2)) = -sumOf v es := by
  induction es with
  | nil => rfl
  | cons e es ih =>
    obtain ⟨x, c⟩ := e
    rw [List.map_cons, sumOf_cons, sumOf_cons, ih, Rat.neg_mul, Rat.neg_add]

/-- Leaving a coefficient out because it is zero does not change the sum. -/
theorem sumOf_entryOf (v : String → Rat) (x : String) (c : Rat) :
    sumOf v (OrderedMap.entryOf x (if c = 0 then none else some c)) = c * v x := by
  split
  · next h => rw [OrderedMap.entryOf, sumOf_nil, h, Rat.zero_mul]
  · rw [OrderedMap.entryOf, sumOf_cons, sumOf_nil, Rat.add_zero]

theorem sumOf_alterEntries (v : String → Rat) (x : String) (c : Rat) (es : List (String × Rat)) :
    sumOf v (OrderedMap.alterEntries x
        (fun old => if old.getD 0 + c = 0 then none else some (old.getD 0 + c)) es) =
      sumOf v es + c * v x := by
  induction es with
  | nil =>
    rw [OrderedMap.alterEntries, sumOf_entryOf, sumOf_nil, Option.getD_none, Rat.zero_add,
      Rat.zero_add]
  | cons d rest ih =>
    obtain ⟨y, b⟩ := d
    unfold OrderedMap.alterEntries
    split
    · rw [sumOf_append, sumOf_entryOf, Option.getD_none, Rat.zero_add, Rat.add_comm]
    · split
      · next heq =>
        -- the two multiples of `x` become one
        subst heq
        rw [sumOf_append, sumOf_entryOf, sumOf_cons, Option.getD_some]
        grind
      · rw [sumOf_cons, sumOf_cons, ih, Rat.add_assoc]

theorem sumOf_addCoeff (v : String → Rat) (m : OrderedMap Rat) (x : String) (c : Rat) :
    sumOf v (addCoeff m x c).toList = sumOf v m.toList + c * v x :=
  sumOf_alterEntries v x c m.toList

theorem sumOf_foldl_addCoeff (v : String → Rat) (m : OrderedMap Rat)
    (es : List (String × Rat)) :
    sumOf v (es.foldl (fun m e => addCoeff m e.1 e.2) m).toList =
      sumOf v m.toList + sumOf v es := by
  induction es generalizing m with
  | nil => rw [List.foldl_nil, sumOf_nil, Rat.add_zero]
  | cons e es ih =>
    obtain ⟨x, c⟩ := e
    rw [List.foldl_cons, ih, sumOf_addCoeff, sumOf_cons, Rat.add_assoc]

theorem foldl_eq_add_sumOf (v : String → Rat) (q : Rat) (es : List (String × Rat)) :
    es.foldl (fun sum e => sum + e.2 * v e.1) q = q + sumOf v es := by
  induction es generalizing q with
  | nil => rw [List.foldl_nil, sumOf_nil, Rat.add_zero]
  | cons e es ih =>
    obtain ⟨x, c⟩ := e
    rw [List.foldl_cons, ih, sumOf_cons, Rat.add_assoc]

/-! ### Values of the operations -/

/-- The value of an expression is its constant term and the sum of its multiples. -/
theorem eval_eq (e : LinExpr) (v : String → Rat) :
    e.eval v = e.constant + sumOf v e.coeffs.toList := foldl_eq_add_sumOf v _ _

@[simp] theorem eval_zero (v : String → Rat) : zero.eval v = 0 := rfl

@[simp] theorem eval_const (q : Rat) (v : String → Rat) : (const q).eval v = q := rfl

@[simp] theorem eval_var (x : String) (v : String → Rat) : (var x).eval v = v x := by
  change (0 : Rat) + 1 * v x = v x
  rw [Rat.zero_add, Rat.one_mul]

theorem eval_scaled (e : LinExpr) (factor : Rat) (v : String → Rat) :
    (e.scaled factor).eval v = factor * e.eval v := by
  unfold scaled
  split
  · next h => rw [h, eval_zero, Rat.zero_mul]
  · rw [eval_eq, eval_eq]
    change e.constant * factor + sumOf v (e.coeffs.toList.map fun d => (d.1, d.2 * factor)) = _
    rw [sumOf_map_mul, Rat.mul_add, Rat.mul_comm factor e.constant]

@[simp] theorem eval_neg (e : LinExpr) (v : String → Rat) : (-e).eval v = -e.eval v := by
  rw [eval_eq, eval_eq]
  change -e.constant + sumOf v (e.coeffs.toList.map fun d => (d.1, -d.2)) = _
  rw [sumOf_map_neg, Rat.neg_add]

@[simp] theorem eval_add (a b : LinExpr) (v : String → Rat) :
    (a + b).eval v = a.eval v + b.eval v := by
  rw [eval_eq, eval_eq, eval_eq]
  change a.constant + b.constant +
    sumOf v (b.coeffs.toList.foldl (fun m e => addCoeff m e.1 e.2) a.coeffs).toList = _
  rw [sumOf_foldl_addCoeff]
  grind

@[simp] theorem eval_sub (a b : LinExpr) (v : String → Rat) :
    (a - b).eval v = a.eval v - b.eval v := by
  change (a + -b).eval v = _
  rw [eval_add, eval_neg, Rat.sub_eq_add_neg]

end BrakeCheck.LinExpr
