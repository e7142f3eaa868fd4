import BrakeCheck.Linear.Evaluation
import BrakeCheck.OrderedMap.Lemmas
import Mathlib.Algebra.Order.Field.Rat
import Mathlib.Tactic.Linarith
import Mathlib.Tactic.Ring

/-!
# Coefficients of linear expressions

The operations on linear expressions act on each coefficient by itself.  None of them stores a
coefficient that is zero, so the symbolic constants of an expression are those that its value
depends on.

## Main definitions

* `LinExpr.coeff` — the coefficient of a symbolic constant, zero where it does not occur.
* `LinExpr.Reduced` — no coefficient that is stored is zero.
* `LinExpr.Built` — the expressions that the operations lead to.

## Main statements

* `LinExpr.coeff_add`, `LinExpr.coeff_neg`, `LinExpr.coeff_scaled` — coefficients of the operations.
* `LinExpr.eval_eq_coeff_mul_add`, `LinExpr.eval_update` — the value, with the part of one symbolic
  constant set apart.
* `LinExpr.eval_normalized` — normal forms are positive multiples.
-/

namespace BrakeCheck

namespace OrderedMap

variable {β : Type}

/-- The value of the first name of a map. -/
theorem get?_of_head? {m : OrderedMap β} {e : String × β} (h : m.toList.head? = some e) :
    m.get? e.1 = some e.2 :=
  mem_toList_iff.1 (List.mem_of_mem_head? h)

end OrderedMap

namespace LinExpr

/-! ### Coefficients -/

/-- The coefficient of a symbolic constant, zero where it does not occur. -/
def coeff (e : LinExpr) (x : String) : Rat := (e.coeff? x).getD 0

/-- No coefficient that is stored is zero. -/
def Reduced (e : LinExpr) : Prop := ∀ x, e.coeff? x ≠ some 0

theorem coeff_of_coeff? {e : LinExpr} {x : String} {c : Rat} (h : e.coeff? x = some c) :
    e.coeff x = c := by
  rw [coeff, h]
  rfl

theorem mem_vars_iff {e : LinExpr} {x : String} : x ∈ e.vars ↔ (e.coeff? x).isSome :=
  OrderedMap.mem_names_iff

/-- In a reduced expression the symbolic constants are those with a coefficient other than
zero. -/
theorem Reduced.coeff?_isSome_iff {e : LinExpr} (h : e.Reduced) (x : String) :
    (e.coeff? x).isSome ↔ e.coeff x ≠ 0 := by
  have hx := h x
  rw [coeff]
  cases hc : e.coeff? x with
  | none => simp
  | some c =>
    rw [hc] at hx
    simpa using hx

theorem Reduced.mem_vars_iff {e : LinExpr} (h : e.Reduced) {x : String} :
    x ∈ e.vars ↔ e.coeff x ≠ 0 := by
  rw [LinExpr.mem_vars_iff, h.coeff?_isSome_iff]

/-! ### Adding multiples -/

theorem get?_addCoeff (m : OrderedMap Rat) (x : String) (c : Rat) (y : String) :
    (addCoeff m x c).get? y =
      if y = x then (if m.getD x 0 + c = 0 then none else some (m.getD x 0 + c)) else m.get? y := by
  unfold addCoeff
  by_cases hy : y = x
  · subst hy
    rw [OrderedMap.get?_alter_self, if_pos rfl]
    rfl
  · rw [OrderedMap.get?_alter_of_ne m hy, if_neg hy]

theorem getD_addCoeff (m : OrderedMap Rat) (x : String) (c : Rat) (y : String) :
    (addCoeff m x c).getD y 0 = m.getD y 0 + if y = x then c else 0 := by
  rw [OrderedMap.getD, get?_addCoeff]
  by_cases hy : y = x
  · subst hy
    rw [if_pos rfl, if_pos rfl]
    split
    · next hzero => rw [hzero, Option.getD_none]
    · rw [Option.getD_some]
  · rw [if_neg hy, if_neg hy, Rat.add_zero, OrderedMap.getD]

/-- The coefficients of a list with ascending names are added to those of a map. -/
theorem getD_foldl_addCoeff (y : String) {es : List (String × Rat)}
    (hes : es.Pairwise fun a b => a.1 < b.1) (m : OrderedMap Rat) :
    (es.foldl (fun m e => addCoeff m e.1 e.2) m).getD y 0 =
      m.getD y 0 + (es.lookup y).getD 0 := by
  induction es generalizing m with
  | nil => rw [List.foldl_nil, List.lookup_nil, Option.getD_none, Rat.add_zero]
  | cons e es ih =>
    obtain ⟨x, c⟩ := e
    obtain ⟨hx, hrest⟩ := List.pairwise_cons.1 hes
    rw [List.foldl_cons, ih hrest, getD_addCoeff, List.lookup_cons]
    by_cases hy : y = x
    · subst hy
      have hnone : es.lookup y = none := by
        rw [List.lookup_eq_none_iff]
        intro d hd
        have hne : y ≠ d.1 := fun h => String.lt_irrefl y (h ▸ hx d hd)
        simpa using hne
      simp [hnone]
    · have hyx : (y == x) = false := by simpa using hy
      simp [hy, hyx]

/-- A coefficient that becomes zero is dropped. -/
theorem foldl_addCoeff_ne_zero (y : String) (es : List (String × Rat)) (m : OrderedMap Rat)
    (hm : ∀ x, m.get? x ≠ some 0) :
    (es.foldl (fun m e => addCoeff m e.1 e.2) m).get? y ≠ some 0 := by
  induction es generalizing m with
  | nil => exact hm y
  | cons e es ih =>
    obtain ⟨x, c⟩ := e
    refine ih _ fun z => ?_
    rw [get?_addCoeff]
    split
    · split
      · simp
      · next hne => simpa using hne
    · exact hm z

/-! ### Coefficients of the operations -/

theorem coeff_add (a b : LinExpr) (x : String) : (a + b).coeff x = a.coeff x + b.coeff x :=
  getD_foldl_addCoeff x b.coeffs.ascending a.coeffs

theorem coeff?_neg (a : LinExpr) (x : String) : (-a).coeff? x = (a.coeff? x).map (-·) :=
  OrderedMap.get?_mapValues _ _ _

theorem coeff_neg (a : LinExpr) (x : String) : (-a).coeff x = -a.coeff x := by
  rw [coeff, coeff?_neg, coeff]
  cases a.coeff? x <;> simp

theorem coeff?_scaled {factor : Rat} (hfactor : factor ≠ 0) (a : LinExpr) (x : String) :
    (a.scaled factor).coeff? x = (a.coeff? x).map (· * factor) := by
  unfold scaled
  rw [if_neg hfactor]
  exact OrderedMap.get?_mapValues _ _ _

theorem coeff_scaled (a : LinExpr) (factor : Rat) (x : String) :
    (a.scaled factor).coeff x = a.coeff x * factor := by
  by_cases hfactor : factor = 0
  · rw [hfactor, mul_zero]
    rfl
  · rw [coeff, coeff?_scaled hfactor, coeff]
    cases a.coeff? x <;> simp

theorem coeff?_without (a : LinExpr) (x y : String) :
    (a.without x).coeff? y = if y = x then none else a.coeff? y :=
  OrderedMap.get?_erase _ _ _

theorem coeff?_var (x y : String) : (var x).coeff? y = if y = x then some 1 else none := by
  show (OrderedMap.empty.insert x 1).get? y = _
  rw [OrderedMap.get?_insert, OrderedMap.get?_empty]

/-! ### Reduced expressions -/

theorem reduced_const (q : Rat) : (const q).Reduced := fun _ h => by cases h

theorem reduced_zero : zero.Reduced := fun _ h => by cases h

theorem reduced_var (x : String) : (var x).Reduced := by
  intro y h
  rw [coeff?_var] at h
  split at h
  · simp at h
  · cases h

theorem Reduced.add {a : LinExpr} (ha : a.Reduced) (b : LinExpr) : (a + b).Reduced :=
  fun x => foldl_addCoeff_ne_zero x _ _ ha

theorem Reduced.neg {a : LinExpr} (ha : a.Reduced) : (-a).Reduced := by
  intro x h
  rw [coeff?_neg, Option.map_eq_some_iff] at h
  obtain ⟨c, hc, hzero⟩ := h
  exact ha x (by rw [hc, neg_eq_zero.1 hzero])

theorem Reduced.sub {a : LinExpr} (ha : a.Reduced) (b : LinExpr) : (a - b).Reduced := ha.add (-b)

theorem Reduced.scaled {a : LinExpr} (ha : a.Reduced) (factor : Rat) :
    (a.scaled factor).Reduced := by
  by_cases hfactor : factor = 0
  · have hzero : a.scaled factor = zero := if_pos hfactor
    rw [hzero]
    exact reduced_zero
  · intro x h
    rw [coeff?_scaled hfactor, Option.map_eq_some_iff] at h
    obtain ⟨c, hc, hmul⟩ := h
    rcases mul_eq_zero.1 hmul with hc0 | hf0
    · exact ha x (by rw [hc, hc0])
    · exact hfactor hf0

theorem Reduced.without {a : LinExpr} (ha : a.Reduced) (x : String) : (a.without x).Reduced := by
  intro y h
  rw [coeff?_without] at h
  split at h
  · cases h
  · exact ha y h

/-- Reduced expressions with the same coefficients and the same constant term are equal. -/
theorem Reduced.eq_of_coeff_eq {a b : LinExpr} (ha : a.Reduced) (hb : b.Reduced)
    (hcoeff : ∀ x, a.coeff x = b.coeff x) (hconstant : a.constant = b.constant) : a = b := by
  have hget : ∀ x, a.coeffs.get? x = b.coeffs.get? x := by
    intro x
    have hx := hcoeff x
    have hsome := ha.coeff?_isSome_iff x
    rw [hx, ← hb.coeff?_isSome_iff x] at hsome
    unfold coeff coeff? at hx
    unfold coeff? at hsome
    cases hac : a.coeffs.get? x with
    | none =>
      cases hbc : b.coeffs.get? x with
      | none => rfl
      | some d => simp [hac, hbc] at hsome
    | some c =>
      cases hbc : b.coeffs.get? x with
      | none => simp [hac, hbc] at hsome
      | some d => simpa [hac, hbc] using hx
  obtain ⟨coeffs, constant⟩ := a
  obtain ⟨coeffs', constant'⟩ := b
  dsimp only at hget hconstant
  rw [OrderedMap.eq_of_get?_eq hget, hconstant]

/-- Turning an expression twice gives it back. -/
theorem Reduced.neg_neg {a : LinExpr} (ha : a.Reduced) : - -a = a := by
  refine ha.neg.neg.eq_of_coeff_eq ha (fun x => ?_) (Rat.neg_neg a.constant)
  rw [coeff_neg, coeff_neg, Rat.neg_neg]

/-- A difference turned around is the difference the other way around. -/
theorem Reduced.neg_sub {a b : LinExpr} (ha : a.Reduced) (hb : b.Reduced) : -(a - b) = b - a := by
  refine (ha.sub b).neg.eq_of_coeff_eq (hb.sub a) (fun x => ?_) ?_
  · show (-(a + -b)).coeff x = (b + -a).coeff x
    rw [coeff_neg, coeff_add, coeff_add, coeff_neg, coeff_neg]
    ring
  · show -(a.constant + -b.constant) = b.constant + -a.constant
    ring

theorem mem_vars_var {x y : String} : y ∈ (var x).vars ↔ y = x := by
  rw [mem_vars_iff, coeff?_var]
  split
  · next heq => exact iff_of_true rfl heq
  · next hne => exact iff_of_false Bool.false_ne_true hne

/-- The symbolic constants of a sum are symbolic constants of its parts. -/
theorem vars_add {a b : LinExpr} (ha : a.Reduced) {x : String} (h : x ∈ (a + b).vars) :
    x ∈ a.vars ∨ x ∈ b.vars := by
  rw [(ha.add b).mem_vars_iff, coeff_add] at h
  by_cases hx : a.coeff x = 0
  · rw [hx, zero_add] at h
    refine Or.inr (mem_vars_iff.2 (Option.isSome_iff_ne_none.2 fun hnone => h ?_))
    rw [coeff, hnone, Option.getD_none]
  · exact Or.inl (ha.mem_vars_iff.2 hx)

theorem vars_neg {a : LinExpr} {x : String} : x ∈ (-a).vars ↔ x ∈ a.vars := by
  rw [mem_vars_iff, mem_vars_iff, coeff?_neg, Option.isSome_map]

theorem vars_sub {a b : LinExpr} (ha : a.Reduced) {x : String} (h : x ∈ (a - b).vars) :
    x ∈ a.vars ∨ x ∈ b.vars :=
  (vars_add (b := -b) ha h).imp id vars_neg.1

theorem vars_scaled {a : LinExpr} {factor : Rat} {x : String} (h : x ∈ (a.scaled factor).vars) :
    x ∈ a.vars := by
  by_cases hfactor : factor = 0
  · have hzero : a.scaled factor = zero := if_pos hfactor
    rw [hzero, mem_vars_iff] at h
    cases h
  · rw [mem_vars_iff, coeff?_scaled hfactor, Option.isSome_map] at h
    exact mem_vars_iff.2 h

/-! ### Values -/

/-- The value of an expression depends on its symbolic constants alone. -/
theorem eval_congr {e : LinExpr} {v w : String → Rat} (h : ∀ x ∈ e.vars, v x = w x) :
    e.eval v = e.eval w := by
  have hsum : ∀ es : List (String × Rat), (∀ d ∈ es, v d.1 = w d.1) → sumOf v es = sumOf w es := by
    intro es
    induction es with
    | nil => exact fun _ => rfl
    | cons d es ih =>
      intro hes
      obtain ⟨x, c⟩ := d
      rw [sumOf_cons, sumOf_cons, ih fun d hd => hes d (List.mem_cons_of_mem _ hd),
        hes (x, c) List.mem_cons_self]
  rw [eval_eq, eval_eq, hsum]
  exact fun d hd => h d.1 (List.mem_map_of_mem hd)

/-- A sum of multiples, with the multiple of one symbolic constant set apart. -/
theorem sumOf_erase (v : String → Rat) (x : String) {es : List (String × Rat)}
    (hes : es.Pairwise fun a b => a.1 < b.1) :
    sumOf v es =
      (es.lookup x).getD 0 * v x + sumOf v (OrderedMap.alterEntries x (fun _ => none) es) := by
  induction es with
  | nil => simp [OrderedMap.alterEntries, OrderedMap.entryOf]
  | cons d es ih =>
    obtain ⟨y, c⟩ := d
    obtain ⟨hy, hrest⟩ := List.pairwise_cons.1 hes
    unfold OrderedMap.alterEntries
    rw [List.lookup_cons]
    by_cases hxy : x = y
    · subst hxy
      simp [OrderedMap.entryOf]
    · have hbeq : (x == y) = false := by simpa using hxy
      rw [hbeq]
      dsimp only
      split
      · next hlt =>
        -- all names of the list are later, so nothing is removed
        have hnone : es.lookup x = none := by
          rw [List.lookup_eq_none_iff]
          intro e he
          have hlt' : x < e.1 := String.lt_trans hlt (hy e he)
          have hne : x ≠ e.1 := fun h => String.lt_irrefl e.1 (h ▸ hlt')
          simpa using hne
        simp [OrderedMap.entryOf, hnone]
      · rw [sumOf_cons, sumOf_cons, ih hrest]
        ring

/-- The value of an expression, with the part of one symbolic constant set apart. -/
theorem eval_eq_coeff_mul_add (e : LinExpr) (x : String) (v : String → Rat) :
    e.eval v = e.coeff x * v x + (e.without x).eval v := by
  have hsum := sumOf_erase v x e.coeffs.ascending
  have hwithout : (e.without x).eval v =
      e.constant + sumOf v (OrderedMap.alterEntries x (fun _ => none) e.coeffs.toList) :=
    eval_eq _ _
  rw [eval_eq, hwithout]
  show e.constant + sumOf v e.coeffs.entries = (e.coeffs.entries.lookup x).getD 0 * v x +
    (e.constant + sumOf v (OrderedMap.alterEntries x (fun _ => none) e.coeffs.entries))
  rw [hsum]
  ring

/-- The value of an expression when one symbolic constant is given another value. -/
theorem eval_update (e : LinExpr) (v : String → Rat) (x : String) (q : Rat) :
    e.eval (Function.update v x q) = e.coeff x * q + (e.without x).eval v := by
  rw [eval_eq_coeff_mul_add e x, Function.update_self]
  congr 1
  refine eval_congr fun y hy => Function.update_of_ne ?_ q v
  rintro rfl
  rw [mem_vars_iff, coeff?_without, if_pos rfl] at hy
  cases hy

/-- An expression without symbolic constants is its constant term. -/
theorem eval_of_isConstant {e : LinExpr} (h : e.isConstant) (v : String → Rat) :
    e.eval v = e.constant := by
  have hnil : e.coeffs.toList = [] := List.isEmpty_iff.1 h
  rw [eval_eq, hnil, sumOf_nil, Rat.add_zero]

theorem isConstant_iff {e : LinExpr} : e.isConstant ↔ ∀ x, x ∉ e.vars := by
  unfold isConstant OrderedMap.isEmpty vars OrderedMap.names
  rw [List.isEmpty_iff]
  constructor
  · intro h x
    rw [h]
    simp
  · intro h
    cases hentries : e.coeffs.entries with
    | nil => rfl
    | cons d es => exact absurd (by rw [hentries]; exact List.mem_cons_self) (h d.1)

theorem notMem_vars_const (q : Rat) (x : String) : x ∉ (const q).vars := isConstant_iff.1 rfl x

/-! ### Normal forms -/

/-- A normal form is a multiple by a positive number. -/
theorem exists_normalized_eq {e : LinExpr} (he : e.Reduced) :
    ∃ factor : Rat, 0 < factor ∧ (e.normalized = e ∧ factor = 1 ∨ e.normalized = e.scaled factor) := by
  unfold normalized
  cases hlead : e.lead? with
  | none => exact ⟨1, zero_lt_one, Or.inl ⟨rfl, rfl⟩⟩
  | some lead =>
    dsimp only
    split
    · exact ⟨1, zero_lt_one, Or.inl ⟨rfl, rfl⟩⟩
    · refine ⟨lead.abs⁻¹, ?_, Or.inr rfl⟩
      obtain ⟨d, hd, rfl⟩ := Option.map_eq_some_iff.1 hlead
      have hne : d.2 ≠ 0 := by
        intro hzero
        have hget := OrderedMap.get?_of_head? hd
        rw [hzero] at hget
        exact he d.1 hget
      have habs : d.2.abs ≠ 0 := fun h => hne (Rat.abs_eq_zero_iff.1 h)
      exact inv_pos.2 (lt_of_le_of_ne Rat.abs_nonneg (Ne.symm habs))

/-- The value of a normal form is a positive multiple of the value. -/
theorem eval_normalized {e : LinExpr} (he : e.Reduced) :
    ∃ factor : Rat, 0 < factor ∧ ∀ v, e.normalized.eval v = factor * e.eval v := by
  obtain ⟨factor, hpos, ⟨heq, rfl⟩ | heq⟩ := exists_normalized_eq he
  · exact ⟨1, hpos, fun v => by rw [heq, one_mul]⟩
  · exact ⟨factor, hpos, fun v => by rw [heq, eval_scaled]⟩

theorem Reduced.normalized {e : LinExpr} (he : e.Reduced) : e.normalized.Reduced := by
  obtain ⟨factor, -, ⟨heq, -⟩ | heq⟩ := exists_normalized_eq he
  · rw [heq]
    exact he
  · rw [heq]
    exact he.scaled factor

theorem vars_normalized {e : LinExpr} (he : e.Reduced) {x : String} :
    x ∈ e.normalized.vars ↔ x ∈ e.vars := by
  obtain ⟨factor, hpos, ⟨heq, -⟩ | heq⟩ := exists_normalized_eq he
  · rw [heq]
  · rw [heq, mem_vars_iff, mem_vars_iff, coeff?_scaled (ne_of_gt hpos), Option.isSome_map]

theorem isConstant_normalized {e : LinExpr} (he : e.Reduced) :
    e.normalized.isConstant = e.isConstant := by
  rw [Bool.eq_iff_iff, isConstant_iff, isConstant_iff]
  exact forall_congr' fun x => not_congr (vars_normalized he)

/-! ### Expressions made by the operations -/

/-- The expressions that the operations lead to, in whatever order they are applied. -/
inductive Built : LinExpr → Prop where
  | zero : Built zero
  | const (q : Rat) : Built (const q)
  | var (x : String) : Built (var x)
  | add {a b : LinExpr} (ha : Built a) (hb : Built b) : Built (a + b)
  | sub {a b : LinExpr} (ha : Built a) (hb : Built b) : Built (a - b)
  | neg {a : LinExpr} (ha : Built a) : Built (-a)
  | scaled {a : LinExpr} (ha : Built a) (factor : Rat) : Built (a.scaled factor)
  | normalized {a : LinExpr} (ha : Built a) : Built a.normalized
  | without {a : LinExpr} (ha : Built a) (x : String) : Built (a.without x)

/-- No operation stores a coefficient that is zero. -/
theorem Built.reduced {e : LinExpr} (h : e.Built) : e.Reduced := by
  induction h with
  | zero => exact reduced_zero
  | const q => exact reduced_const q
  | var x => exact reduced_var x
  | add _ _ iha _ => exact iha.add _
  | sub _ _ iha _ => exact iha.sub _
  | neg _ ih => exact ih.neg
  | scaled _ factor ih => exact LinExpr.Reduced.scaled ih factor
  | normalized _ ih => exact ih.normalized
  | without _ x ih => exact ih.without x

end LinExpr

end BrakeCheck
