import BrakeCheck.Linear.Feasibility
import BrakeCheck.Proofs.Coefficients
import BrakeCheck.Proofs.Interval
import Mathlib.Algebra.Order.Field.Basic

/-!
# Elimination is exact

Eliminating a symbolic constant loses nothing: the constraints that remain hold under values of
the other constants exactly if a value of the one eliminated can be added.  An upper and a lower
bound leave room for such a value exactly if their resolvent holds, and the interval on the way
back is bounded by one bound of either kind.

## Main definitions

* `Constraint.boundOn` — what a constraint says about one symbolic constant, given the others.
* `Constraint.AllReduced`, `Constraint.AllHold` — for all constraints of a list.
* `Linear.Elimination.Settles` — an elimination ends with a solution, or there is none.

## Main statements

* `Linear.holds_resolvent_iff` — a resolvent holds where the two bounds leave something between
  them.
* `Linear.allHold_eliminate`, `Linear.allHold_update_pick` — the two directions of one step.
* `Linear.Elimination.settles_ofConstraints` — the whole elimination.
-/

namespace BrakeCheck

namespace Constraint

/-! ### Values -/

theorem holds_iff (c : Constraint) (v : String → Rat) :
    c.holds v ↔ if c.strict then c.expr.eval v < 0 else c.expr.eval v ≤ 0 := by
  unfold holds admits
  split <;> simp

/-- A positive multiple of an expression keeps its side of zero. -/
theorem holds_of_multiple {c d : Constraint} (hstrict : d.strict = c.strict) {factor : Rat}
    (hpos : 0 < factor) {v : String → Rat} (heval : d.expr.eval v = factor * c.expr.eval v) :
    d.holds v = c.holds v := by
  have hlt := mul_lt_mul_iff_right₀ (b := c.expr.eval v) (c := 0) hpos
  have hle := mul_le_mul_iff_right₀ (b := c.expr.eval v) (c := 0) hpos
  rw [mul_zero] at hlt hle
  rw [Bool.eq_iff_iff, holds_iff, holds_iff, hstrict, heval, hlt, hle]

theorem holds_normalized {c : Constraint} (hc : c.expr.Reduced) (v : String → Rat) :
    c.normalized.holds v = c.holds v := by
  obtain ⟨factor, hpos, heval⟩ := LinExpr.eval_normalized hc
  exact holds_of_multiple (c := c) (d := c.normalized) rfl hpos (heval v)

/-- A constraint without symbolic constants holds everywhere or nowhere. -/
theorem holds_of_isGround {c : Constraint} (h : c.isGround) (v : String → Rat) :
    c.holds v = !c.isViolated := by
  unfold holds isViolated
  rw [LinExpr.eval_of_isConstant h, h, Bool.true_and, Bool.not_not]

theorem isGround_of_isViolated {c : Constraint} (h : c.isViolated) : c.isGround := by
  unfold isViolated at h
  exact (Bool.and_eq_true_iff.1 h).1

/-- Of two constraints that hold at the same places, and that have no symbolic constants unless
both have some, one is false without them exactly if the other one is. -/
theorem isViolated_eq_of_holds {c d : Constraint} (hground : d.isGround = c.isGround)
    (hholds : ∀ v, d.holds v = c.holds v) : d.isViolated = c.isViolated := by
  cases hc : c.isGround with
  | true =>
    have hnot := hholds fun _ => 0
    rw [holds_of_isGround (hground.trans hc), holds_of_isGround hc, Bool.not_inj_iff] at hnot
    exact hnot
  | false =>
    unfold isViolated
    rw [hground, hc, Bool.false_and, Bool.false_and]

theorem isGround_normalized {c : Constraint} (hc : c.expr.Reduced) :
    c.normalized.isGround = c.isGround :=
  LinExpr.isConstant_normalized hc

theorem isViolated_normalized {c : Constraint} (hc : c.expr.Reduced) :
    c.normalized.isViolated = c.isViolated :=
  isViolated_eq_of_holds (isGround_normalized hc) (holds_normalized hc)

/-- All constraints of a list have reduced expressions. -/
def AllReduced (cs : List Constraint) : Prop := ∀ c ∈ cs, c.expr.Reduced

/-- All constraints of a list hold. -/
def AllHold (cs : List Constraint) (v : String → Rat) : Prop := ∀ c ∈ cs, c.holds v

theorem AllReduced.normalized {cs : List Constraint} (h : AllReduced cs) :
    AllReduced (cs.map normalized) :=
  List.forall_mem_map.2 fun c hc => (h c hc).normalized

/-- Normal forms hold where the constraints do. -/
theorem allHold_normalized_iff {cs : List Constraint} (h : AllReduced cs) (v : String → Rat) :
    AllHold (cs.map normalized) v ↔ AllHold cs v := by
  unfold AllHold
  rw [List.forall_mem_map]
  exact forall₂_congr fun c hc => by rw [holds_normalized (h c hc)]

/-- No normal form is false without symbolic constants unless a constraint is. -/
theorem any_isViolated_normalized {cs : List Constraint} (h : AllReduced cs)
    (hnone : cs.any isViolated = false) : (cs.map normalized).any isViolated = false := by
  rw [List.any_eq_false] at hnone ⊢
  refine List.forall_mem_map.2 fun c hc => ?_
  rw [isViolated_normalized (h c hc)]
  exact hnone c hc

theorem not_allHold_of_isViolated {cs : List Constraint} {c : Constraint} (hc : c ∈ cs)
    (h : c.isViolated) (v : String → Rat) : ¬ AllHold cs v := by
  intro hall
  have hholds := hall c hc
  rw [holds_of_isGround (isGround_of_isViolated h), h] at hholds
  cases hholds

/-! ### Bounds -/

/-- The bound that a constraint sets to a symbolic constant with coefficient `a` when the others
have the values `v`. -/
def boundOn (x : String) (a : Rat) (c : Constraint) (v : String → Rat) : Bound :=
  ⟨-((c.expr.without x).eval v) / a, c.strict⟩

theorem holds_update_of_free {c : Constraint} {x : String} (h : c.expr.coeff? x = none)
    (v : String → Rat) (q : Rat) : c.holds (Function.update v x q) = c.holds v := by
  unfold holds
  rw [LinExpr.eval_congr]
  intro y hy
  have hne : y ≠ x := by
    rintro rfl
    rw [LinExpr.mem_vars_iff, h] at hy
    cases hy
  exact Function.update_of_ne hne q v

/-- With a positive coefficient a constraint is an upper bound. -/
theorem holds_update_iff_admitsBelow {c : Constraint} {x : String} {a : Rat}
    (h : c.expr.coeff? x = some a) (ha : 0 < a) (v : String → Rat) (q : Rat) :
    c.holds (Function.update v x q) ↔ (c.boundOn x a v).admitsBelow q := by
  rw [holds_iff, Bound.admitsBelow_iff, LinExpr.eval_update, LinExpr.coeff_of_coeff? h]
  show _ ↔ q < -((c.expr.without x).eval v) / a ∨
    c.strict = false ∧ q = -((c.expr.without x).eval v) / a
  cases c.strict with
  | true =>
    rw [if_pos rfl, lt_div_iff₀ ha]
    constructor
    · exact fun h => Or.inl (by linarith)
    · rintro (h | ⟨h, -⟩)
      · linarith
      · cases h
  | false =>
    have hle : q < -((c.expr.without x).eval v) / a ∨ false = false ∧
        q = -((c.expr.without x).eval v) / a ↔ q ≤ -((c.expr.without x).eval v) / a := by
      rw [le_iff_lt_or_eq]
      simp
    rw [hle, if_neg (by simp), le_div_iff₀ ha]
    constructor <;> intro h <;> linarith

/-- With a negative coefficient a constraint is a lower bound. -/
theorem holds_update_iff_admitsAbove {c : Constraint} {x : String} {a : Rat}
    (h : c.expr.coeff? x = some a) (ha : a < 0) (v : String → Rat) (q : Rat) :
    c.holds (Function.update v x q) ↔ (c.boundOn x a v).admitsAbove q := by
  rw [holds_iff, Bound.admitsAbove_iff, LinExpr.eval_update, LinExpr.coeff_of_coeff? h]
  show _ ↔ -((c.expr.without x).eval v) / a < q ∨
    c.strict = false ∧ q = -((c.expr.without x).eval v) / a
  cases c.strict with
  | true =>
    rw [if_pos rfl, div_lt_iff_of_neg ha]
    constructor
    · exact fun h => Or.inl (by linarith)
    · rintro (h | ⟨h, -⟩)
      · linarith
      · cases h
  | false =>
    have hle : -((c.expr.without x).eval v) / a < q ∨ false = false ∧
        q = -((c.expr.without x).eval v) / a ↔ -((c.expr.without x).eval v) / a ≤ q := by
      rw [le_iff_lt_or_eq, eq_comm (a := q)]
      simp
    rw [hle, if_neg (by simp), div_le_iff_of_neg ha]
    constructor <;> intro h <;> linarith

end Constraint

namespace Linear

open Constraint

/-! ### The constraints that remain -/

theorem mem_uppers {x : String} {cs : List Constraint} {up : Rat × Constraint} :
    up ∈ uppers x cs ↔ up.2 ∈ cs ∧ up.2.expr.coeff? x = some up.1 ∧ 0 < up.1 := by
  obtain ⟨a, c⟩ := up
  unfold uppers
  rw [List.mem_filterMap]
  constructor
  · rintro ⟨d, hd, hsome⟩
    split at hsome
    · next b hb =>
      split at hsome
      · next hpos =>
        cases hsome
        exact ⟨hd, hb, hpos⟩
      · cases hsome
    · cases hsome
  · rintro ⟨hc, ha, hpos⟩
    exact ⟨c, hc, by simp only [ha, if_pos hpos]⟩

theorem mem_lowers {x : String} {cs : List Constraint} {low : Rat × Constraint} :
    low ∈ lowers x cs ↔ low.2 ∈ cs ∧ low.2.expr.coeff? x = some low.1 ∧ ¬ 0 < low.1 := by
  obtain ⟨a, c⟩ := low
  unfold lowers
  rw [List.mem_filterMap]
  constructor
  · rintro ⟨d, hd, hsome⟩
    split at hsome
    · next b hb =>
      split at hsome
      · cases hsome
      · next hpos =>
        cases hsome
        exact ⟨hd, hb, hpos⟩
    · cases hsome
  · rintro ⟨hc, ha, hpos⟩
    exact ⟨c, hc, by simp only [ha, if_neg hpos]⟩

theorem mem_eliminate {x : String} {cs : List Constraint} {c : Constraint} :
    c ∈ eliminate x cs ↔
      (c ∈ cs ∧ c.expr.coeff? x = none) ∨
        ∃ up ∈ uppers x cs, ∃ low ∈ lowers x cs, c = resolvent up low := by
  unfold eliminate free
  rw [List.mem_append, List.mem_filter, Option.isNone_iff_eq_none, List.mem_flatMap]
  simp only [List.mem_map, eq_comm]

/-- In a reduced expression a coefficient that is not positive is negative. -/
theorem neg_of_mem_lowers {x : String} {cs : List Constraint} (hcs : AllReduced cs)
    {low : Rat × Constraint} (h : low ∈ lowers x cs) : low.1 < 0 := by
  obtain ⟨hmem, hcoeff, hpos⟩ := mem_lowers.1 h
  refine lt_of_le_of_ne (not_lt.1 hpos) fun hzero => hcs low.2 hmem x ?_
  rw [hcoeff, hzero]

/-- The combination of two expressions behind a resolvent. -/
theorem reduced_combination {up : Rat × Constraint} (hup : up.2.expr.Reduced)
    (low : Rat × Constraint) :
    (up.2.expr.scaled (-low.1) + low.2.expr.scaled up.1).Reduced :=
  (hup.scaled _).add _

theorem reduced_resolvent {up low : Rat × Constraint} (hup : up.2.expr.Reduced) :
    (resolvent up low).expr.Reduced :=
  (reduced_combination hup low).normalized

/-- The symbolic constant is cancelled in a resolvent, and no other one comes up. -/
theorem vars_resolvent {up low : Rat × Constraint} {x : String} (hup : up.2.expr.Reduced)
    (ha : up.2.expr.coeff? x = some up.1) (hb : low.2.expr.coeff? x = some low.1) {y : String}
    (h : y ∈ (resolvent up low).expr.vars) :
    y ≠ x ∧ (y ∈ up.2.expr.vars ∨ y ∈ low.2.expr.vars) := by
  have hred := reduced_combination hup low
  have hmem : y ∈ (up.2.expr.scaled (-low.1) + low.2.expr.scaled up.1).vars :=
    (LinExpr.vars_normalized hred).1 h
  constructor
  · rintro rfl
    rw [hred.mem_vars_iff, LinExpr.coeff_add, LinExpr.coeff_scaled, LinExpr.coeff_scaled,
      LinExpr.coeff_of_coeff? ha, LinExpr.coeff_of_coeff? hb] at hmem
    exact hmem (by ring)
  · exact (LinExpr.vars_add (hup.scaled _) hmem).imp LinExpr.vars_scaled LinExpr.vars_scaled

/-- A resolvent holds exactly where its two constraints leave room for a value of the symbolic
constant. -/
theorem holds_resolvent_iff {up low : Rat × Constraint} {x : String} (hup : up.2.expr.Reduced)
    (ha : up.2.expr.coeff? x = some up.1) (hapos : 0 < up.1)
    (hb : low.2.expr.coeff? x = some low.1) (hbneg : low.1 < 0) (v : String → Rat) :
    (resolvent up low).holds v ↔
      Bound.Meets (low.2.boundOn x low.1 v) (up.2.boundOn x up.1 v) := by
  obtain ⟨a, c⟩ := up
  obtain ⟨b, d⟩ := low
  dsimp only at *
  unfold resolvent
  rw [holds_normalized (reduced_combination hup (b, d)), holds_iff]
  have hvalue : (c.expr.scaled (-b) + d.expr.scaled a).eval v =
      -b * (c.expr.without x).eval v + a * (d.expr.without x).eval v := by
    rw [LinExpr.eval_add, LinExpr.eval_scaled, LinExpr.eval_scaled,
      LinExpr.eval_eq_coeff_mul_add c.expr x, LinExpr.eval_eq_coeff_mul_add d.expr x,
      LinExpr.coeff_of_coeff? ha, LinExpr.coeff_of_coeff? hb]
    ring
  dsimp only
  rw [hvalue]
  generalize hr : (c.expr.without x).eval v = r
  generalize hs : (d.expr.without x).eval v = s
  -- dividing by the coefficients turns the sum into a comparison of the two bounds
  have hlt : -b * r + a * s < 0 ↔ -s / b < -r / a := by
    rw [lt_div_iff₀ hapos, div_mul_eq_mul_div, div_lt_iff_of_neg hbneg]
    constructor <;> intro h <;> linarith
  have heq : -b * r + a * s = 0 ↔ -s / b = -r / a := by
    rw [div_eq_div_iff (ne_of_lt hbneg) (ne_of_gt hapos)]
    constructor <;> intro h <;> linarith
  unfold Bound.Meets boundOn
  dsimp only
  rw [hr, hs, le_iff_lt_or_eq, hlt, heq]
  cases c.strict <;> cases d.strict <;> simp

theorem allReduced_eliminate {x : String} {cs : List Constraint} (h : AllReduced cs) :
    AllReduced (eliminate x cs) := by
  intro c hc
  rcases mem_eliminate.1 hc with ⟨hmem, -⟩ | ⟨up, hup, low, -, rfl⟩
  · exact h c hmem
  · exact reduced_resolvent (h up.2 (mem_uppers.1 hup).1)

/-- What remains has no other symbolic constants than before, and not the one eliminated. -/
theorem vars_eliminate {x : String} {cs : List Constraint} (h : AllReduced cs) {c : Constraint}
    (hc : c ∈ eliminate x cs) {y : String} (hy : y ∈ c.expr.vars) :
    y ≠ x ∧ ∃ d ∈ cs, y ∈ d.expr.vars := by
  rcases mem_eliminate.1 hc with ⟨hmem, hfree⟩ | ⟨up, hup, low, hlow, rfl⟩
  · refine ⟨?_, c, hmem, hy⟩
    rintro rfl
    rw [LinExpr.mem_vars_iff, hfree] at hy
    cases hy
  · obtain ⟨hupmem, hupcoeff, -⟩ := mem_uppers.1 hup
    obtain ⟨hlowmem, hlowcoeff, -⟩ := mem_lowers.1 hlow
    obtain ⟨hne, hvars | hvars⟩ := vars_resolvent (h _ hupmem) hupcoeff hlowcoeff hy
    · exact ⟨hne, up.2, hupmem, hvars⟩
    · exact ⟨hne, low.2, hlowmem, hvars⟩

/-! ### One step, forward -/

/-- What holds before a symbolic constant is eliminated holds afterwards. -/
theorem allHold_eliminate {x : String} {cs : List Constraint} (hred : AllReduced cs)
    {v : String → Rat} (h : AllHold cs v) : AllHold (eliminate x cs) v := by
  intro c hc
  rcases mem_eliminate.1 hc with ⟨hmem, -⟩ | ⟨up, hup, low, hlow, rfl⟩
  · exact h c hmem
  · obtain ⟨hupmem, hupcoeff, hpos⟩ := mem_uppers.1 hup
    obtain ⟨hlowmem, hlowcoeff, -⟩ := mem_lowers.1 hlow
    have hneg := neg_of_mem_lowers hred hlow
    have hself : Function.update v x (v x) = v := Function.update_eq_self x v
    have habove := (holds_update_iff_admitsAbove hlowcoeff hneg v (v x)).1
      (by rw [hself]; exact h low.2 hlowmem)
    have hbelow := (holds_update_iff_admitsBelow hupcoeff hpos v (v x)).1
      (by rw [hself]; exact h up.2 hupmem)
    exact (holds_resolvent_iff (hred _ hupmem) hupcoeff hpos hlowcoeff hneg v).2
      (Bound.Meets.of_admits habove hbelow)

/-! ### One step, backward -/

namespace Elimination

variable {x : String} {values : OrderedMap Rat}

/-- The numbers left in an interval when constraints have cut it off. -/
theorem admits_foldl_cut {cs : List Constraint} (hred : AllReduced cs) (i : Interval) (q : Rat) :
    (cs.foldl (cut x values) i).admits q ↔
      i.admits q ∧ ∀ c ∈ cs, c.expr.coeff? x ≠ none →
        c.holds (Function.update (values.getD · 0) x q) := by
  induction cs generalizing i with
  | nil => simp
  | cons c cs ih =>
    have hstep : (cut x values i c).admits q ↔ i.admits q ∧
        (c.expr.coeff? x ≠ none → c.holds (Function.update (values.getD · 0) x q)) := by
      unfold cut
      cases hcoeff : c.expr.coeff? x with
      | none => simp
      | some a =>
        dsimp only
        split
        · next hpos =>
          rw [Interval.admits_reduce, holds_update_iff_admitsBelow hcoeff hpos]
          simp [boundOn]
        · next hpos =>
          have hne : a ≠ 0 := fun hzero => hred c List.mem_cons_self x (by rw [hcoeff, hzero])
          have hneg : a < 0 := lt_of_le_of_ne (not_lt.1 hpos) hne
          rw [Interval.admits_raise, holds_update_iff_admitsAbove hcoeff hneg]
          simp [boundOn]
    rw [List.foldl_cons, ih fun d hd => hred d (List.mem_cons_of_mem c hd), hstep,
      List.forall_mem_cons, and_assoc]

/-- A bound of an interval that constraints have cut off was there before, or it is made by one of
them, if every constraint keeps it or makes it. -/
theorem of_foldl_cut (bound : Interval → Option Bound) (makes : Constraint → Bound → Prop)
    (hcut : ∀ i c l, bound (cut x values i c) = some l → bound i = some l ∨ makes c l)
    {cs : List Constraint} {i : Interval} {l : Bound}
    (h : bound (cs.foldl (cut x values) i) = some l) :
    bound i = some l ∨ ∃ c ∈ cs, makes c l := by
  induction cs generalizing i with
  | nil => exact Or.inl h
  | cons c cs ih =>
    rcases ih h with hfirst | ⟨d, hd, hmakes⟩
    · refine (hcut i c l hfirst).imp id fun hmakes => ⟨c, List.mem_cons_self, hmakes⟩
    · exact Or.inr ⟨d, List.mem_cons_of_mem c hd, hmakes⟩

/-- The lower bound of an interval that constraints have cut off comes from one of them. -/
theorem lower_foldl_cut {cs : List Constraint} {i : Interval} {l : Bound}
    (h : (cs.foldl (cut x values) i).lower = some l) :
    i.lower = some l ∨ ∃ low ∈ lowers x cs, l = low.2.boundOn x low.1 (values.getD · 0) := by
  have hfrom := of_foldl_cut Interval.lower (fun c l => ∃ a,
    c.expr.coeff? x = some a ∧ ¬ 0 < a ∧ l = c.boundOn x a (values.getD · 0)) (fun i c l h => ?_) h
  · exact hfrom.imp id fun ⟨c, hc, a, ha, hpos, hl⟩ => ⟨(a, c), mem_lowers.2 ⟨hc, ha, hpos⟩, hl⟩
  unfold cut at h
  split at h
  · exact Or.inl h
  · next a ha =>
    dsimp only at h
    split at h
    · exact Or.inl h
    · next hpos => exact (Interval.lower_raise h).imp id fun hl => ⟨a, ha, hpos, hl⟩

/-- The upper bound of an interval that constraints have cut off comes from one of them. -/
theorem upper_foldl_cut {cs : List Constraint} {i : Interval} {u : Bound}
    (h : (cs.foldl (cut x values) i).upper = some u) :
    i.upper = some u ∨ ∃ up ∈ uppers x cs, u = up.2.boundOn x up.1 (values.getD · 0) := by
  have hfrom := of_foldl_cut Interval.upper (fun c u => ∃ a,
    c.expr.coeff? x = some a ∧ 0 < a ∧ u = c.boundOn x a (values.getD · 0)) (fun i c u h => ?_) h
  · exact hfrom.imp id fun ⟨c, hc, a, ha, hpos, hu⟩ => ⟨(a, c), mem_uppers.2 ⟨hc, ha, hpos⟩, hu⟩
  unfold cut at h
  split at h
  · exact Or.inl h
  · next a ha =>
    dsimp only at h
    split at h
    · next hpos => exact (Interval.upper_reduce h).imp id fun hu => ⟨a, ha, hpos, hu⟩
    · exact Or.inl h

/-- If the constraints that remain hold, the interval on the way back is not empty: its bounds
come from two constraints, and the resolvent of these is among what remains. -/
theorem consistent_interval {cs : List Constraint} (hred : AllReduced cs)
    (h : AllHold (eliminate x cs) (values.getD · 0)) :
    (interval ⟨x, cs⟩ values).Consistent := by
  intro l u hl hu
  rcases lower_foldl_cut hl with hl | ⟨low, hlow, rfl⟩
  · cases hl
  rcases upper_foldl_cut hu with hu | ⟨up, hup, rfl⟩
  · cases hu
  obtain ⟨hupmem, hupcoeff, hpos⟩ := mem_uppers.1 hup
  obtain ⟨-, hlowcoeff, -⟩ := mem_lowers.1 hlow
  exact (holds_resolvent_iff (hred _ hupmem) hupcoeff hpos hlowcoeff
    (neg_of_mem_lowers hred hlow) _).1 (h _ (mem_eliminate.2 (Or.inr ⟨up, hup, low, hlow, rfl⟩)))

/-- The value chosen on the way back makes all constraints of a stage hold. -/
theorem allHold_update_pick {cs : List Constraint} (hred : AllReduced cs)
    (h : AllHold (eliminate x cs) (values.getD · 0)) :
    AllHold cs (Function.update (values.getD · 0) x (interval ⟨x, cs⟩ values).pick) := by
  have hadmits := Interval.admits_pick (consistent_interval hred h)
  intro c hc
  cases hcoeff : c.expr.coeff? x with
  | none =>
    rw [holds_update_of_free hcoeff]
    exact h c (mem_eliminate.2 (Or.inl ⟨hc, hcoeff⟩))
  | some a =>
    refine ((admits_foldl_cut hred _ _).1 hadmits).2 c hc ?_
    rw [hcoeff]
    exact Option.some_ne_none a

end Elimination

end Linear

/-! ### Lists without repetitions -/

namespace Constraint

theorem mem_skipRepeats {c : Constraint} {cs : List Constraint} :
    c ∈ skipRepeats cs ↔ c ∈ cs := by
  fun_induction skipRepeats cs with
  | case1 => exact Iff.rfl
  | case2 d => exact Iff.rfl
  | case3 d rest ih =>
    rw [ih]
    constructor
    · exact List.mem_cons_of_mem d
    · intro h
      rcases List.mem_cons.1 h with rfl | h
      · exact List.mem_cons_self
      · exact h
  | case4 d e rest hne ih => rw [List.mem_cons, ih, ← List.mem_cons]

theorem mem_tidy {c : Constraint} {cs : List Constraint} : c ∈ tidy cs ↔ c ∈ cs := by
  unfold tidy sort
  rw [mem_skipRepeats, List.mem_mergeSort]

end Constraint

namespace Linear

open Constraint

namespace Elimination

theorem mem_pending {c : Constraint} {cs : List Constraint} :
    c ∈ pending cs ↔ c ∈ cs ∧ c.isGround = false := by
  unfold pending
  rw [mem_tidy, List.mem_filter, Bool.not_eq_true']

theorem allReduced_pending {cs : List Constraint} (h : AllReduced cs) : AllReduced (pending cs) :=
  fun c hc => h c (mem_pending.1 hc).1

/-- Constraints without symbolic constants can be left out if none of them is false. -/
theorem allHold_pending_iff {cs : List Constraint} (h : cs.any isViolated = false)
    (v : String → Rat) : AllHold (pending cs) v ↔ AllHold cs v := by
  constructor
  · intro hall c hc
    cases hground : c.isGround with
    | false => exact hall c (mem_pending.2 ⟨hc, hground⟩)
    | true =>
      have hviolated : c.isViolated = false := by
        simpa using List.any_eq_false.1 h c hc
      rw [holds_of_isGround hground, hviolated]
      rfl
  · exact fun hall c hc => hall c (mem_pending.1 hc).1

theorem mem_namesOf {cs : List Constraint} {x : String} :
    x ∈ namesOf cs ↔ ∃ c ∈ cs, x ∈ c.expr.vars := by
  unfold namesOf
  rw [NameSet.mem_names_ofList, List.mem_flatMap]

/-! ### The whole elimination -/

/-- An elimination that ends in a solution has found values for which the constraints hold, and
any other one shows that there are none. -/
def Settles (cs : List Constraint) : Elimination → Prop
  | .solved stages => AllHold cs ((solution stages).getD · 0)
  | _ => ∀ v, ¬ AllHold cs v

/-- What settles some constraints settles others that hold at the same places. -/
theorem Settles.congr {cs ds : List Constraint} (h : ∀ v, AllHold cs v ↔ AllHold ds v) :
    ∀ {e : Elimination}, Settles cs e → Settles ds e
  | .solved _, hsettles => (h _).1 hsettles
  | .violated _, hsettles => fun v hall => hsettles v ((h v).2 hall)
  | .contradiction _, hsettles => fun v hall => hsettles v ((h v).2 hall)

/-- Constraints that are ready for the elimination of the constants in a list: none of them is
without symbolic constants, and they have no others than these. -/
structure Ready (xs : List String) (cs : List Constraint) : Prop where
  reduced : AllReduced cs
  notGround : ∀ c ∈ cs, c.isGround = false
  names : ∀ c ∈ cs, ∀ x ∈ c.expr.vars, x ∈ xs

theorem Ready.next {x : String} {xs : List String} {cs : List Constraint}
    (h : Ready (x :: xs) cs) : Ready xs (pending (eliminate x cs)) where
  reduced := allReduced_pending (allReduced_eliminate h.reduced)
  notGround c hc := (mem_pending.1 hc).2
  names c hc y hy := by
    obtain ⟨hne, d, hd, hyd⟩ := vars_eliminate h.reduced (mem_pending.1 hc).1 hy
    exact List.mem_of_ne_of_mem hne (h.names d hd y hyd)

/-- An elimination begins with the normal forms of the constraints that have symbolic constants. -/
theorem Ready.first {cs : List Constraint} (h : AllReduced cs) :
    Ready (namesOf cs) (pending (cs.map normalized)) where
  reduced := allReduced_pending h.normalized
  notGround c hc := (mem_pending.1 hc).2
  names d hd x hx := by
    obtain ⟨c, hc, rfl⟩ := List.mem_map.1 (mem_pending.1 hd).1
    exact mem_namesOf.2 ⟨c, hc, (LinExpr.vars_normalized (h c hc)).1 hx⟩

theorem getD_insert (values : OrderedMap Rat) (x : String) (q : Rat) :
    ((values.insert x q).getD · 0) = Function.update (values.getD · 0) x q := by
  funext y
  rw [OrderedMap.getD, OrderedMap.get?_insert, Function.update_apply]
  split
  · rfl
  · rfl

/-- By induction on the constants still to be eliminated: a solution of what remains is extended
by the value chosen, and a contradiction in what remains is one in what stood before. -/
theorem settles_run {xs : List String} {cs : List Constraint} (h : Ready xs cs) :
    Settles cs (run xs cs) := by
  induction xs generalizing cs with
  | nil =>
    -- a constraint without symbolic constants would be ground
    intro c hc
    have hground : c.expr.isConstant :=
      LinExpr.isConstant_iff.2 fun x hx => List.not_mem_nil (h.names c hc x hx)
    exact absurd hground (Bool.not_eq_true _ ▸ h.notGround c hc)
  | cons x xs ih =>
    unfold run
    dsimp only
    cases hviolated : (eliminate x cs).any isViolated with
    | true =>
      obtain ⟨c, hc, hfalse⟩ := List.any_eq_true.1 hviolated
      exact fun v hall =>
        not_allHold_of_isViolated hc hfalse v (allHold_eliminate h.reduced hall)
    | false =>
      rw [if_neg (by simp)]
      have hnext := ih h.next
      have refuted : (∀ v, ¬ AllHold (pending (eliminate x cs)) v) → ∀ v, ¬ AllHold cs v :=
        fun hnone v hall => hnone v
          ((allHold_pending_iff hviolated v).2 (allHold_eliminate h.reduced hall))
      cases hrun : run xs (pending (eliminate x cs)) with
      | solved stages =>
        rw [hrun] at hnext
        have hrest := (allHold_pending_iff hviolated _).1 hnext
        show AllHold cs (((solution stages).insert x _).getD · 0)
        rw [getD_insert]
        exact allHold_update_pick h.reduced hrest
      | violated c =>
        rw [hrun] at hnext
        exact refuted hnext
      | contradiction y =>
        rw [hrun] at hnext
        exact refuted hnext

/-- Whether constraints over reduced expressions have a common solution is decided right. -/
theorem settles_ofConstraints {cs : List Constraint} (h : AllReduced cs) :
    Settles cs (ofConstraints cs) := by
  unfold ofConstraints
  cases hfind : cs.find? isViolated with
  | some c =>
    have hviolated : c.isViolated := List.find?_some hfind
    exact fun v => not_allHold_of_isViolated (List.mem_of_find?_eq_some hfind) hviolated v
  | none =>
    have hnone : cs.any isViolated = false := List.any_eq_false.2 (List.find?_eq_none.1 hfind)
    have hpending := allHold_pending_iff (any_isViolated_normalized h hnone)
    exact (settles_run (Ready.first h)).congr fun v =>
      (hpending v).trans (allHold_normalized_iff h v)

/-! ### The names of a solution -/

/-- The stages of an elimination have the names of the constants to be eliminated. -/
theorem names_of_run {xs : List String} {cs : List Constraint} {stages : List Stage}
    (h : run xs cs = .solved stages) : stages.map Stage.name = xs := by
  induction xs generalizing cs stages with
  | nil =>
    cases h
    rfl
  | cons x xs ih =>
    unfold run at h
    dsimp only at h
    split at h
    · cases h
    · split at h
      · next later hlater =>
        cases h
        rw [List.map_cons, ih hlater]
      · next hother => exact absurd h (hother stages)

theorem isSome_solution_iff {stages : List Stage} {x : String} :
    ((solution stages).get? x).isSome ↔ x ∈ stages.map Stage.name := by
  induction stages with
  | nil => simp [solution, OrderedMap.get?_empty, EmptyCollection.emptyCollection]
  | cons s later ih =>
    unfold solution
    dsimp only
    rw [OrderedMap.get?_insert, List.map_cons, List.mem_cons]
    split
    · next heq => simp [heq]
    · next hne => simp [hne, ih]

/-- A solution has values for the symbolic constants of the constraints, and for no others. -/
theorem isSome_solution_of_solved {cs : List Constraint} {stages : List Stage}
    (h : ofConstraints cs = .solved stages) {x : String} :
    ((solution stages).get? x).isSome ↔ ∃ c ∈ cs, x ∈ c.expr.vars := by
  unfold ofConstraints at h
  split at h
  · cases h
  · rw [isSome_solution_iff, names_of_run h, mem_namesOf]

end Elimination

end Linear

end BrakeCheck
