import BrakeCheck.Proofs.Elimination

/-!
# Constraints in ascending order

The comparison of constraints is a linear order: by the coefficients of the expressions, entry by
entry and name before number, then by the constant terms, then by strictness.  So a list of
constraints has one ascending form without repetitions, whatever order its members stand in and
however often they are repeated.

## Main statements

* `Constraint.le_trans`, `Constraint.le_total`, `Constraint.le_antisymm` — the linear order.
* `Constraint.tidy_congr` — the ascending form depends on the members alone.
-/

namespace BrakeCheck

/-! ### Comparing by parts -/

/-- A comparison of values read off the things compared. -/
theorem transCmp_on {α β : Type} (cmp : β → β → Ordering) [Std.TransCmp cmp] (f : α → β) :
    Std.TransCmp fun a b => cmp (f a) (f b) where
  eq_swap := Std.OrientedCmp.eq_swap
  isLE_trans := Std.TransCmp.isLE_trans

namespace LinExpr

/-- Entries are compared by their names, then by their numbers. -/
def compareEntry : String × Rat → String × Rat → Ordering :=
  compareLex (compareOn Prod.fst) (compareOn Prod.snd)

instance : Std.TransCmp compareEntry :=
  inferInstanceAs (Std.TransCmp (compareLex _ _))

theorem eq_of_compareEntry {d e : String × Rat} (h : compareEntry d e = .eq) : d = e := by
  obtain ⟨hname, hnumber⟩ := Ordering.then_eq_eq.1 h
  exact Prod.ext (Std.LawfulEqCmp.eq_of_compare hname) (Std.LawfulEqCmp.eq_of_compare hnumber)

instance : Std.LawfulEqCmp compareEntry where
  eq_of_compare := eq_of_compareEntry

/-- Coefficients are compared like words over entries. -/
theorem compareCoeffs_eq : compareCoeffs = List.compareLex compareEntry := by
  funext ds es
  fun_induction compareCoeffs ds es with
  | case1 => rfl
  | case2 e es => rfl
  | case3 d ds => rfl
  | case4 x c ds y d es ih =>
    rw [ih, List.compareLex_cons_cons, ← Ordering.then_assoc]
    rfl

instance : Std.TransCmp compareCoeffs := by
  rw [compareCoeffs_eq]
  infer_instance

instance : Std.LawfulEqCmp compareCoeffs := by
  rw [compareCoeffs_eq]
  infer_instance

theorem compare_eq_compareLex : LinExpr.compare =
    compareLex (fun a b => compareCoeffs a.coeffs.toList b.coeffs.toList)
      (compareOn LinExpr.constant) := rfl

instance : Std.TransCmp LinExpr.compare := by
  have hcoeffs : Std.TransCmp fun a b : LinExpr => compareCoeffs a.coeffs.toList b.coeffs.toList :=
    transCmp_on compareCoeffs fun e : LinExpr => e.coeffs.toList
  rw [compare_eq_compareLex]
  infer_instance

theorem eq_of_compare {a b : LinExpr} (h : a.compare b = .eq) : a = b := by
  rw [compare_eq_compareLex] at h
  obtain ⟨hcoeffs, hconstant⟩ := Ordering.then_eq_eq.1 h
  have hentries : a.coeffs.entries = b.coeffs.entries := Std.LawfulEqCmp.eq_of_compare hcoeffs
  have hconstants : a.constant = b.constant := Std.LawfulEqCmp.eq_of_compare hconstant
  obtain ⟨⟨as, has⟩, p⟩ := a
  obtain ⟨⟨bs, hbs⟩, q⟩ := b
  cases hentries
  cases hconstants
  rfl

end LinExpr

namespace Constraint

/-! ### The order of constraints -/

theorem compare_eq_compareLex : Constraint.compare =
    compareLex (fun a b => a.expr.compare b.expr) (compareOn Constraint.strict) := rfl

instance : Std.TransCmp Constraint.compare := by
  have hexpr : Std.TransCmp fun a b : Constraint => a.expr.compare b.expr :=
    transCmp_on LinExpr.compare Constraint.expr
  rw [compare_eq_compareLex]
  infer_instance

theorem eq_of_compare {c d : Constraint} (h : c.compare d = .eq) : c = d := by
  obtain ⟨hexpr, hstrict⟩ := Ordering.then_eq_eq.1 h
  have hexprs : c.expr = d.expr := LinExpr.eq_of_compare hexpr
  have hstricts : c.strict = d.strict := Std.LawfulEqCmp.eq_of_compare hstrict
  obtain ⟨a, s⟩ := c
  obtain ⟨b, t⟩ := d
  cases hexprs
  cases hstricts
  rfl

theorem le_trans (a b c : Constraint) (hab : a.le b) (hbc : b.le c) : a.le c :=
  Std.TransCmp.isLE_trans hab hbc

theorem le_antisymm {a b : Constraint} (hab : a.le b) (hba : b.le a) : a = b :=
  eq_of_compare (Std.OrientedCmp.isLE_antisymm hab hba)

theorem le_total (a b : Constraint) : (a.le b || b.le a) = true := by
  have hswap : b.compare a = (a.compare b).swap := Std.OrientedCmp.eq_swap
  unfold le
  rw [hswap]
  cases a.compare b <;> rfl

/-! ### Ascending forms -/

theorem pairwise_sort (cs : List Constraint) : (sort cs).Pairwise fun a b => a.le b :=
  List.pairwise_mergeSort le_trans le_total cs

/-- Once equal neighbours are dropped, an ascending list has no repetitions left. -/
theorem pairwise_skipRepeats {cs : List Constraint} (h : cs.Pairwise fun a b => a.le b) :
    (skipRepeats cs).Pairwise fun a b => a.le b ∧ a ≠ b := by
  fun_induction skipRepeats cs with
  | case1 => exact .nil
  | case2 c => exact List.pairwise_singleton _ c
  | case3 d rest ih => exact ih (List.pairwise_cons.1 h).2
  | case4 c d rest hne ih =>
    obtain ⟨hc, hrest⟩ := List.pairwise_cons.1 h
    refine List.pairwise_cons.2 ⟨fun e he => ⟨hc e (mem_skipRepeats.1 he), ?_⟩, ih hrest⟩
    -- a later copy of the first member would stand before the second one as well
    rintro rfl
    rcases List.mem_cons.1 (mem_skipRepeats.1 he) with heq | hmem
    · exact hne heq
    · exact hne (le_antisymm (hc d List.mem_cons_self) ((List.pairwise_cons.1 hrest).1 c hmem))

/-- The ascending form of a list of constraints depends on its members alone. -/
theorem tidy_congr {cs ds : List Constraint} (h : ∀ c, c ∈ cs ↔ c ∈ ds) : tidy cs = tidy ds := by
  have hcs := pairwise_skipRepeats (pairwise_sort cs)
  have hds := pairwise_skipRepeats (pairwise_sort ds)
  have hperm : (tidy cs).Perm (tidy ds) :=
    (List.perm_ext_iff_of_nodup (hcs.imp fun h => h.2) (hds.imp fun h => h.2)).2 fun c => by
      exact mem_tidy.trans ((h c).trans mem_tidy.symm)
  exact hperm.eq_of_pairwise (fun a b _ _ hab hba => le_antisymm hab.1 hba.1) hcs hds

end Constraint

end BrakeCheck
