import BrakeCheck.Proofs.HalfSpace
import BrakeCheck.Proofs.Sorting
import Mathlib.Data.List.Basic

/-!
# Constraints stated in another way

The same half-spaces can be given in any order, several times, and by any positive multiples of
their expressions.  An elimination reads no more of a list of constraints than whether some
constraint without symbolic constants is false, which symbolic constants occur, and which normal
forms the other constraints have, and these are the same for every restatement.  From there on the
same steps are taken, so the answer is the same, down to the values of a solution.

## Main definitions

* `Linear.Restated` — the lists that state the constraints of another one.
* `Linear.SameSystem` — two lists that an elimination cannot tell apart.

## Main statements

* `Constraint.normalized_scaled` — positive multiples have the same normal form.
* `Linear.SameSystem.check_eq` — the answer depends on the system alone.
* `Linear.check_of_restated` — restating constraints does not change the answer.
-/

namespace BrakeCheck

namespace Constraint

variable {c : Constraint} {factor : Rat}

/-- A constraint with its expression multiplied by a number. -/
def scaled (c : Constraint) (factor : Rat) : Constraint := { c with expr := c.expr.scaled factor }

/-! ### Positive multiples -/

theorem vars_scaled (hfactor : 0 < factor) {x : String} :
    x ∈ (c.scaled factor).expr.vars ↔ x ∈ c.expr.vars := by
  unfold scaled
  rw [LinExpr.mem_vars_iff, LinExpr.mem_vars_iff, LinExpr.coeff?_scaled (ne_of_gt hfactor),
    Option.isSome_map]

theorem isGround_scaled (hfactor : 0 < factor) : (c.scaled factor).isGround = c.isGround := by
  unfold isGround
  rw [Bool.eq_iff_iff, LinExpr.isConstant_iff, LinExpr.isConstant_iff]
  exact forall_congr' fun x => not_congr (vars_scaled hfactor)

theorem holds_scaled (hfactor : 0 < factor) (v : String → Rat) :
    (c.scaled factor).holds v = c.holds v :=
  holds_of_multiple (c := c) (d := c.scaled factor) rfl hfactor
    (LinExpr.eval_scaled c.expr factor v)

/-- A positive multiple of a constraint without symbolic constants is false where the constraint
is. -/
theorem isViolated_scaled (hfactor : 0 < factor) : (c.scaled factor).isViolated = c.isViolated :=
  isViolated_eq_of_holds (isGround_scaled hfactor) (holds_scaled hfactor)

/-- Positive multiples of a constraint with symbolic constants have the same normal form. -/
theorem normalized_scaled (hc : c.expr.Reduced) (hground : c.isGround = false)
    (hfactor : 0 < factor) : (c.scaled factor).normalized = c.normalized := by
  unfold normalized scaled
  rw [LinExpr.normalized_scaled hc hground hfactor]

end Constraint

namespace Linear

open Constraint

variable {cs ds es : List Constraint}

/-- The lists that state the constraints of another one: members may be moved, repeated, and each
multiplied by a positive number of its own, in any order and any number of times. -/
inductive Restated (cs : List Constraint) : List Constraint → Prop where
  | same : Restated cs cs
  | permuted {ds es : List Constraint} (h : Restated cs ds) (hperm : ds.Perm es) : Restated cs es
  | repeated {ds : List Constraint} {d : Constraint} (h : Restated cs ds) (hd : d ∈ ds) :
      Restated cs (d :: ds)
  | scaled {ds es : List Constraint} (h : Restated cs ds)
      (hscale : List.Forall₂ (fun d e => ∃ factor : Rat, 0 < factor ∧ e = d.scaled factor) ds es) :
      Restated cs es

/-- Two lists of constraints that an elimination cannot tell apart. -/
structure SameSystem (cs ds : List Constraint) : Prop where
  /-- Some constraint without symbolic constants is false in both or in neither. -/
  violated : (∃ c ∈ cs, c.isViolated) ↔ ∃ d ∈ ds, d.isViolated
  /-- The same symbolic constants occur. -/
  names : ∀ x, (∃ c ∈ cs, x ∈ c.expr.vars) ↔ ∃ d ∈ ds, x ∈ d.expr.vars
  /-- The constraints with symbolic constants have the same normal forms. -/
  normalForms : ∀ n, (n ∈ cs.map normalized ∧ n.isGround = false) ↔
    (n ∈ ds.map normalized ∧ n.isGround = false)

/-! ### The answer depends on the system -/

namespace SameSystem

theorem trans (h : SameSystem cs ds) (h' : SameSystem ds es) : SameSystem cs es where
  violated := h.violated.trans h'.violated
  names x := (h.names x).trans (h'.names x)
  normalForms n := (h.normalForms n).trans (h'.normalForms n)

theorem namesOf_eq (h : SameSystem cs ds) : Elimination.namesOf cs = Elimination.namesOf ds := by
  refine congrArg OrderedMap.names (NameSet.eq_of_names fun x => ?_)
  exact Elimination.mem_namesOf.trans ((h.names x).trans Elimination.mem_namesOf.symm)

theorem pending_eq (h : SameSystem cs ds) :
    Elimination.pending (cs.map normalized) = Elimination.pending (ds.map normalized) := by
  refine tidy_congr fun n => ?_
  rw [List.mem_filter, List.mem_filter, Bool.not_eq_true']
  exact h.normalForms n

/-- What an elimination cannot tell apart has the same answer. -/
theorem check_eq (h : SameSystem cs ds) : check cs = check ds := by
  unfold check Elimination.ofConstraints
  cases hcs : cs.find? isViolated with
  | none =>
    have hds : ds.find? isViolated = none := by
      refine List.find?_eq_none.2 fun d hd hviolated => ?_
      obtain ⟨c, hc, hviolated⟩ := h.violated.2 ⟨d, hd, hviolated⟩
      exact List.find?_eq_none.1 hcs c hc hviolated
    rw [hds, h.namesOf_eq, h.pending_eq]
  | some c =>
    obtain ⟨d, hd, hviolated⟩ :=
      h.violated.1 ⟨c, List.mem_of_find?_eq_some hcs, List.find?_some hcs⟩
    obtain ⟨e, he⟩ := Option.isSome_iff_exists.1 (List.find?_isSome.2 ⟨d, hd, hviolated⟩)
    rw [he]
    rfl

/-! ### Restatements have the same system -/

/-- Neither the order of the members nor their number matters. -/
theorem of_mem_iff (h : ∀ c, c ∈ cs ↔ c ∈ ds) : SameSystem cs ds where
  violated := exists_congr fun c => and_congr_left' (h c)
  names _ := exists_congr fun c => and_congr_left' (h c)
  normalForms n := by
    rw [List.mem_map, List.mem_map]
    exact and_congr_left' (exists_congr fun c => and_congr_left' (h c))

/-- A constraint and a positive multiple of it make the same system. -/
theorem cons_scaled {c : Constraint} (hc : c.expr.Reduced) {factor : Rat} (hfactor : 0 < factor)
    (h : SameSystem cs ds) : SameSystem (c :: cs) (c.scaled factor :: ds) where
  violated := by
    rw [List.exists_mem_cons_iff, List.exists_mem_cons_iff, isViolated_scaled hfactor, h.violated]
  names x := by
    rw [List.exists_mem_cons_iff, List.exists_mem_cons_iff, vars_scaled hfactor, h.names]
  normalForms n := by
    rw [List.map_cons, List.map_cons, List.mem_cons, List.mem_cons, or_and_right, or_and_right,
      h.normalForms]
    refine or_congr_left (and_congr_left fun hn => ?_)
    cases hground : c.isGround with
    | false => rw [normalized_scaled hc hground hfactor]
    | true =>
      -- neither of the two normal forms has symbolic constants
      have hnormalized := (isGround_normalized hc).trans hground
      have hscaled : (c.scaled factor).normalized.isGround = true := by
        rw [isGround_normalized (c := c.scaled factor) (LinExpr.Reduced.scaled hc factor),
          isGround_scaled hfactor, hground]
      constructor
      · rintro rfl
        rw [hnormalized] at hn
        cases hn
      · rintro rfl
        rw [hscaled] at hn
        cases hn

/-- Constraints and positive multiples of them, member by member, make the same system. -/
theorem of_forall₂ (hreduced : AllReduced cs)
    (h : List.Forall₂ (fun c d => ∃ factor : Rat, 0 < factor ∧ d = c.scaled factor) cs ds) :
    SameSystem cs ds := by
  induction h with
  | nil => exact of_mem_iff fun _ => Iff.rfl
  | @cons c _ cs ds hfirst _ ih =>
    obtain ⟨factor, hfactor, rfl⟩ := hfirst
    obtain ⟨hc, hcs⟩ := List.forall_mem_cons.1 hreduced
    exact (ih hcs).cons_scaled hc hfactor

end SameSystem

theorem allReduced_of_forall₂ (hreduced : AllReduced cs)
    (h : List.Forall₂ (fun c d => ∃ factor : Rat, 0 < factor ∧ d = c.scaled factor) cs ds) :
    AllReduced ds := by
  induction h with
  | nil => exact hreduced
  | cons hfirst _ ih =>
    obtain ⟨factor, -, rfl⟩ := hfirst
    obtain ⟨hc, hcs⟩ := List.forall_mem_cons.1 hreduced
    exact List.forall_mem_cons.2 ⟨LinExpr.Reduced.scaled hc factor, ih hcs⟩

/-- By induction on the steps of a restatement: every step keeps the system, and it keeps the
expressions reduced, as the next step needs them. -/
theorem Restated.sameSystem (hreduced : AllReduced cs) (h : Restated cs ds) :
    AllReduced ds ∧ SameSystem cs ds := by
  induction h with
  | same => exact ⟨hreduced, .of_mem_iff fun _ => Iff.rfl⟩
  | permuted _ hperm ih =>
    exact ⟨fun e he => ih.1 e (hperm.mem_iff.2 he), ih.2.trans (.of_mem_iff fun _ => hperm.mem_iff)⟩
  | repeated _ hd ih =>
    refine ⟨List.forall_mem_cons.2 ⟨ih.1 _ hd, ih.1⟩, ih.2.trans (.of_mem_iff fun e => ?_)⟩
    rw [List.mem_cons]
    exact (or_iff_right_of_imp fun heq => heq ▸ hd).symm
  | scaled _ hscale ih =>
    exact ⟨allReduced_of_forall₂ ih.1 hscale, ih.2.trans (.of_forall₂ ih.1 hscale)⟩

/-- The answer depends on the half-spaces alone.  Whatever the order of the constraints is, however
often each of them is repeated, and whatever positive numbers their expressions are multiplied by,
the constraints are infeasible in the same cases, and feasible with the same solution. -/
theorem check_of_restated (hbuilt : ∀ c ∈ cs, c.expr.Built) (h : Restated cs ds) :
    check ds = check cs :=
  (h.sameSystem fun c hc => (hbuilt c hc).reduced).2.check_eq.symm

/-- The constraints `x < y` and `2 y ≤ 1`, turned around, with a copy of the second one and with
three different factors. -/
theorem check_of_restated_three_factors :
    check [.ltZero ((LinExpr.var "x" - .var "y").scaled 3),
        .leZero (((LinExpr.var "y").scaled 2 - .const 1).scaled (1 / 2)),
        .leZero (((LinExpr.var "y").scaled 2 - .const 1).scaled 5)] =
      check [.leZero ((LinExpr.var "y").scaled 2 - .const 1), .ltZero (.var "x" - .var "y")] := by
  have hbuilt : ∀ c ∈ [Constraint.leZero ((LinExpr.var "y").scaled 2 - .const 1),
      .ltZero (.var "x" - .var "y")], c.expr.Built := by
    simp only [List.forall_mem_cons, List.not_mem_nil, false_implies, implies_true, and_true]
    exact ⟨.sub (.scaled (.var _) _) (.const _), .sub (.var _) (.var _)⟩
  refine check_of_restated hbuilt (.scaled (.permuted (.repeated .same List.mem_cons_self)
    (List.reverse_perm _).symm) ?_)
  exact .cons ⟨3, by norm_num, rfl⟩ (.cons ⟨1 / 2, by norm_num, rfl⟩
    (.cons ⟨5, by norm_num, rfl⟩ .nil))

end Linear

end BrakeCheck
