import BrakeCheck.Proofs.Cases

/-!
# The encoding preserves meaning

The function of a formula is true under the assignment that given values of the symbolic constants
make exactly if the formula is.  Terms and formulas are built from each other, so the contracts of
their encodings are proved together, by induction on the syntax.

## Main definitions

* `Skeleton.Reached` — the skeletons that encodings and choices can lead to.

## Main statements

* `Formula.encode_spec` — the contract of the encoding, for every well-formed skeleton.
* `Skeleton.Reached.encode_correct` — for every skeleton that can be reached.
-/

namespace BrakeCheck

open Skeleton

/-! ### Growth -/

mutual

theorem Term.caseSplit_grows (a : Term) : Step.Grows a.caseSplit := by
  cases a with
  | var x => exact Step.Grows.pure _
  | const c => exact Step.Grows.pure _
  | add a b =>
    exact a.caseSplit_grows.bind fun _ => b.caseSplit_grows.bind fun _ => combine_grows _ _ _
  | sub a b =>
    exact a.caseSplit_grows.bind fun _ => b.caseSplit_grows.bind fun _ => combine_grows _ _ _
  | neg a => exact a.caseSplit_grows.bind fun _ => Step.Grows.pure _
  | scale factor a => exact a.caseSplit_grows.bind fun _ => Step.Grows.pure _
  | abs a => exact a.caseSplit_grows.bind fun _ => splitSigns_grows _
  | ite c a b =>
    exact c.encode_grows.bind fun _ => a.caseSplit_grows.bind fun _ =>
      (restrict_grows _ _).bind fun _ => b.caseSplit_grows.bind fun _ =>
        (restrict_grows _ _).bind fun _ => Step.Grows.pure _

theorem Formula.encode_grows (f : Formula) : Step.Grows f.encode := by
  cases f with
  | true => exact Step.Grows.pure _
  | false => exact Step.Grows.pure _
  | compare a r b =>
    exact a.caseSplit_grows.bind fun _ => b.caseSplit_grows.bind fun _ => compareAll_grows _ _ _
  | not f => exact f.encode_grows.bind fun _ => Step.Grows.pure _
  | and fs =>
    exact (Formula.encodeAll_grows fs).bind fun _ =>
      onManager_grows (Manager.conjFrom_grows _ _)
  | or fs =>
    exact (Formula.encodeAll_grows fs).bind fun _ =>
      onManager_grows (Manager.disjFrom_grows _ _)
  | implies f g =>
    exact f.encode_grows.bind fun _ => g.encode_grows.bind fun _ =>
      onManager_grows (Manager.imp_grows _ _)
  | ite c f g =>
    exact c.encode_grows.bind fun _ => f.encode_grows.bind fun _ => g.encode_grows.bind fun _ =>
      onManager_grows (Manager.ite_grows _)

theorem Formula.encodeAll_grows (fs : List Formula) : Step.Grows (Formula.encodeAll fs) := by
  cases fs with
  | nil => exact Step.Grows.pure _
  | cons f fs =>
    exact f.encode_grows.bind fun _ => (Formula.encodeAll_grows fs).bind fun _ =>
      Step.Grows.pure _

end

/-! ### Contracts -/

namespace Skeleton

/-- Cases of which exactly one is meant under all values of the symbolic constants, and its
expression has the value described. -/
structure Resolves (N : String → Prop) (s : Skeleton) (cs : List Case)
    (f : (String → Rat) → Rat) : Prop where
  cases : s.HasCases N cs
  meaning : ∀ v, ∃ e, s.meant v cs = [e] ∧ e.eval v = f v

theorem Resolves.mono {N : String → Prop} {s t : Skeleton} (wf : s.WellFormed N)
    (hext : t.Extends s) {cs : List Case} {f : (String → Rat) → Rat}
    (h : s.Resolves N cs f) : t.Resolves N cs f where
  cases := h.cases.mono hext
  meaning v := by
    rw [meant_of_extends wf hext h.cases]
    exact h.meaning v

/-- One case that is always meant. -/
theorem Resolves.single {N : String → Prop} {s : Skeleton} (wf : s.WellFormed N) {e : LinExpr}
    (he : e.Reduced) (hN : ∀ y ∈ e.vars, N y) : s.Resolves N [⟨.one, e⟩] fun v => e.eval v where
  cases := HasCases.nil.cons wf.manager.has_one he hN
  meaning v := ⟨e, by rw [meant_cons, wf.denotes_one.meaning, if_pos rfl, meant_nil], rfl⟩

theorem Resolves.congr {N : String → Prop} {s : Skeleton} {cs : List Case}
    {f g : (String → Rat) → Rat} (h : s.Resolves N cs f) (hfg : ∀ v, f v = g v) :
    s.Resolves N cs g where
  cases := h.cases
  meaning v := by
    rw [← hfg v]
    exact h.meaning v

/-- An operation on the expressions of all cases. -/
theorem Resolves.map {N : String → Prop} {s : Skeleton} {cs : List Case}
    {f : (String → Rat) → Rat} (h : s.Resolves N cs f) {op : LinExpr → LinExpr} {F : Rat → Rat}
    (hreduced : ∀ e, e.Reduced → (op e).Reduced) (hvars : ∀ e, ∀ y ∈ (op e).vars, y ∈ e.vars)
    (heval : ∀ e v, (op e).eval v = F (e.eval v)) :
    s.Resolves N (cs.map fun c => ⟨c.guard, op c.value⟩) fun v => F (f v) where
  cases := h.cases.map hreduced hvars
  meaning v := by
    obtain ⟨e, he, hev⟩ := h.meaning v
    exact ⟨op e, by rw [meant_map op, he, List.map_singleton], by rw [heval, hev]⟩

/-- An operation on the expressions of two lists of cases. -/
theorem Resolves.combine {N : String → Prop} {s : Skeleton} (wf : s.WellFormed N)
    {as bs : List Case} {f g : (String → Rat) → Rat} (has : s.Resolves N as f)
    (hbs : s.Resolves N bs g) {op : LinExpr → LinExpr → LinExpr} {F : Rat → Rat → Rat}
    (hreduced : ∀ a b : LinExpr, a.Reduced → (op a b).Reduced)
    (hvars : ∀ a b : LinExpr, a.Reduced → ∀ y ∈ (op a b).vars, y ∈ a.vars ∨ y ∈ b.vars)
    (heval : ∀ a b v, (op a b).eval v = F (a.eval v) (b.eval v)) :
    Step.Yields (combine op as bs) s fun cs t => t.WellFormed N ∧
      t.Resolves N cs fun v => F (f v) (g v) := by
  refine (combine_spec wf hreduced hvars has.cases hbs.cases).imp
    fun cs t _ ⟨wft, hcs, hmeant⟩ => ⟨wft, hcs, fun v => ?_⟩
  obtain ⟨d, hd, hdv⟩ := has.meaning v
  obtain ⟨e, he, hev⟩ := hbs.meaning v
  refine ⟨op d e, by rw [hmeant, hd, he]; rfl, ?_⟩
  rw [heval, hdv, hev]

/-- The cases of an absolute value. -/
theorem Resolves.splitSigns {N : String → Prop} {s : Skeleton} (wf : s.WellFormed N)
    {cs : List Case} {f : (String → Rat) → Rat} (h : s.Resolves N cs f) :
    Step.Yields (splitSigns cs) s fun ds t => t.WellFormed N ∧
      t.Resolves N ds fun v => (f v).abs := by
  refine (splitSigns_spec wf h.cases).imp fun ds t _ ⟨wft, hds, hmeant⟩ => ⟨wft, hds, fun v => ?_⟩
  obtain ⟨e, he, hev⟩ := h.meaning v
  refine ⟨if e.eval v < 0 then -e else e, by rw [hmeant, he]; rfl, ?_⟩
  rw [← hev]
  unfold Rat.abs
  by_cases hneg : e.eval v < 0
  · rw [if_pos hneg, if_neg (not_le.2 hneg), LinExpr.eval_neg]
  · rw [if_neg hneg, if_pos (not_lt.1 hneg)]

/-- The function that says how two terms compare. -/
theorem Resolves.compareAll {N : String → Prop} {s : Skeleton} (wf : s.WellFormed N)
    {as bs : List Case} {f g : (String → Rat) → Rat} (has : s.Resolves N as f) (r : Relation)
    (hbs : s.Resolves N bs g) :
    Step.Yields (compareAll r as bs) s fun q t => t.WellFormed N ∧
      t.Denotes q fun v => r.holds (f v) (g v) := by
  refine (compareAll_spec wf r has.cases hbs.cases).imp fun q t _ ⟨wft, hq⟩ =>
    ⟨wft, hq.congr fun v => ?_⟩
  obtain ⟨d, hd, hdv⟩ := has.meaning v
  obtain ⟨e, he, hev⟩ := hbs.meaning v
  rw [hd, he, List.any_cons, List.any_nil, Bool.or_false, List.any_cons, List.any_nil,
    Bool.or_false, hdv, hev]

end Skeleton

variable {N : String → Prop}

mutual

/-- The contract of the cases of a term. -/
theorem Term.caseSplit_spec (a : Term) {s : Skeleton} (wf : s.WellFormed N)
    (hN : ∀ x ∈ a.names, N x) :
    Step.Yields a.caseSplit s fun cs t => t.WellFormed N ∧ t.Resolves N cs fun v => a.eval v := by
  cases a with
  | var x =>
    have hvars : ∀ y ∈ (LinExpr.var x).vars, N y := fun y hy =>
      LinExpr.mem_vars_var.1 hy ▸ hN x List.mem_cons_self
    exact Step.Yields.pure
      ⟨wf, (Resolves.single wf (LinExpr.reduced_var x) hvars).congr (LinExpr.eval_var x)⟩
  | const c =>
    refine Step.Yields.pure ⟨wf, Resolves.single wf (LinExpr.reduced_const c) fun y hy => ?_⟩
    exact absurd hy (LinExpr.notMem_vars_const c y)
  | add a b =>
    obtain ⟨hNa, hNb⟩ := List.forall_mem_append.1 hN
    refine (a.caseSplit_spec wf hNa).pair (fun t wft => b.caseSplit_spec wft hNb)
      (fun wft hu has => has.mono wft hu) b.caseSplit_grows (fun _ _ => combine_grows _ _ _)
      fun as bs u _ wfu has hbs => ?_
    exact has.combine wfu hbs (fun d e hd => hd.add e)
      (fun d e hd y hy => LinExpr.vars_add hd hy) LinExpr.eval_add
  | sub a b =>
    obtain ⟨hNa, hNb⟩ := List.forall_mem_append.1 hN
    refine (a.caseSplit_spec wf hNa).pair (fun t wft => b.caseSplit_spec wft hNb)
      (fun wft hu has => has.mono wft hu) b.caseSplit_grows (fun _ _ => combine_grows _ _ _)
      fun as bs u _ wfu has hbs => ?_
    exact has.combine wfu hbs (fun d e hd => hd.sub e)
      (fun d e hd y hy => LinExpr.vars_sub hd hy) LinExpr.eval_sub
  | neg a =>
    refine (a.caseSplit_spec wf hN).bind (fun _ => Step.Grows.pure _) fun cs t _ ⟨wft, hcs⟩ => ?_
    exact Step.Yields.pure ⟨wft, hcs.map (fun e he => he.neg)
      (fun e y hy => LinExpr.vars_neg.1 hy) LinExpr.eval_neg⟩
  | scale factor a =>
    refine (a.caseSplit_spec wf hN).bind (fun _ => Step.Grows.pure _) fun cs t _ ⟨wft, hcs⟩ => ?_
    exact Step.Yields.pure ⟨wft, hcs.map (fun e he => LinExpr.Reduced.scaled he factor)
      (fun e y hy => LinExpr.vars_scaled hy) (LinExpr.eval_scaled · factor)⟩
  | abs a =>
    refine (a.caseSplit_spec wf hN).bind (fun _ => splitSigns_grows _) fun cs t _ ⟨wft, hcs⟩ => ?_
    exact hcs.splitSigns wft
  | ite c a b =>
    obtain ⟨hNca, hNb⟩ := List.forall_mem_append.1 hN
    obtain ⟨hNc, hNa⟩ := List.forall_mem_append.1 hNca
    refine (c.encode_spec wf hNc).bind (fun _ => a.caseSplit_grows.bind fun _ =>
      (restrict_grows _ _).bind fun _ => b.caseSplit_grows.bind fun _ =>
        (restrict_grows _ _).bind fun _ => Step.Grows.pure _) fun test t ht ⟨wft, htest⟩ => ?_
    refine (a.caseSplit_spec wft hNa).bind (fun _ => (restrict_grows _ _).bind fun _ =>
      b.caseSplit_grows.bind fun _ => (restrict_grows _ _).bind fun _ => Step.Grows.pure _)
      fun as u hu ⟨wfu, has⟩ => ?_
    have htest' := htest.mono wft hu
    -- the cases of one branch are restricted to the condition, those of the other to its negation
    refine (restrict_spec wfu htest' has.cases).bind (fun _ => b.caseSplit_grows.bind fun _ =>
      (restrict_grows _ _).bind fun _ => Step.Grows.pure _) fun yes w hw ⟨wfw, hyes, hyesMeant⟩ => ?_
    refine (b.caseSplit_spec wfw hNb).bind (fun _ => (restrict_grows _ _).bind fun _ =>
      Step.Grows.pure _) fun bs x hx ⟨wfx, hbs⟩ => ?_
    refine (restrict_spec wfx ((htest'.mono wfu hw).mono wfw hx).neg hbs.cases).bind
      (fun _ => Step.Grows.pure _) fun no y hy ⟨wfy, hno, hnoMeant⟩ => ?_
    refine Step.Yields.pure ⟨wfy, (hyes.mono (hy.trans hx)).append hno, fun v => ?_⟩
    rw [meant_append, hnoMeant, meant_of_extends wfw (hy.trans hx) hyes, hyesMeant]
    show ∃ e, _ ∧ _ = bif c.eval v then a.eval v else b.eval v
    cases c.eval v with
    | true =>
      obtain ⟨e, he, hev⟩ := has.meaning v
      exact ⟨e, by simp [he], hev⟩
    | false =>
      obtain ⟨e, he, hev⟩ := hbs.meaning v
      exact ⟨e, by simp [he], hev⟩

/-- The contract of encoding a formula: its function is true under the assignment that values of
the symbolic constants make exactly if the formula is true under the values. -/
theorem Formula.encode_spec (f : Formula) {s : Skeleton} (wf : s.WellFormed N)
    (hN : ∀ x ∈ f.names, N x) :
    Step.Yields f.encode s fun r t => t.WellFormed N ∧ t.Denotes r fun v => f.eval v := by
  cases f with
  | true => exact Step.Yields.pure ⟨wf, wf.denotes_one⟩
  | false => exact Step.Yields.pure ⟨wf, wf.denotes_zero⟩
  | compare a r b =>
    obtain ⟨hNa, hNb⟩ := List.forall_mem_append.1 hN
    exact (a.caseSplit_spec wf hNa).pair (fun t wft => b.caseSplit_spec wft hNb)
      (fun wft hu has => has.mono wft hu) b.caseSplit_grows (fun _ _ => compareAll_grows _ _ _)
      fun as bs u _ wfu has hbs => has.compareAll wfu r hbs
  | not f =>
    exact (f.encode_spec wf hN).bind (fun _ => Step.Grows.pure _) fun r t _ ⟨wft, hr⟩ =>
      Step.Yields.pure ⟨wft, hr.neg⟩
  | and fs =>
    refine (Formula.encodeAll_spec fs wf hN).bind
      (fun _ => onManager_grows (Manager.conjFrom_grows _ _)) fun rs t _ ⟨wft, hrs, hvalues⟩ => ?_
    refine (onManager_spec wft (Manager.conjFrom_keeps (Manager.kept_within _) rs _)
      (Manager.conjAll_spec wft.manager hrs)).imp fun r u _ ⟨wfu, hr⟩ =>
        ⟨wfu, hr.congr fun v => ?_⟩
    calc rs.all (t.holds v) = (rs.map (t.holds v)).all id := (List.all_map (p := id)).symm
      _ = (fs.map (Formula.eval v)).all id := by rw [hvalues]
      _ = fs.all (Formula.eval v) := List.all_map
      _ = Formula.evalAll v fs := (Formula.evalAll_eq_all v fs).symm
  | or fs =>
    refine (Formula.encodeAll_spec fs wf hN).bind
      (fun _ => onManager_grows (Manager.disjFrom_grows _ _)) fun rs t _ ⟨wft, hrs, hvalues⟩ => ?_
    refine (onManager_spec wft (Manager.disjFrom_keeps (Manager.kept_within _) rs _)
      (Manager.disjAll_spec wft.manager hrs)).imp fun r u _ ⟨wfu, hr⟩ =>
        ⟨wfu, hr.congr fun v => ?_⟩
    calc rs.any (t.holds v) = (rs.map (t.holds v)).any id := (List.any_map (p := id)).symm
      _ = (fs.map (Formula.eval v)).any id := by rw [hvalues]
      _ = fs.any (Formula.eval v) := List.any_map
      _ = Formula.evalAny v fs := (Formula.evalAny_eq_any v fs).symm
  | implies f g =>
    obtain ⟨hNf, hNg⟩ := List.forall_mem_append.1 hN
    exact (f.encode_spec wf hNf).pair (fun t wft => g.encode_spec wft hNg)
      (fun wft hu ha => ha.mono wft hu) g.encode_grows
      (fun _ _ => onManager_grows (Manager.imp_grows _ _))
      fun a b u _ wfu ha hb => imp_spec wfu ha hb
  | ite c f g =>
    obtain ⟨hNcf, hNg⟩ := List.forall_mem_append.1 hN
    obtain ⟨hNc, hNf⟩ := List.forall_mem_append.1 hNcf
    refine (c.encode_spec wf hNc).bind (fun _ => f.encode_grows.bind fun _ =>
      g.encode_grows.bind fun _ => onManager_grows (Manager.ite_grows _))
      fun test t _ ⟨wft, htest⟩ => ?_
    exact (f.encode_spec wft hNf).pair (fun u wfu => g.encode_spec wfu hNg)
      (fun wfu hw hyes => hyes.mono wfu hw) g.encode_grows
      (fun _ _ => onManager_grows (Manager.ite_grows _))
      fun yes no w hw wfw hyes hno => ite_spec wfw (htest.mono wft hw) hyes hno

/-- The contract of encoding a list of formulas. -/
theorem Formula.encodeAll_spec (fs : List Formula) {s : Skeleton} (wf : s.WellFormed N)
    (hN : ∀ x ∈ Formula.namesOfAll fs, N x) :
    Step.Yields (Formula.encodeAll fs) s fun rs t => t.WellFormed N ∧
      (∀ r ∈ rs, t.manager.Has r) ∧ ∀ v, rs.map (t.holds v) = fs.map (Formula.eval v) := by
  cases fs with
  | nil => exact Step.Yields.pure ⟨wf, by simp, fun v => rfl⟩
  | cons f fs =>
    obtain ⟨hNf, hNfs⟩ := List.forall_mem_append.1 hN
    refine (f.encode_spec wf hNf).pair (fun t wft => Formula.encodeAll_spec fs wft hNfs)
      (fun wft hu hr => hr.mono wft hu) (Formula.encodeAll_grows fs) (fun _ _ => Step.Grows.pure _)
      fun r rs u _ wfu hr ⟨hrs, hvalues⟩ => ?_
    refine Step.Yields.pure ⟨wfu, List.forall_mem_cons.2 ⟨hr.has, hrs⟩, fun v => ?_⟩
    rw [List.map_cons, List.map_cons, hr.meaning, hvalues]

end

/-! ### Skeletons that can be reached -/

namespace Skeleton

/-- The empty skeleton is well-formed. -/
theorem wellFormed_of_create {N : String → Prop} {bits : Nat} {journal : Journal} {s : Skeleton}
    (h : create bits journal = .ok s) : s.WellFormed N := by
  unfold create at h
  cases hm : Manager.create bits journal with
  | error f => simp [hm, bind, Except.bind] at h
  | ok m =>
    rw [hm] at h
    cases h
    have wf := Manager.wellFormed_of_create hm
    -- without atoms there is nothing to be said about them
    have noAtom : ∀ x e, AtomTable.empty.atom x ≠ .ok e := by
      intro x e hx
      have hle : 0 < x ∧ x ≤ 0 := AtomTable.le_size_of_atom hx
      omega
    exact {
      manager := wf
      within := Manager.within_of_create hm 0
      reduced := fun x e hx => absurd hx (noAtom x e)
      names := fun x e hx => absurd hx (noAtom x e)
      stored := fun x hpos hle => by
        have hzero : x ≤ 0 := hle
        omega }

/-- The skeletons that a run can lead to: it encodes formulas, makes choices between functions it
has, and blocks paths. -/
inductive Reached : Skeleton → Prop where
  | create {bits : Nat} {journal : Journal} {s : Skeleton} (h : create bits journal = .ok s) :
    Reached s
  | encode {s : Skeleton} (h : Reached s) (f : Formula) : Reached (f.encode.perform s).2
  | choose {s : Skeleton} (h : Reached s) {c : Choice} (hc : s.manager.HasAll c) :
    Reached ((onManager (Manager.ite c)).perform s).2
  | block {s : Skeleton} (h : Reached s) {r : Ref} (hr : s.manager.Has r) {ls : List Literal}
    (hls : s.manager.path r = .ok (some ls)) :
    Reached ((onManager (Manager.block r ls)).perform s).2

/-- Every skeleton that can be reached is well-formed, as long as it can be addressed: the
skeletons on the way to it can then be addressed as well, and each step keeps the invariant. -/
theorem Reached.wellFormed {s : Skeleton} (h : s.Reached) (hfit : s.manager.Addressable) :
    s.WellFormed fun _ => True := by
  induction h with
  | create h => exact wellFormed_of_create h
  | encode h f ih =>
    have wf := ih (f.encode_grows.addressable hfit)
    obtain ⟨r, t, hrun, -, wft, -⟩ := f.encode_spec wf (fun _ _ => trivial) hfit
    rw [hrun]
    exact wft
  | choose h hc ih =>
    have wf := ih ((onManager_grows (Manager.ite_grows _)).addressable hfit)
    obtain ⟨r, t, hrun, -, wft, -⟩ :=
      ite_spec wf ⟨hc.test, fun _ => rfl⟩ ⟨hc.yes, fun _ => rfl⟩ ⟨hc.no, fun _ => rfl⟩ hfit
    rw [hrun]
    exact wft
  | block h hr hls ih =>
    have hfit' := (onManager_grows (Manager.block_grows _ _)).addressable hfit
    have wf := ih hfit'
    -- a path that has been found leads to the constant true
    rcases Manager.path_spec wf.manager (wf.narrow hfit') hr with ⟨-, hnone⟩ | ⟨ks, hks, hleads⟩
    · rw [hls] at hnone
      cases hnone
    · rw [hls] at hks
      cases hks
      obtain ⟨q, t, hrun, -, wft, -⟩ := block_spec wf ⟨hr, fun _ => rfl⟩ hleads hfit
      rw [hrun]
      exact wft

/-- In every skeleton that can be reached, a formula is encoded as the function that is true under
the assignment made by values of the symbolic constants exactly if the formula is true under the
values; earlier atoms keep their numbers, and earlier references keep their functions.  The
nodes must have indices that references can hold. -/
theorem Reached.encode_correct {s : Skeleton} (h : s.Reached) (f : Formula)
    (hfit : (f.encode.perform s).2.manager.Addressable) :
    ∃ r t, f.encode.perform s = (.ok r, t) ∧
      (∀ v, t.manager.holds (t.atoms.truth v) r = f.eval v) ∧
      (∀ x e, s.atoms.atom x = .ok e → t.atoms.atom x = .ok e) ∧
      ∀ q, s.manager.Has q → ∀ a, t.manager.holds a q = s.manager.holds a q := by
  have wf := h.wellFormed (f.encode_grows.addressable hfit)
  obtain ⟨r, t, hrun, hext, -, hr⟩ := f.encode_spec wf (fun _ _ => trivial) hfit
  refine ⟨r, t, hrun, hr.meaning, hext.atoms, fun q hq a => ?_⟩
  exact Manager.holds_of_extends wf.manager hext.manager a hq

/-- Two formulas about one constant, one encoded after the other. -/
theorem encode_correct_abs_lt_one :
    ∃ s r t, create 0 .closed = .ok s ∧
      ((Term.abs (.var "x")).lt (.const 1)).encode.perform
        (((Term.var "x").lt .zero).encode.perform s).2 = (.ok r, t) ∧
      ∀ v, t.manager.holds (t.atoms.truth v) r = ((Term.abs (.var "x")).lt (.const 1)).eval v := by
  have hcreate : create 0 .closed = .ok
      ⟨⟨((HashCons.empty 0).add Node.terminal).2, ComputedTable.empty 0, .closed⟩, .empty⟩ := rfl
  obtain ⟨r, t, hrun, hmeaning, -⟩ := ((Reached.create hcreate).encode
    ((Term.var "x").lt .zero)).encode_correct ((Term.abs (.var "x")).lt (.const 1))
    (by decide +kernel)
  exact ⟨_, r, t, hcreate, hrun, hmeaning⟩

end Skeleton

end BrakeCheck
