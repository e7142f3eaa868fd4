import BrakeCheck.Proofs.Atoms

/-!
# The cases of terms

What a list of cases means under given values of the symbolic constants is the list of those
expressions whose guards hold.  Each operation on cases does to this list what its name says, and
comparing two lists of cases asks for a relation between the members of the one and the other.

## Main definitions

* `Skeleton.HasCases` — the guards are stored, and the expressions are fit to become atoms.
* `Skeleton.meant` — the expressions whose guards hold.

## Main statements

* `Skeleton.restrict_spec`, `Skeleton.combine_spec`, `Skeleton.splitSigns_spec` — the operations.
* `Skeleton.compareAll_spec` — the comparison of two lists of cases.
-/

namespace BrakeCheck

namespace Skeleton

/-- Cases whose guards are stored, and whose expressions are reduced and about names of `N`. -/
structure HasCases (N : String → Prop) (s : Skeleton) (cs : List Case) : Prop where
  has : ∀ c ∈ cs, s.manager.Has c.guard
  reduced : ∀ c ∈ cs, c.value.Reduced
  names : ∀ c ∈ cs, ∀ y ∈ c.value.vars, N y

/-- The expressions of the cases whose guards hold when the symbolic constants have the values
`v`. -/
def meant (s : Skeleton) (v : String → Rat) (cs : List Case) : List LinExpr :=
  (cs.filter fun c => s.holds v c.guard).map Case.value

variable {N : String → Prop} {s t : Skeleton} {v : String → Rat}

/-! ### Lists of cases -/

@[simp] theorem meant_nil : s.meant v [] = [] := rfl

theorem meant_cons (c : Case) (cs : List Case) :
    s.meant v (c :: cs) =
      if s.holds v c.guard then c.value :: s.meant v cs else s.meant v cs := by
  unfold meant
  rw [List.filter_cons]
  split <;> rfl

theorem meant_append (cs ds : List Case) :
    s.meant v (cs ++ ds) = s.meant v cs ++ s.meant v ds := by
  unfold meant
  rw [List.filter_append, List.map_append]

theorem meant_of_extends (wf : s.WellFormed N) (hext : t.Extends s) {cs : List Case}
    (hcs : s.HasCases N cs) (v : String → Rat) : t.meant v cs = s.meant v cs := by
  unfold meant
  congr 1
  exact List.filter_congr fun c hc => holds_of_extends wf hext v (hcs.has c hc)

/-- A function that changes the expressions alone changes the meaning so. -/
theorem meant_map (op : LinExpr → LinExpr) (cs : List Case) :
    s.meant v (cs.map fun c => ⟨c.guard, op c.value⟩) = (s.meant v cs).map op := by
  induction cs with
  | nil => rfl
  | cons c cs ih =>
    rw [List.map_cons, meant_cons, meant_cons, ih]
    dsimp only
    split
    · rw [List.map_cons]
    · rfl

/-- What is done in each case whose guard holds is done for each expression that is meant. -/
theorem flatMap_guarded {γ : Type} (cs : List Case) (k : LinExpr → List γ) :
    (cs.flatMap fun c => if s.holds v c.guard then k c.value else []) =
      (s.meant v cs).flatMap k := by
  induction cs with
  | nil => rfl
  | cons c cs ih =>
    rw [List.flatMap_cons, ih, meant_cons]
    split
    · rw [List.flatMap_cons]
    · rw [List.nil_append]

/-- What holds in some case together with its guard holds of some expression that is meant. -/
theorem any_guarded (cs : List Case) (p : LinExpr → Bool) :
    (cs.any fun c => s.holds v c.guard && p c.value) = (s.meant v cs).any p := by
  induction cs with
  | nil => rfl
  | cons c cs ih =>
    rw [List.any_cons, ih, meant_cons]
    cases s.holds v c.guard with
    | true => rw [if_pos rfl, List.any_cons, Bool.true_and]
    | false => rw [if_neg (by simp), Bool.false_and, Bool.false_or]

namespace HasCases

theorem nil : s.HasCases N [] :=
  ⟨by simp, by simp, by simp⟩

theorem cons {c : Case} {cs : List Case} (hc : s.manager.Has c.guard) (hr : c.value.Reduced)
    (hn : ∀ y ∈ c.value.vars, N y) (hcs : s.HasCases N cs) : s.HasCases N (c :: cs) :=
  ⟨List.forall_mem_cons.2 ⟨hc, hcs.has⟩, List.forall_mem_cons.2 ⟨hr, hcs.reduced⟩,
    List.forall_mem_cons.2 ⟨hn, hcs.names⟩⟩

theorem append {cs ds : List Case} (hcs : s.HasCases N cs) (hds : s.HasCases N ds) :
    s.HasCases N (cs ++ ds) :=
  ⟨List.forall_mem_append.2 ⟨hcs.has, hds.has⟩, List.forall_mem_append.2 ⟨hcs.reduced, hds.reduced⟩,
    List.forall_mem_append.2 ⟨hcs.names, hds.names⟩⟩

theorem mono (hext : t.Extends s) {cs : List Case} (hcs : s.HasCases N cs) : t.HasCases N cs :=
  { hcs with has := fun c hc => (hcs.has c hc).mono hext.manager }

theorem map {op : LinExpr → LinExpr} (hreduced : ∀ e, e.Reduced → (op e).Reduced)
    (hvars : ∀ e, ∀ y ∈ (op e).vars, y ∈ e.vars) {cs : List Case} (hcs : s.HasCases N cs) :
    s.HasCases N (cs.map fun c => ⟨c.guard, op c.value⟩) where
  has := List.forall_mem_map.2 hcs.has
  reduced := List.forall_mem_map.2 fun c hc => hreduced _ (hcs.reduced c hc)
  names := List.forall_mem_map.2 fun c hc y hy => hcs.names c hc y (hvars _ y hy)

/-- A stored guard stands for the values under which it holds. -/
theorem denotes {cs : List Case} (hcs : s.HasCases N cs) {c : Case} (hc : c ∈ cs) :
    s.Denotes c.guard fun v => s.holds v c.guard :=
  ⟨hcs.has c hc, fun _ => rfl⟩

end HasCases

/-! ### One case -/

theorem caseUnder_grows (guard condition : Ref) (e : LinExpr) :
    Step.Grows (caseUnder guard condition e) :=
  (onManager_grows (Manager.conj_grows _ _)).bind fun _ => Step.Grows.pure _

/-- The contract of making a case: no case is made where the guard cannot hold. -/
theorem caseUnder_spec (wf : s.WellFormed N) {guard condition : Ref}
    {f g : (String → Rat) → Bool} (hf : s.Denotes guard f) (hg : s.Denotes condition g)
    {e : LinExpr} (he : e.Reduced) (hN : ∀ y ∈ e.vars, N y) :
    Step.Yields (caseUnder guard condition e) s fun cs t => t.WellFormed N ∧ t.HasCases N cs ∧
      ∀ v, t.meant v cs = if f v && g v then [e] else [] := by
  refine (conj_spec wf hf hg).bind (fun _ => Step.Grows.pure _) fun r t _ ⟨wft, hr⟩ => ?_
  refine Step.Yields.pure ⟨wft, ?_⟩
  split
  · next hzero =>
    subst hzero
    refine ⟨HasCases.nil, fun v => ?_⟩
    rw [← hr.meaning v, wft.denotes_zero.meaning]
    rfl
  · refine ⟨HasCases.nil.cons hr.has he hN, fun v => ?_⟩
    rw [meant_cons, meant_nil, hr.meaning]

/-! ### Collecting cases -/

/-- The cases collected for the members of a list mean, one after the other, what the cases of
each member mean. -/
theorem collect_spec {α : Type} {f : α → Step Skeleton (List Case)}
    (hgrows : ∀ a, Step.Grows (f a)) {F : α → (String → Rat) → List LinExpr} {as : List α}
    {s : Skeleton} (wf : s.WellFormed N)
    (h : ∀ a ∈ as, ∀ t : Skeleton, t.WellFormed N → t.Extends s →
      Step.Yields (f a) t fun cs u => u.WellFormed N ∧ u.HasCases N cs ∧
        ∀ v, u.meant v cs = F a v) :
    Step.Yields (Step.collect f as) s fun cs t => t.WellFormed N ∧ t.HasCases N cs ∧
      ∀ v, t.meant v cs = as.flatMap fun a => F a v := by
  induction as generalizing s with
  | nil => exact Step.Yields.pure ⟨wf, HasCases.nil, fun v => rfl⟩
  | cons a as ih =>
    refine (h a List.mem_cons_self s wf (Extends.refl s)).bind
      (fun _ => (Step.Grows.collect hgrows as).bind fun _ => Step.Grows.pure _)
      fun here t hext ⟨wft, hhere, hmeaning⟩ => ?_
    refine (ih wft fun b hb u wfu hu => h b (List.mem_cons_of_mem a hb) u wfu
      (hu.trans hext)).bind (fun _ => Step.Grows.pure _)
      fun rest u hext' ⟨wfu, hrest, hmeaning'⟩ => ?_
    refine Step.Yields.pure ⟨wfu, (hhere.mono hext').append hrest, fun v => ?_⟩
    rw [meant_append, meant_of_extends wft hext' hhere, hmeaning, hmeaning', List.flatMap_cons]

theorem restrict_grows (condition : Ref) (cs : List Case) : Step.Grows (restrict condition cs) :=
  Step.Grows.collect (fun _ => caseUnder_grows _ _ _) cs

/-- Cases under a further condition mean nothing where the condition does not hold. -/
theorem restrict_spec (wf : s.WellFormed N) {condition : Ref} {g : (String → Rat) → Bool}
    (hg : s.Denotes condition g) {cs : List Case} (hcs : s.HasCases N cs) :
    Step.Yields (restrict condition cs) s fun ds t => t.WellFormed N ∧ t.HasCases N ds ∧
      ∀ v, t.meant v ds = if g v then s.meant v cs else [] := by
  refine (collect_spec (fun _ => caseUnder_grows _ _ _) wf fun c hc t wft hext =>
    caseUnder_spec wft ((hcs.denotes hc).mono wf hext) (hg.mono wf hext) (hcs.reduced c hc)
      (hcs.names c hc)).imp fun ds t _ ⟨wft, hds, hmeaning⟩ => ⟨wft, hds, fun v => ?_⟩
  rw [hmeaning]
  cases g v with
  | true =>
    simp only [Bool.and_true, if_true]
    rw [flatMap_guarded cs fun e => [e], List.flatMap_singleton']
  | false => simp

theorem combine_grows (op : LinExpr → LinExpr → LinExpr) (as bs : List Case) :
    Step.Grows (combine op as bs) :=
  Step.Grows.collect (fun _ => Step.Grows.collect (fun _ => caseUnder_grows _ _ _) bs) as

/-- The cases of an operation mean its results on all expressions that are meant. -/
theorem combine_spec (wf : s.WellFormed N) {op : LinExpr → LinExpr → LinExpr}
    (hreduced : ∀ a b : LinExpr, a.Reduced → (op a b).Reduced)
    (hvars : ∀ a b : LinExpr, a.Reduced → ∀ y ∈ (op a b).vars, y ∈ a.vars ∨ y ∈ b.vars)
    {as bs : List Case} (has : s.HasCases N as) (hbs : s.HasCases N bs) :
    Step.Yields (combine op as bs) s fun cs t => t.WellFormed N ∧ t.HasCases N cs ∧
      ∀ v, t.meant v cs = (s.meant v as).flatMap fun a => (s.meant v bs).map (op a) := by
  have hinner : ∀ a ∈ as, ∀ t : Skeleton, t.WellFormed N → t.Extends s →
      Step.Yields (Step.collect (fun b => caseUnder a.guard b.guard (op a.value b.value)) bs) t
        fun cs u => u.WellFormed N ∧ u.HasCases N cs ∧
          ∀ v, u.meant v cs =
            if s.holds v a.guard then (s.meant v bs).map (op a.value) else [] := by
    intro a ha t wft hext
    refine (collect_spec (fun _ => caseUnder_grows _ _ _)
      (F := fun b v => if s.holds v a.guard && s.holds v b.guard then [op a.value b.value] else [])
      wft fun b hb u wfu hu => ?_).imp fun cs u _ ⟨wfu, hcs, hmeaning⟩ => ⟨wfu, hcs, fun v => ?_⟩
    · have hext' : u.Extends s := hu.trans hext
      exact caseUnder_spec wfu ((has.denotes ha).mono wf hext') ((hbs.denotes hb).mono wf hext')
        (hreduced _ _ (has.reduced a ha)) fun y hy =>
          (hvars _ _ (has.reduced a ha) y hy).elim (has.names a ha y) (hbs.names b hb y)
    · rw [hmeaning]
      cases s.holds v a.guard with
      | true =>
        simp only [Bool.true_and, if_true]
        rw [flatMap_guarded bs fun e => [op a.value e], ← List.map_eq_flatMap]
      | false => simp
  refine (collect_spec (fun _ => Step.Grows.collect (fun _ => caseUnder_grows _ _ _) bs) wf
    hinner).imp fun cs t _ ⟨wft, hcs, hmeaning⟩ => ⟨wft, hcs, fun v => ?_⟩
  rw [hmeaning, flatMap_guarded as fun e => (s.meant v bs).map (op e)]

theorem splitSigns_grows (cs : List Case) : Step.Grows (splitSigns cs) :=
  Step.Grows.collect (fun _ => (belowZero_grows _).bind fun _ => (caseUnder_grows _ _ _).bind
    fun _ => (caseUnder_grows _ _ _).bind fun _ => Step.Grows.pure _) cs

/-- The cases of an absolute value mean each expression with the sign that makes it not
negative. -/
theorem splitSigns_spec (wf : s.WellFormed N) {cs : List Case} (hcs : s.HasCases N cs) :
    Step.Yields (splitSigns cs) s fun ds t => t.WellFormed N ∧ t.HasCases N ds ∧
      ∀ v, t.meant v ds = (s.meant v cs).map fun e => if e.eval v < 0 then -e else e := by
  have hcase : ∀ c ∈ cs, ∀ t : Skeleton, t.WellFormed N → t.Extends s →
      Step.Yields (do
        let negative ← belowZero c.value
        let kept ← caseUnder c.guard (-negative) c.value
        let turned ← caseUnder c.guard negative (-c.value)
        return kept ++ turned) t fun ds u => u.WellFormed N ∧ u.HasCases N ds ∧
          ∀ v, u.meant v ds = if s.holds v c.guard then
            [if c.value.eval v < 0 then -c.value else c.value] else [] := by
    intro c hc t wft hext
    have hguard := (hcs.denotes hc).mono wf hext
    refine (belowZero_spec wft (hcs.reduced c hc) (hcs.names c hc)).bind
      (fun _ => (caseUnder_grows _ _ _).bind fun _ => (caseUnder_grows _ _ _).bind fun _ =>
        Step.Grows.pure _) fun negative u hu ⟨wfu, hnegative⟩ => ?_
    refine (caseUnder_spec wfu (hguard.mono wft hu) hnegative.neg (hcs.reduced c hc)
      (hcs.names c hc)).bind (fun _ => (caseUnder_grows _ _ _).bind fun _ => Step.Grows.pure _)
      fun kept w hw ⟨wfw, hkept, hkeptMeans⟩ => ?_
    refine (caseUnder_spec wfw ((hguard.mono wft hu).mono wfu hw) (hnegative.mono wfu hw)
      (hcs.reduced c hc).neg fun y hy => hcs.names c hc y (LinExpr.vars_neg.1 hy)).bind
      (fun _ => Step.Grows.pure _) fun turned x hx ⟨wfx, hturned, hturnedMeans⟩ => ?_
    refine Step.Yields.pure ⟨wfx, (hkept.mono hx).append hturned, fun v => ?_⟩
    rw [meant_append, meant_of_extends wfw hx hkept, hkeptMeans, hturnedMeans]
    -- exactly one of the two cases is meant
    by_cases hneg : c.value.eval v < 0
    · simp [hneg]
    · simp [hneg]
  refine (collect_spec (fun _ => (belowZero_grows _).bind fun _ => (caseUnder_grows _ _ _).bind
    fun _ => (caseUnder_grows _ _ _).bind fun _ => Step.Grows.pure _) wf hcase).imp
    fun ds t _ ⟨wft, hds, hmeaning⟩ => ⟨wft, hds, fun v => ?_⟩
  rw [hmeaning, flatMap_guarded cs fun e => [if e.eval v < 0 then -e else e],
    ← List.map_eq_flatMap]

/-! ### Comparing cases -/

theorem compareCases_grows (r : Relation) (a : Case) (acc : Ref) (b : Case) :
    Step.Grows (compareCases r a acc b) := by
  refine (onManager_grows (Manager.conj_grows _ _)).bind fun guard => ?_
  split
  · exact Step.Grows.pure _
  · exact (relate_grows _ _).bind fun _ => (onManager_grows (Manager.conj_grows _ _)).bind
      fun _ => onManager_grows (Manager.disj_grows _ _)

/-- Whether a relation holds is seen from the difference. -/
theorem holds_sub_zero (r : Relation) (p q : Rat) : r.holds (p - q) 0 = r.holds p q := by
  cases r with
  | lt => simp [Relation.holds, sub_neg]
  | le => simp [Relation.holds]
  | gt => simp [Relation.holds]
  | ge => simp [Relation.holds]
  | eq => simp [Relation.holds, sub_eq_zero]
  | ne => simp [Relation.holds, sub_eq_zero]

/-- The contract of comparing two cases. -/
theorem compareCases_spec (wf : s.WellFormed N) (r : Relation) {a b : Case} {acc : Ref}
    {f g h : (String → Rat) → Bool} (ha : s.Denotes a.guard f) (hb : s.Denotes b.guard g)
    (hacc : s.Denotes acc h) (hreduced : a.value.Reduced) (hnames : ∀ y ∈ a.value.vars, N y)
    (hnames' : ∀ y ∈ b.value.vars, N y) :
    Step.Yields (compareCases r a acc b) s fun q t => t.WellFormed N ∧
      t.Denotes q fun v =>
        h v || (f v && (g v && r.holds (a.value.eval v) (b.value.eval v))) := by
  refine (conj_spec wf ha hb).bind (fun guard => ?_) fun guard t hext ⟨wft, hguard⟩ => ?_
  · split
    · exact Step.Grows.pure _
    · exact (relate_grows _ _).bind fun _ => (onManager_grows (Manager.conj_grows _ _)).bind
        fun _ => onManager_grows (Manager.disj_grows _ _)
  split
  · next hzero =>
    -- the cases are never meant together
    subst hzero
    refine Step.Yields.pure ⟨wft, (hacc.mono wf hext).congr fun v => ?_⟩
    have hnever := hguard.meaning v
    rw [wft.denotes_zero.meaning] at hnever
    rw [← Bool.and_assoc, ← hnever, Bool.false_and, Bool.or_false]
  · refine (relate_spec wft r (hreduced.sub b.value) fun y hy =>
      (LinExpr.vars_sub hreduced hy).elim (hnames y) (hnames' y)).bind
      (fun _ => (onManager_grows (Manager.conj_grows _ _)).bind fun _ =>
        onManager_grows (Manager.disj_grows _ _)) fun related u hu ⟨wfu, hrelated⟩ => ?_
    refine (conj_spec wfu (hguard.mono wft hu) hrelated).bind
      (fun _ => onManager_grows (Manager.disj_grows _ _)) fun piece w hw ⟨wfw, hpiece⟩ => ?_
    refine (disj_spec wfw (((hacc.mono wf hext).mono wft hu).mono wfu hw) hpiece).imp
      fun q x _ ⟨wfx, hq⟩ => ⟨wfx, hq.congr fun v => ?_⟩
    rw [LinExpr.eval_sub, holds_sub_zero, Bool.and_assoc]

theorem foldlM_grows {α : Type} {f : Ref → α → Step Skeleton Ref}
    (hgrows : ∀ acc a, Step.Grows (f acc a)) (as : List α) :
    ∀ acc, Step.Grows (as.foldlM f acc) := by
  induction as with
  | nil => exact fun acc => Step.Grows.pure acc
  | cons a as ih =>
    intro acc
    rw [List.foldlM_cons]
    exact (hgrows acc a).bind ih

/-- A disjunction is gathered along a list: each member adds its own part to what there is. -/
theorem foldlM_spec {α : Type} {f : Ref → α → Step Skeleton Ref}
    (hgrows : ∀ acc a, Step.Grows (f acc a)) {P : α → (String → Rat) → Bool} {as : List α}
    {s : Skeleton} (wf : s.WellFormed N)
    (hstep : ∀ a ∈ as, ∀ (t : Skeleton) acc h, t.WellFormed N → t.Extends s → t.Denotes acc h →
      Step.Yields (f acc a) t fun q u => u.WellFormed N ∧ u.Denotes q fun v => h v || P a v)
    {acc : Ref} {h : (String → Rat) → Bool} (hacc : s.Denotes acc h) :
    Step.Yields (as.foldlM f acc) s fun q t => t.WellFormed N ∧
      t.Denotes q fun v => h v || as.any fun a => P a v := by
  induction as generalizing s acc h with
  | nil => exact Step.Yields.pure ⟨wf, hacc.congr fun v => by simp⟩
  | cons a as ih =>
    rw [List.foldlM_cons]
    refine (hstep a List.mem_cons_self s acc h wf (Extends.refl s) hacc).bind
      (fun q => foldlM_grows hgrows as q) fun q t hext ⟨wft, hq⟩ => ?_
    refine (ih wft (fun b hb u acc k wfu hu hk => hstep b (List.mem_cons_of_mem a hb) u acc k wfu
      (hu.trans hext) hk) hq).imp fun p u _ ⟨wfu, hp⟩ => ⟨wfu, hp.congr fun v => ?_⟩
    rw [List.any_cons, Bool.or_assoc]

theorem compareAll_grows (r : Relation) (as bs : List Case) : Step.Grows (compareAll r as bs) :=
  foldlM_grows (fun _ _ => foldlM_grows (fun _ _ => compareCases_grows _ _ _ _) bs _) as _

/-- The contract of comparing cases: some expression meant on the one side stands in the relation
to one meant on the other. -/
theorem compareAll_spec (wf : s.WellFormed N) (r : Relation) {as bs : List Case}
    (has : s.HasCases N as) (hbs : s.HasCases N bs) :
    Step.Yields (compareAll r as bs) s fun q t => t.WellFormed N ∧
      t.Denotes q fun v => (s.meant v as).any fun a => (s.meant v bs).any fun b =>
        r.holds (a.eval v) (b.eval v) := by
  have hinner : ∀ a ∈ as, ∀ (t : Skeleton) acc h, t.WellFormed N → t.Extends s →
      t.Denotes acc h → Step.Yields (bs.foldlM (compareCases r a) acc) t fun q u =>
        u.WellFormed N ∧ u.Denotes q fun v => h v || (s.holds v a.guard &&
          (s.meant v bs).any fun b => r.holds (a.value.eval v) (b.eval v)) := by
    intro a ha t acc h wft hext hacc
    refine (foldlM_spec (fun _ _ => compareCases_grows _ _ _ _)
      (P := fun b v => s.holds v a.guard && (s.holds v b.guard &&
        r.holds (a.value.eval v) (b.value.eval v))) wft (fun b hb u acc k wfu hu hk => ?_)
      hacc).imp fun q u _ ⟨wfu, hq⟩ => ⟨wfu, hq.congr fun v => ?_⟩
    · have hext' : u.Extends s := hu.trans hext
      exact compareCases_spec wfu r ((has.denotes ha).mono wf hext')
        ((hbs.denotes hb).mono wf hext') hk (has.reduced a ha) (has.names a ha) (hbs.names b hb)
    · rw [← any_guarded bs fun e => r.holds (a.value.eval v) (e.eval v)]
      cases s.holds v a.guard <;> simp
  refine (foldlM_spec (fun _ _ => foldlM_grows (fun _ _ => compareCases_grows _ _ _ _) bs _) wf
    hinner wf.denotes_zero).imp fun q t _ ⟨wft, hq⟩ => ⟨wft, hq.congr fun v => ?_⟩
  rw [Bool.false_or,
    any_guarded as fun e => (s.meant v bs).any fun b => r.holds (e.eval v) (b.eval v)]

end Skeleton

end BrakeCheck
