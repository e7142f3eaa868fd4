import BrakeCheck.Proofs.Dependence
import BrakeCheck.Proofs.Interning
import BrakeCheck.Proofs.Partition

/-!
# Nothing but the symbolic constants that have been collected

The names that are collected from a formula are all that its truth value depends on, and all that
its encoding speaks of.  The three walks over the syntax go their own ways: the encoding divides
terms into cases, which are split by the sign of expressions and by formulas inside of terms, and
all pairs of cases are compared.  But the expressions it asks about are made by the operations from
the names, and the operations bring in no name.  So an atom that is new is about collected names;
and the function that a formula is encoded as looks at no atom about others, although the table may
be full of them.

## Main definitions

* `AtomTable.Determines` — a function that looks at the atoms about some names alone.
* `Plan.ComesTo` — what can be said of the answer of a plan and of the atoms there are then.

## Main statements

* `AtomTable.closed_about` — encodings make atoms about the names of the formula alone.
* `Formula.outline_determined` — and they look at no others.
* `names_suffice` — values and encodings depend on the collected names alone.
-/

namespace BrakeCheck

/-! ### Expressions about some names -/

namespace LinExpr

variable {N : String → Prop} {a b : LinExpr}

/-- An expression has no symbolic constants but those of `N`. -/
def About (N : String → Prop) (e : LinExpr) : Prop := ∀ y ∈ e.vars, N y

theorem about_const (N : String → Prop) (q : Rat) : (const q).About N :=
  fun y hy => absurd hy (notMem_vars_const q y)

theorem about_var {x : String} (hx : N x) : (var x).About N :=
  fun _ hy => mem_vars_var.1 hy ▸ hx

theorem About.add (ha : a.About N) (hred : a.Reduced) (hb : b.About N) : (a + b).About N :=
  fun y hy => (vars_add hred hy).elim (ha y) (hb y)

theorem About.sub (ha : a.About N) (hred : a.Reduced) (hb : b.About N) : (a - b).About N :=
  fun y hy => (vars_sub hred hy).elim (ha y) (hb y)

theorem About.neg (ha : a.About N) : (-a).About N := fun y hy => ha y (vars_neg.1 hy)

theorem About.scaled (ha : a.About N) (factor : Rat) : (a.scaled factor).About N :=
  fun y hy => ha y (vars_scaled hy)

theorem About.normalized (ha : a.About N) (hred : a.Reduced) : a.normalized.About N :=
  fun y hy => ha y ((vars_normalized hred).1 hy)

end LinExpr

namespace AtomTable

variable {N : String → Prop} {t u : AtomTable} {f g : Condition}

/-- Encodings keep the atoms there are, and make none but about names of `N`, if they ask about
such expressions alone. -/
theorem closed_about (N : String → Prop) (old : AtomTable) :
    Skeleton.Closed (fun s => ∀ x e, s.atoms.atom x = .ok e → old.atom x = .ok e ∨ e.About N)
      fun e => e.Reduced ∧ e.About N where
  choose _ _ h := h
  ask e he := by
    refine Skeleton.belowZero_keeps (Skeleton.intern_keeps fun s _ h _ x d hd => ?_) fun _ _ h => h
    rcases atom_of_number hd with rfl | hd
    · exact Or.inr (he.2.normalized he.1)
    · exact h x d hd
  const q := ⟨LinExpr.reduced_const q, LinExpr.about_const N q⟩
  add a b ha hb := ⟨ha.1.add b, ha.2.add ha.1 hb.2⟩
  sub a b ha hb := ⟨ha.1.sub b, ha.2.sub ha.1 hb.2⟩
  neg a ha := ⟨ha.1.neg, ha.2.neg⟩
  scaled a factor ha := ⟨ha.1.scaled factor, ha.2.scaled factor⟩

/-! ### Functions that look at some atoms alone -/

theorem Extends.refl (t : AtomTable) : t.Extends t := fun _ _ h => h

theorem Extends.trans {w : AtomTable} (hw : w.Extends u) (hu : u.Extends t) : w.Extends t :=
  fun x e he => hw x e (hu x e he)

/-- The function is the same under assignments that agree on the atoms about names of `N`. -/
def Determines (N : String → Prop) (t : AtomTable) (f : Condition) : Prop :=
  ∀ a b : Nat → Bool, (∀ x e, t.atom x = .ok e → e.About N → a x = b x) → f a = f b

theorem Determines.mono (h : t.Determines N f) (hu : u.Extends t) : u.Determines N f :=
  fun a b hab => h a b fun x e he => hab x e (hu x e he)

theorem determines_const (t : AtomTable) (N : String → Prop) (value : Bool) :
    t.Determines N fun _ => value := fun _ _ _ => rfl

theorem Determines.not (h : t.Determines N f) : t.Determines N fun a => !f a :=
  fun a b hab => congrArg Bool.not (h a b hab)

theorem Determines.join (op : Bool → Bool → Bool) (hf : t.Determines N f)
    (hg : t.Determines N g) : t.Determines N fun a => op (f a) (g a) :=
  fun a b hab => congrArg₂ op (hf a b hab) (hg a b hab)

theorem Determines.choose {k : Condition} (hk : t.Determines N k) (hf : t.Determines N f)
    (hg : t.Determines N g) : t.Determines N fun a => bif k a then f a else g a :=
  fun a b hab => by simp only [hk a b hab, hf a b hab, hg a b hab]

/-- The guard of a piece looks at the atoms about names of `N` alone, and its expression is about
these names. -/
structure DeterminesPiece (N : String → Prop) (t : AtomTable) (p : Piece) : Prop where
  guard : t.Determines N p.guard
  reduced : p.value.Reduced
  about : p.value.About N

theorem DeterminesPiece.mono {p : Piece} (h : t.DeterminesPiece N p) (hu : u.Extends t) :
    u.DeterminesPiece N p :=
  { h with guard := h.guard.mono hu }

/-- All pieces of a list look at these atoms alone. -/
def DeterminesAll (N : String → Prop) (t : AtomTable) (ps : List Piece) : Prop :=
  ∀ p ∈ ps, t.DeterminesPiece N p

theorem DeterminesAll.mono {ps : List Piece} (h : t.DeterminesAll N ps) (hu : u.Extends t) :
    u.DeterminesAll N ps := fun p hp => (h p hp).mono hu

theorem DeterminesAll.append {ps qs : List Piece} (hps : t.DeterminesAll N ps)
    (hqs : t.DeterminesAll N qs) : t.DeterminesAll N (ps ++ qs) :=
  List.forall_mem_append.2 ⟨hps, hqs⟩

theorem DeterminesAll.map {ps : List Piece} {op : LinExpr → LinExpr}
    (hred : ∀ e : LinExpr, e.Reduced → (op e).Reduced)
    (habout : ∀ e : LinExpr, e.About N → (op e).About N) (hps : t.DeterminesAll N ps) :
    t.DeterminesAll N (ps.map fun p => ⟨p.guard, op p.value⟩) :=
  List.forall_mem_map.2 fun p hp => ⟨(hps p hp).guard, hred _ (hps p hp).reduced,
    habout _ (hps p hp).about⟩

end AtomTable

/-! ### Plans -/

namespace Plan

open AtomTable

variable {α β : Type} {P : AtomTable → α → Prop} {R : AtomTable → β → Prop} {t : AtomTable}

/-- Followed with the atoms of `t`, a plan keeps them, and its answer is as `P` says with the atoms
there are then. -/
structure ComesTo (P : AtomTable → α → Prop) (plan : Plan α) (t : AtomTable) : Prop where
  grows : (plan t).atoms.Extends t
  answer : P (plan t).atoms (plan t).value

namespace ComesTo

theorem pure {a : α} (h : P t a) : ComesTo P (Pure.pure a) t := ⟨Extends.refl t, h⟩

theorem bind {plan : Plan α} {next : α → Plan β} (h : ComesTo P plan t)
    (hnext : ∀ a u, u.Extends t → P u a → ComesTo R (next a) u) :
    ComesTo R (plan >>= next) t where
  grows := (hnext _ _ h.grows h.answer).grows.trans h.grows
  answer := (hnext _ _ h.grows h.answer).answer

end ComesTo

variable {N : String → Prop} {f g : Condition} {e : LinExpr} {ps qs : List Piece}

/-- The pieces of a list are made in tables that grow, so that those made first are still as they
were when the last ones have been made. -/
theorem collect_comesTo {plan : α → Plan (List Piece)} {as : List α}
    (h : ∀ a ∈ as, ∀ u, u.Extends t → ComesTo (DeterminesAll N) (plan a) u) :
    ComesTo (DeterminesAll N) (collect plan as) t := by
  induction as generalizing t with
  | nil => exact ComesTo.pure (List.forall_mem_nil _)
  | cons a as ih =>
    refine (h a List.mem_cons_self t (Extends.refl t)).bind fun here u hu hhere => ?_
    refine (ih fun b hb w hw => h b (List.mem_cons_of_mem a hb) w (hw.trans hu)).bind
      fun rest w hw hrest => ?_
    exact ComesTo.pure ((hhere.mono hw).append hrest)

/-- A condition that is gathered along a list stays one that looks at some atoms alone. -/
theorem foldlM_comesTo {plan : Condition → α → Plan Condition} {as : List α}
    (h : ∀ a ∈ as, ∀ u f, u.Extends t → u.Determines N f →
      ComesTo (Determines N) (plan f a) u) (hf : t.Determines N f) :
    ComesTo (Determines N) (as.foldlM plan f) t := by
  induction as generalizing t f with
  | nil => exact ComesTo.pure hf
  | cons a as ih =>
    rw [List.foldlM_cons]
    refine (h a List.mem_cons_self t f (Extends.refl t) hf).bind fun g u hu hg => ?_
    exact ih (fun b hb w k hw => h b (List.mem_cons_of_mem a hb) w k (hw.trans hu)) hg

theorem make_comesTo (hf : t.Determines N f) :
    ComesTo (Determines N) (make f) t := ⟨Extends.refl t, hf⟩

/-- An atom is a function that looks at itself alone. -/
theorem atom_comesTo (he : e.About N) : ComesTo (Determines N) (atom e) t where
  grows := t.extends_number e
  answer _ _ hab := hab _ e (t.atom_number e) he

theorem belowZero_comesTo (hred : e.Reduced) (he : e.About N) :
    ComesTo (Determines N) (belowZero e) t := by
  unfold belowZero
  split
  · exact ComesTo.pure (determines_const t N _)
  · exact atom_comesTo (he.normalized hred)

theorem complement_comesTo {plan : Plan Condition}
    (h : ComesTo (Determines N) plan t) :
    ComesTo (Determines N) (complement plan) t :=
  h.bind fun _ _ _ hf => ComesTo.pure hf.not

theorem isZero_comesTo (hred : e.Reduced) (he : e.About N) :
    ComesTo (Determines N) (isZero e) t := by
  refine (belowZero_comesTo hred he).bind fun below _ _ hbelow => ?_
  refine (belowZero_comesTo hred.neg he.neg).bind fun above w hw habove => ?_
  exact make_comesTo ((hbelow.mono hw).not.join and habove.not)

theorem relate_comesTo (r : Relation) (hred : e.Reduced) (he : e.About N) :
    ComesTo (Determines N) (relate r e) t := by
  cases r with
  | lt => exact belowZero_comesTo hred he
  | gt => exact belowZero_comesTo hred.neg he.neg
  | le => exact complement_comesTo (belowZero_comesTo hred.neg he.neg)
  | ge => exact complement_comesTo (belowZero_comesTo hred he)
  | eq => exact isZero_comesTo hred he
  | ne => exact complement_comesTo (isZero_comesTo hred he)

theorem pieceUnder_comesTo (hf : t.Determines N f) (hg : t.Determines N g) (hred : e.Reduced)
    (he : e.About N) :
    ComesTo (DeterminesAll N) (pieceUnder f g e) t := by
  refine (make_comesTo (hf.join and hg)).bind fun guard u _ hguard => ComesTo.pure ?_
  split
  · exact List.forall_mem_nil _
  · exact List.forall_mem_singleton.2 ⟨hguard, hred, he⟩

theorem restrict_comesTo (hf : t.Determines N f) (hps : t.DeterminesAll N ps) :
    ComesTo (DeterminesAll N) (restrict f ps) t :=
  collect_comesTo fun p hp _ hu => pieceUnder_comesTo ((hps p hp).guard.mono hu) (hf.mono hu)
    (hps p hp).reduced (hps p hp).about

theorem combine_comesTo {op : LinExpr → LinExpr → LinExpr}
    (hred : ∀ a b : LinExpr, a.Reduced → (op a b).Reduced)
    (habout : ∀ a b : LinExpr, a.About N → a.Reduced → b.About N → (op a b).About N)
    (hps : t.DeterminesAll N ps) (hqs : t.DeterminesAll N qs) :
    ComesTo (DeterminesAll N) (combine op ps qs) t := by
  refine collect_comesTo fun p hp _ hu => collect_comesTo fun q hq _ hw => ?_
  have hp := hps p hp
  have hq := hqs q hq
  exact pieceUnder_comesTo ((hp.guard.mono hu).mono hw) ((hq.guard.mono hu).mono hw)
    (hred _ _ hp.reduced) (habout _ _ hp.about hp.reduced hq.about)

theorem splitSigns_comesTo (hps : t.DeterminesAll N ps) :
    ComesTo (DeterminesAll N) (splitSigns ps) t := by
  refine collect_comesTo fun p hp _ hu => ?_
  have hp := (hps p hp).mono hu
  refine (belowZero_comesTo hp.reduced hp.about).bind fun negative v hv hnegative => ?_
  have hp := hp.mono hv
  refine (pieceUnder_comesTo hp.guard hnegative.not hp.reduced hp.about).bind
    fun kept w hw hkept => ?_
  -- the second piece is made where there may be more atoms than when the sign was asked for
  refine (pieceUnder_comesTo (hp.guard.mono hw) (hnegative.mono hw) hp.reduced.neg
    hp.about.neg).bind fun turned x hx hturned => ?_
  exact ComesTo.pure ((hkept.mono hx).append hturned)

theorem comparePieces_comesTo (r : Relation) {p q : Piece} (hp : t.DeterminesPiece N p)
    (hq : t.DeterminesPiece N q) (hf : t.Determines N f) :
    ComesTo (Determines N) (comparePieces r p f q) t := by
  refine (make_comesTo (hp.guard.join and hq.guard)).bind fun guard u hu hguard => ?_
  split
  · exact ComesTo.pure (hf.mono hu)
  · refine (relate_comesTo r (hp.reduced.sub q.value)
      (hp.about.sub hp.reduced hq.about)).bind fun related v hv hrelated => ?_
    refine (make_comesTo ((hguard.mono hv).join and hrelated)).bind fun piece w hw hpiece => ?_
    exact make_comesTo ((((hf.mono hu).mono hv).mono hw).join or hpiece)

theorem compareAll_comesTo (r : Relation) (hps : t.DeterminesAll N ps)
    (hqs : t.DeterminesAll N qs) :
    ComesTo (Determines N) (compareAll r ps qs) t :=
  foldlM_comesTo (fun p hp _ _ hu hf => foldlM_comesTo (fun q hq _ _ hw hg =>
    comparePieces_comesTo r (((hps p hp).mono hu).mono hw) (((hqs q hq).mono hu).mono hw) hg) hf)
    (determines_const t N false)

theorem joinFrom_comesTo (op : Bool → Bool → Bool) {gs : List Condition} (hf : t.Determines N f)
    (hgs : ∀ g ∈ gs, t.Determines N g) :
    ComesTo (Determines N) (joinFrom op f gs) t := by
  induction gs generalizing t f with
  | nil => exact ComesTo.pure hf
  | cons g gs ih =>
    obtain ⟨hg, hgs⟩ := List.forall_mem_cons.1 hgs
    exact (make_comesTo (hf.join op hg)).bind fun h u hu hh =>
      ih hh fun k hk => (hgs k hk).mono hu

end Plan

/-! ### Terms and formulas -/

open AtomTable Plan

variable {N : String → Prop}

mutual

/-- The pieces of a term look at the atoms about its symbolic constants alone. -/
theorem Term.outline_determined (a : Term) {t : AtomTable} (hN : ∀ x ∈ a.names, N x) :
    ComesTo (DeterminesAll N) a.outline t := by
  cases a with
  | var x =>
    exact ComesTo.pure (List.forall_mem_singleton.2 ⟨determines_const t N true,
      LinExpr.reduced_var x, LinExpr.about_var (hN x List.mem_cons_self)⟩)
  | const c =>
    exact ComesTo.pure (List.forall_mem_singleton.2 ⟨determines_const t N true,
      LinExpr.reduced_const c, LinExpr.about_const N c⟩)
  | add a b =>
    obtain ⟨hNa, hNb⟩ := List.forall_mem_append.1 hN
    refine (a.outline_determined hNa).bind fun ps u _ hps =>
      (b.outline_determined hNb).bind fun qs w hw hqs => ?_
    exact combine_comesTo (fun d e hd => hd.add e) (fun d e hd => hd.add) (hps.mono hw) hqs
  | sub a b =>
    obtain ⟨hNa, hNb⟩ := List.forall_mem_append.1 hN
    refine (a.outline_determined hNa).bind fun ps u _ hps =>
      (b.outline_determined hNb).bind fun qs w hw hqs => ?_
    exact combine_comesTo (fun d e hd => hd.sub e) (fun d e hd => hd.sub) (hps.mono hw) hqs
  | neg a =>
    exact (a.outline_determined hN).bind fun ps _ _ hps => ComesTo.pure
      (hps.map (fun e he => he.neg) fun e he => he.neg)
  | scale factor a =>
    exact (a.outline_determined hN).bind fun ps _ _ hps => ComesTo.pure
      (hps.map (fun e he => he.scaled factor) fun e he => he.scaled factor)
  | abs a => exact (a.outline_determined hN).bind fun ps _ _ hps => splitSigns_comesTo hps
  | ite c a b =>
    obtain ⟨hNca, hNb⟩ := List.forall_mem_append.1 hN
    obtain ⟨hNc, hNa⟩ := List.forall_mem_append.1 hNca
    refine (c.outline_determined hNc).bind fun test _ _ htest => ?_
    refine (a.outline_determined hNa).bind fun ps u hu hps => ?_
    have htest := htest.mono hu
    refine (restrict_comesTo htest hps).bind fun yes v hv hyes => ?_
    refine (b.outline_determined hNb).bind fun qs w hw hqs => ?_
    refine (restrict_comesTo ((htest.mono hv).mono hw).not hqs).bind fun no x hx hno => ?_
    exact ComesTo.pure (((hyes.mono hw).mono hx).append hno)

/-- The condition of a formula looks at the atoms about its symbolic constants alone. -/
theorem Formula.outline_determined (f : Formula) {t : AtomTable}
    (hN : ∀ x ∈ f.names, N x) : ComesTo (Determines N) f.outline t := by
  cases f with
  | true => exact ComesTo.pure (determines_const t N true)
  | false => exact ComesTo.pure (determines_const t N false)
  | compare a r b =>
    obtain ⟨hNa, hNb⟩ := List.forall_mem_append.1 hN
    exact (a.outline_determined hNa).bind fun ps _ _ hps =>
      (b.outline_determined hNb).bind fun qs w hw hqs => compareAll_comesTo r (hps.mono hw) hqs
  | not f => exact complement_comesTo (f.outline_determined hN)
  | and fs =>
    exact (Formula.outlineAll_determined fs hN).bind fun gs u _ hgs =>
      joinFrom_comesTo and (determines_const u N true) hgs
  | or fs =>
    exact (Formula.outlineAll_determined fs hN).bind fun gs u _ hgs =>
      joinFrom_comesTo or (determines_const u N false) hgs
  | implies f g =>
    obtain ⟨hNf, hNg⟩ := List.forall_mem_append.1 hN
    exact (f.outline_determined hNf).bind fun p _ _ hp =>
      (g.outline_determined hNg).bind fun q w hw hq => make_comesTo ((hp.mono hw).not.join or hq)
  | ite c f g =>
    obtain ⟨hNcf, hNg⟩ := List.forall_mem_append.1 hN
    obtain ⟨hNc, hNf⟩ := List.forall_mem_append.1 hNcf
    refine (c.outline_determined hNc).bind fun test _ _ htest => ?_
    refine (f.outline_determined hNf).bind fun yes v hv hyes => ?_
    refine (g.outline_determined hNg).bind fun no w hw hno => ?_
    exact make_comesTo (((htest.mono hv).mono hw).choose (hyes.mono hw) hno)

theorem Formula.outlineAll_determined (fs : List Formula) {t : AtomTable}
    (hN : ∀ x ∈ Formula.namesOfAll fs, N x) :
    ComesTo (fun u gs => ∀ g ∈ gs, u.Determines N g) (Formula.outlineAll fs) t := by
  cases fs with
  | nil => exact ComesTo.pure (List.forall_mem_nil _)
  | cons f fs =>
    obtain ⟨hNf, hNfs⟩ := List.forall_mem_append.1 hN
    refine (f.outline_determined hNf).bind fun g _ _ hg => ?_
    refine (Formula.outlineAll_determined fs hNfs).bind fun gs w hw hgs => ?_
    exact ComesTo.pure (List.forall_mem_cons.2 ⟨hg.mono hw, hgs⟩)

end

/-- Values and encodings depend on the collected names alone.  Two models that give the names of a
term the same values give the term the same value, and so for a formula.  Whatever atoms there are
when a formula is encoded, and also if the encoding stops with a fault, each atom is one of them or
has no symbolic constants but names of the formula.  And the function that the formula is encoded
as, in every skeleton that a run leads to, is the same under all assignments that agree on the
atoms about these names, whether they are new or not. -/
theorem names_suffice (a : Term) (f : Formula) :
    (∀ m n : Model, (∀ x ∈ a.nameSet.names, m.value x = n.value x) →
      m.evalTerm a = n.evalTerm a) ∧
    (∀ m n : Model, (∀ x ∈ f.nameSet.names, m.value x = n.value x) → m.eval f = n.eval f) ∧
    (∀ (s : Skeleton) x e, (f.encode.perform s).2.atoms.atom x = .ok e →
      s.atoms.atom x = .ok e ∨ e.About fun y => y ∈ f.nameSet.names) ∧
    ∀ s : Skeleton, s.Attained → (f.encode.perform s).2.manager.Addressable →
      ∃ r t, f.encode.perform s = (.ok r, t) ∧
        t.atoms.Determines (fun y => y ∈ f.nameSet.names) fun b => t.manager.holds b r := by
  have hmem : ∀ x ∈ f.names, x ∈ f.nameSet.names := fun x hx => NameSet.mem_names_ofList.2 hx
  refine ⟨fun m n h => ?_, fun m n h => ?_, fun s x e hx => ?_, fun s hs hfit => ?_⟩
  · exact a.eval_congr fun x hx => h x (NameSet.mem_names_ofList.2 hx)
  · exact f.eval_congr fun x hx => h x (hmem x hx)
  · exact f.encode_keeps (closed_about (fun y => y ∈ f.nameSet.names) s.atoms)
      (fun x hx => ⟨LinExpr.reduced_var x, LinExpr.about_var (hmem x hx)⟩) s
      (fun _ _ h => Or.inl h) x e hx
  · have wf := hs.wellFormed (f.encode_grows.addressable hfit)
    obtain ⟨r, t, hrun, -, -, hatoms, hr, -⟩ :=
      (f.encode_realizes wf fun _ _ => trivial).yields hfit
    -- the function of the reference is the condition of the outline, for the same atoms
    refine ⟨r, t, hrun, ?_⟩
    rw [hatoms, funext hr.meaning]
    exact (f.outline_determined hmem).answer

/-- The absolute value of a conditional whose condition has an absolute value in it, after a formula
about another name: neither the value of that name nor the atom about it makes a difference. -/
theorem names_suffice_nested :
    ∃ (a : Term) (m n : Model) (s t : Skeleton) (r : Ref),
      a = .abs (.ite ((Term.abs (.var "x")).lt (.const 1)) (.var "x") (.var "y")) ∧
      m.value "w" ≠ n.value "w" ∧ m.evalTerm a = n.evalTerm a ∧
      m.eval (a.lt (.var "x")) = n.eval (a.lt (.var "x")) ∧ t.atoms.atom 1 = .ok (.var "w") ∧
      (a.lt (.var "x")).encode.perform s = (.ok r, t) ∧
      ∀ b, t.manager.holds (Function.update b 1 true) r =
        t.manager.holds (Function.update b 1 false) r := by
  have hcreate : Skeleton.create 0 .closed = .ok
      ⟨⟨((HashCons.empty 0).add Node.terminal).2, ComputedTable.empty 0, .closed⟩, .empty⟩ := rfl
  obtain ⟨hterm, hformula, -, hencode⟩ := names_suffice
    (.abs (.ite ((Term.abs (.var "x")).lt (.const 1)) (.var "x") (.var "y")))
    ((Term.abs (.ite ((Term.abs (.var "x")).lt (.const 1)) (.var "x") (.var "y"))).lt (.var "x"))
  obtain ⟨r, t, hrun, hdetermines⟩ := hencode _ (.reached ((Skeleton.Reached.create hcreate).encode
    ((Term.var "w").lt .zero))) (by decide +kernel)
  have hatom : t.atoms.atom 1 = .ok (.var "w") := by
    obtain rfl : _ = t := congrArg Prod.snd hrun
    refine atom_eq_ok_iff.2 ⟨Nat.one_pos, ?_⟩
    decide +kernel
  refine ⟨_, OrderedMap.empty.insert "w" 1, .empty, _, t, r, rfl, by decide, hterm _ _ (by decide),
    hformula _ _ (by decide), hatom, hrun, fun b => hdetermines _ _ fun x e hx he => ?_⟩
  by_cases h : x = 1
  · subst h
    cases hatom.symm.trans hx
    exact absurd (he "w" (by decide)) (by decide)
  · rw [Function.update_of_ne h, Function.update_of_ne h]

end BrakeCheck
