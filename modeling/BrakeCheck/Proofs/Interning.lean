import BrakeCheck.Proofs.HalfSpace
import BrakeCheck.Proofs.Outline

/-!
# What encodings keep

An encoding changes a skeleton in two ways only: it makes choices between functions, and it asks
whether expressions are below zero.  A property of skeletons that both keep is kept by every
encoding, whatever happens, also if it stops with a fault.  The expressions it asks about are made
by the operations from the symbolic constants of the formula and from numbers, so that the second
condition has to be known for such expressions alone.

The property used here is one of the atoms: they are normal forms, and no two of them are equal.
Normal forms are half-spaces, so different variables of a skeleton stand for different half-spaces.

## Main definitions

* `Step.Upholds` — a property that a computation keeps, and what can be said of its answer.
* `Skeleton.Closed` — choices and questions keep a property of skeletons.
* `AtomTable.Canonical` — the atoms are normal forms and differ from each other.
* `AtomTable.Filled` — the tables of atoms that encodings lead to.

## Main statements

* `Term.caseSplit_upholds`, `Formula.encode_keeps` — what encodings keep.
* `AtomTable.Filled.canonical` — encodings keep atoms apart.
* `AtomTable.normalForms_are_halfSpaces` — normal forms, half-spaces and atoms are the same.
-/

namespace BrakeCheck

/-! ### Computations that keep a property -/

namespace Step

variable {σ α β : Type} {I : σ → Prop} {P : α → Prop} {R : β → Prop}

/-- The computation keeps a property of the state, also when it stops with a fault, and if it has an
answer, the answer is as `P` says. -/
def Upholds (I : σ → Prop) (step : Step σ α) (P : α → Prop) : Prop :=
  ∀ s, I s → I (step.perform s).2 ∧ ∀ a, (step.perform s).1 = .ok a → P a

theorem Keeps.upholds {step : Step σ α} (h : Keeps I step) : Upholds I step fun _ => True :=
  fun s hs => ⟨h s hs, fun _ _ => trivial⟩

theorem Upholds.keeps {step : Step σ α} (h : Upholds I step P) : Keeps I step :=
  fun s hs => (h s hs).1

theorem Upholds.pure {a : α} (h : P a) : Upholds I (Pure.pure a) P :=
  fun _ hs => ⟨hs, by rintro b ⟨⟩; exact h⟩

/-- The second of two computations may rely on what is said of the answer of the first one. -/
theorem Upholds.bind {step : Step σ α} {next : α → Step σ β} (h : Upholds I step P)
    (hnext : ∀ a, P a → Upholds I (next a) R) : Upholds I (step >>= next) R := by
  intro s hs
  obtain ⟨hkept, hanswer⟩ := h s hs
  rw [perform_bind]
  rcases hrun : step.perform s with ⟨answer, t⟩
  rw [hrun] at hkept hanswer
  cases answer with
  | error f => exact ⟨hkept, nofun⟩
  | ok a => exact hnext a (hanswer a rfl) t hkept

theorem Upholds.collect {f : α → Step σ (List β)} {as : List α}
    (h : ∀ a ∈ as, Upholds I (f a) fun bs => ∀ b ∈ bs, R b) :
    Upholds I (Step.collect f as) fun bs => ∀ b ∈ bs, R b := by
  induction as with
  | nil => exact Upholds.pure (by simp)
  | cons a as ih =>
    refine (h a List.mem_cons_self).bind fun here hhere => ?_
    refine (ih fun b hb => h b (List.mem_cons_of_mem a hb)).bind fun rest hrest => ?_
    exact Upholds.pure (List.forall_mem_append.2 ⟨hhere, hrest⟩)

theorem Keeps.foldlM {f : β → α → Step σ β} {as : List α}
    (h : ∀ a ∈ as, ∀ acc, Keeps I (f acc a)) : ∀ acc, Keeps I (as.foldlM f acc) := by
  induction as with
  | nil => exact fun acc => Keeps.pure acc
  | cons a as ih =>
    intro acc
    rw [List.foldlM_cons]
    exact (h a List.mem_cons_self acc).bind (ih fun b hb => h b (List.mem_cons_of_mem a hb))

end Step

/-! ### Choices and questions -/

namespace Skeleton

variable {I : Skeleton → Prop} {Q : LinExpr → Prop}

/-- Choices keep the property `I` of skeletons, and so do questions about expressions with the
property `Q`, which the operations on expressions keep. -/
structure Closed (I : Skeleton → Prop) (Q : LinExpr → Prop) : Prop where
  choose : ∀ c, Step.Keeps I (onManager (Manager.ite c))
  ask : ∀ e, Q e → Step.Keeps I (belowZero e)
  const : ∀ q, Q (.const q)
  add : ∀ a b, Q a → Q b → Q (a + b)
  sub : ∀ a b, Q a → Q b → Q (a - b)
  neg : ∀ a, Q a → Q (-a)
  scaled : ∀ a factor, Q a → Q (a.scaled factor)

/-- What interning keeps, a new entry in the journal aside. -/
theorem intern_keeps {e : LinExpr} (h : ∀ (s : Skeleton) journal, I s → e.isConstant = false →
    I ⟨{ s.manager with journal }, (s.atoms.number e).2⟩) : Step.Keeps I (intern e) := by
  intro s hs
  cases he : e.isConstant with
  | true =>
    have hrun : (intern e).perform s = (.error .groundAtom, s) := by simp [intern, he]
    rwa [hrun]
  | false =>
    obtain ⟨journal, hrun⟩ := perform_intern he s
    rw [hrun]
    exact h s journal hs he

theorem belowZero_keeps {e : LinExpr} (hintern : Step.Keeps I (intern e.normalized))
    (hvar : ∀ v, Step.Keeps I (onManager (Manager.mkVar v))) : Step.Keeps I (belowZero e) :=
  Step.Keeps.ite (Step.Keeps.pure _) (hintern.bind hvar)

section
variable (closed : Closed I Q)
include closed

/-- Joining the members of a list is a choice for each of them. -/
theorem joinUntil_keeps {join : Ref → Ref → Step Manager Ref}
    (hjoin : ∀ a b, ∃ c, join a b = Manager.ite c) (stop : Ref) (rs : List Ref) :
    ∀ acc, Step.Keeps I (onManager (joinUntil join stop acc rs)) := by
  induction rs with
  | nil => exact fun acc => Step.Keeps.pure acc
  | cons r rs ih =>
    intro acc
    obtain ⟨c, hc⟩ := hjoin acc r
    unfold joinUntil
    rw [onManager_bind, hc]
    refine (closed.choose c).bind fun acc => ?_
    split
    · exact Step.Keeps.pure acc
    · exact ih acc

theorem conjAll_keeps (rs : List Ref) : Step.Keeps I (onManager (Manager.conjAll rs)) := by
  rw [Manager.conjAll, conjFrom_eq_joinUntil]
  exact joinUntil_keeps closed (fun a b => ⟨⟨a, b, .zero⟩, rfl⟩) _ _ _

theorem disjAll_keeps (rs : List Ref) : Step.Keeps I (onManager (Manager.disjAll rs)) := by
  rw [Manager.disjAll, disjFrom_eq_joinUntil]
  exact joinUntil_keeps closed (fun a b => ⟨⟨a, .one, b⟩, rfl⟩) _ _ _

theorem isZero_keeps {e : LinExpr} (he : Q e) : Step.Keeps I (isZero e) :=
  (closed.ask e he).bind fun _ => (closed.ask _ (closed.neg e he)).bind fun _ => closed.choose _

theorem relate_keeps (r : Relation) {e : LinExpr} (he : Q e) : Step.Keeps I (relate r e) := by
  cases r with
  | lt => exact closed.ask e he
  | gt => exact closed.ask _ (closed.neg e he)
  | le => exact (closed.ask _ (closed.neg e he)).bind fun _ => Step.Keeps.pure _
  | ge => exact (closed.ask e he).bind fun _ => Step.Keeps.pure _
  | eq => exact isZero_keeps closed he
  | ne => exact (isZero_keeps closed he).bind fun _ => Step.Keeps.pure _

/-! ### Cases -/

theorem caseUnder_upholds (guard condition : Ref) {e : LinExpr} (he : Q e) :
    Step.Upholds I (caseUnder guard condition e) fun cs => ∀ c ∈ cs, Q c.value := by
  refine (closed.choose _).upholds.bind fun g _ => Step.Upholds.pure ?_
  split
  · simp
  · simpa using he

theorem restrict_upholds (condition : Ref) {cs : List Case} (hcs : ∀ c ∈ cs, Q c.value) :
    Step.Upholds I (restrict condition cs) fun cs => ∀ c ∈ cs, Q c.value :=
  Step.Upholds.collect fun c hc => caseUnder_upholds closed _ _ (hcs c hc)

theorem combine_upholds {op : LinExpr → LinExpr → LinExpr} (hop : ∀ a b, Q a → Q b → Q (op a b))
    {as bs : List Case} (has : ∀ a ∈ as, Q a.value) (hbs : ∀ b ∈ bs, Q b.value) :
    Step.Upholds I (combine op as bs) fun cs => ∀ c ∈ cs, Q c.value :=
  Step.Upholds.collect fun a ha => Step.Upholds.collect fun b hb =>
    caseUnder_upholds closed _ _ (hop _ _ (has a ha) (hbs b hb))

theorem splitSigns_upholds {cs : List Case} (hcs : ∀ c ∈ cs, Q c.value) :
    Step.Upholds I (splitSigns cs) fun cs => ∀ c ∈ cs, Q c.value := by
  refine Step.Upholds.collect fun c hc => ?_
  have he := hcs c hc
  refine (closed.ask _ he).upholds.bind fun negative _ => ?_
  refine (caseUnder_upholds closed _ _ he).bind fun kept hkept => ?_
  refine (caseUnder_upholds closed _ _ (closed.neg _ he)).bind fun turned hturned => ?_
  exact Step.Upholds.pure (List.forall_mem_append.2 ⟨hkept, hturned⟩)

theorem compareCases_keeps (r : Relation) {a b : Case} (ha : Q a.value) (hb : Q b.value)
    (acc : Ref) : Step.Keeps I (compareCases r a acc b) := by
  refine (closed.choose _).bind fun guard => Step.Keeps.ite (Step.Keeps.pure _) ?_
  refine (relate_keeps closed r (closed.sub _ _ ha hb)).bind fun holds => ?_
  exact (closed.choose _).bind fun piece => closed.choose _

theorem compareAll_keeps (r : Relation) {as bs : List Case} (has : ∀ a ∈ as, Q a.value)
    (hbs : ∀ b ∈ bs, Q b.value) : Step.Keeps I (compareAll r as bs) :=
  Step.Keeps.foldlM (fun a ha => Step.Keeps.foldlM fun b hb =>
    compareCases_keeps closed r (has a ha) (hbs b hb)) _

end

end Skeleton

/-! ### Encodings -/

open Skeleton

variable {I : Skeleton → Prop} {Q : LinExpr → Prop}

mutual

/-- The expressions of the cases of a term have the property that the operations keep. -/
theorem Term.caseSplit_upholds (a : Term) (closed : Closed I Q)
    (hQ : ∀ x ∈ a.names, Q (.var x)) :
    Step.Upholds I a.caseSplit fun cs => ∀ c ∈ cs, Q c.value := by
  cases a with
  | var x => exact Step.Upholds.pure (by simpa using hQ x List.mem_cons_self)
  | const c => exact Step.Upholds.pure (by simpa using closed.const c)
  | add a b =>
    obtain ⟨hQa, hQb⟩ := List.forall_mem_append.1 hQ
    exact (a.caseSplit_upholds closed hQa).bind fun as has => (b.caseSplit_upholds closed hQb).bind
      fun bs hbs => combine_upholds closed closed.add has hbs
  | sub a b =>
    obtain ⟨hQa, hQb⟩ := List.forall_mem_append.1 hQ
    exact (a.caseSplit_upholds closed hQa).bind fun as has => (b.caseSplit_upholds closed hQb).bind
      fun bs hbs => combine_upholds closed closed.sub has hbs
  | neg a =>
    exact (a.caseSplit_upholds closed hQ).bind fun cs hcs => Step.Upholds.pure
      (List.forall_mem_map.2 fun c hc => closed.neg _ (hcs c hc))
  | scale factor a =>
    exact (a.caseSplit_upholds closed hQ).bind fun cs hcs => Step.Upholds.pure
      (List.forall_mem_map.2 fun c hc => closed.scaled _ factor (hcs c hc))
  | abs a => exact (a.caseSplit_upholds closed hQ).bind fun cs hcs => splitSigns_upholds closed hcs
  | ite c a b =>
    obtain ⟨hQca, hQb⟩ := List.forall_mem_append.1 hQ
    obtain ⟨hQc, hQa⟩ := List.forall_mem_append.1 hQca
    refine (c.encode_keeps closed hQc).upholds.bind fun test _ => ?_
    refine (a.caseSplit_upholds closed hQa).bind fun as has => ?_
    refine (restrict_upholds closed _ has).bind fun yes hyes => ?_
    refine (b.caseSplit_upholds closed hQb).bind fun bs hbs => ?_
    refine (restrict_upholds closed _ hbs).bind fun no hno => ?_
    exact Step.Upholds.pure (List.forall_mem_append.2 ⟨hyes, hno⟩)

/-- Encodings keep what choices and questions do. -/
theorem Formula.encode_keeps (f : Formula) (closed : Closed I Q)
    (hQ : ∀ x ∈ f.names, Q (.var x)) : Step.Keeps I f.encode := by
  cases f with
  | true => exact Step.Keeps.pure _
  | false => exact Step.Keeps.pure _
  | compare a r b =>
    obtain ⟨hQa, hQb⟩ := List.forall_mem_append.1 hQ
    exact ((a.caseSplit_upholds closed hQa).bind fun as has => (b.caseSplit_upholds closed hQb).bind
      fun bs hbs => (compareAll_keeps closed r has hbs).upholds).keeps
  | not f => exact (f.encode_keeps closed hQ).bind fun _ => Step.Keeps.pure _
  | and fs => exact (Formula.encodeAll_keeps fs closed hQ).bind fun rs => conjAll_keeps closed rs
  | or fs => exact (Formula.encodeAll_keeps fs closed hQ).bind fun rs => disjAll_keeps closed rs
  | implies f g =>
    obtain ⟨hQf, hQg⟩ := List.forall_mem_append.1 hQ
    exact (f.encode_keeps closed hQf).bind fun _ => (g.encode_keeps closed hQg).bind
      fun _ => closed.choose _
  | ite c f g =>
    obtain ⟨hQcf, hQg⟩ := List.forall_mem_append.1 hQ
    obtain ⟨hQc, hQf⟩ := List.forall_mem_append.1 hQcf
    exact (c.encode_keeps closed hQc).bind fun _ => (f.encode_keeps closed hQf).bind fun _ =>
      (g.encode_keeps closed hQg).bind fun _ => closed.choose _

theorem Formula.encodeAll_keeps (fs : List Formula) (closed : Closed I Q)
    (hQ : ∀ x ∈ Formula.namesOfAll fs, Q (.var x)) : Step.Keeps I (Formula.encodeAll fs) := by
  cases fs with
  | nil => exact Step.Keeps.pure _
  | cons f fs =>
    obtain ⟨hQf, hQfs⟩ := List.forall_mem_append.1 hQ
    exact (f.encode_keeps closed hQf).bind fun _ =>
      (Formula.encodeAll_keeps fs closed hQfs).bind fun _ => Step.Keeps.pure _

end

/-! ### Atoms are normal forms -/

namespace AtomTable

variable {t : AtomTable}

/-- The atoms are normal forms of expressions with symbolic constants, and different numbers stand
for different ones. -/
structure Canonical (t : AtomTable) : Prop where
  reduced : ∀ x e, t.atom x = .ok e → e.Reduced
  nonconstant : ∀ x e, t.atom x = .ok e → e.isConstant = false
  normal : ∀ x e, t.atom x = .ok e → e.normalized = e
  distinct : ∀ x y e, t.atom x = .ok e → t.atom y = .ok e → x = y

theorem canonical_empty : Canonical .empty := by
  have noAtom : ∀ x e, empty.atom x ≠ .ok e := by
    intro x e hx
    have hle : 0 < x ∧ x ≤ 0 := le_size_of_atom hx
    omega
  exact ⟨fun x e hx => absurd hx (noAtom x e), fun x e hx => absurd hx (noAtom x e),
    fun x e hx => absurd hx (noAtom x e), fun x y e hx => absurd hx (noAtom x e)⟩

/-- A normal form that is numbered is an atom already, or is different from all of them. -/
theorem Canonical.number (h : t.Canonical) {e : LinExpr} (he : e.Reduced)
    (hconst : e.normalized.isConstant = false) : (t.number e.normalized).2.Canonical where
  reduced x d hd := by
    rcases atom_of_number hd with rfl | hd
    · exact he.normalized
    · exact h.reduced x d hd
  nonconstant x d hd := by
    rcases atom_of_number hd with rfl | hd
    · exact hconst
    · exact h.nonconstant x d hd
  normal x d hd := by
    rcases atom_of_number hd with rfl | hd
    · exact LinExpr.normalized_normalized he
    · exact h.normal x d hd
  distinct x y d hx hy := by
    unfold AtomTable.number at hx hy
    split at hx
    · next hfind =>
      rw [hfind] at hy
      exact h.distinct x y d hx hy
    · next hfind =>
      rw [hfind] at hy
      dsimp only at hx hy
      rw [atom_push] at hx hy
      split at hx <;> split at hy
      · next hx' hy' => rw [hx', hy']
      · cases hx
        exact absurd rfl (ne_of_find?_eq_none hfind hy)
      · cases hy
        exact absurd rfl (ne_of_find?_eq_none hfind hx)
      · exact h.distinct x y d hx hy

/-- Encodings keep the atoms normal and apart from each other. -/
theorem closed_canonical : Closed (fun s => s.atoms.Canonical) LinExpr.Reduced where
  choose _ _ h := h
  ask _ he := belowZero_keeps (intern_keeps fun _ _ h hconst => h.number he hconst) fun _ _ h => h
  const := LinExpr.reduced_const
  add _ b ha _ := ha.add b
  sub _ b ha _ := ha.sub b
  neg _ ha := ha.neg
  scaled _ factor ha := ha.scaled factor

/-- The tables of atoms that encodings lead to, over any stores of diagrams, also in the middle of a
formula, where a term has been divided into cases, and those that a fault has left. -/
inductive Filled : AtomTable → Prop where
  | empty : Filled .empty
  | encode {t : AtomTable} (h : Filled t) (m : Manager) (f : Formula) :
    Filled (f.encode.perform ⟨m, t⟩).2.atoms
  | caseSplit {t : AtomTable} (h : Filled t) (m : Manager) (a : Term) :
    Filled (a.caseSplit.perform ⟨m, t⟩).2.atoms

theorem Filled.canonical (h : t.Filled) : t.Canonical := by
  induction h with
  | empty => exact canonical_empty
  | encode h m f ih =>
    exact f.encode_keeps closed_canonical (fun x _ => LinExpr.reduced_var x) ⟨m, _⟩ ih
  | caseSplit h m a ih =>
    exact (a.caseSplit_upholds closed_canonical (fun x _ => LinExpr.reduced_var x)).keeps ⟨m, _⟩ ih

/-- Different atoms are below zero in different half-spaces. -/
theorem Canonical.not_sameHalfSpace (h : t.Canonical) {x y : Nat} {d e : LinExpr}
    (hx : t.atom x = .ok d) (hy : t.atom y = .ok e) (hne : x ≠ y) : ¬ d.SameHalfSpace e := by
  intro hsame
  have heq := (LinExpr.normalized_eq_iff (h.reduced x d hx) (h.reduced y e hy)
    (h.nonconstant x d hx)).2 hsame
  rw [h.normal x d hx, h.normal y e hy] at heq
  exact hne (h.distinct x y e (heq ▸ hx) hy)

/-- Normal forms are the half-spaces.  Expressions built by the operations that are not constant
have the same normal form exactly if they are below zero under the same models; a normal form is its
own normal form; and in all tables of atoms that encodings lead to, two variables stand for two
half-spaces. -/
theorem normalForms_are_halfSpaces :
    (∀ a b : LinExpr, a.Built → b.Built → a.isConstant = false → b.isConstant = false →
      (a.normalized = b.normalized ↔ a.SameHalfSpace b)) ∧
    (∀ a : LinExpr, a.Built → a.normalized.normalized = a.normalized) ∧
    ∀ t : AtomTable, t.Filled → ∀ x y d e, t.atom x = .ok d → t.atom y = .ok e → x ≠ y →
      ¬ d.SameHalfSpace e :=
  ⟨fun _ _ ha hb hconst _ => LinExpr.normalized_eq_iff ha.reduced hb.reduced hconst,
    fun _ ha => LinExpr.normalized_normalized ha.reduced,
    fun _ h _ _ _ _ hx hy hne => h.canonical.not_sameHalfSpace hx hy hne⟩

/-- A multiple has the normal form of the expression, and two comparisons with the same number are
two atoms. -/
theorem normalForms_are_halfSpaces_scaled :
    ((LinExpr.var "x" - .const 1).scaled 2).normalized = (LinExpr.var "x" - .const 1).normalized ∧
    ∃ t : AtomTable, t.Filled ∧ t.atom 1 = .ok (.var "x" - .const 1) ∧
      t.atom 2 = .ok (.const 1 - .var "x") ∧
      ¬ (LinExpr.var "x" - .const 1).SameHalfSpace (.const 1 - .var "x") := by
  obtain ⟨hsame, -, hatoms⟩ := normalForms_are_halfSpaces
  have hbuilt := (LinExpr.Built.var "x").sub (.const 1)
  refine ⟨(hsame _ _ (hbuilt.scaled 2) hbuilt rfl rfl).2 fun m => ?_, ?_⟩
  · rw [LinExpr.eval_scaled]
    constructor <;> intro h <;> linarith
  · obtain ⟨t, hfilled, hexprs⟩ : ∃ t : AtomTable, t.Filled ∧
        t.exprs = #[.var "x" - .const 1, .const 1 - .var "x"] :=
      ⟨_, Filled.empty.encode
        ⟨((HashCons.empty 0).add Node.terminal).2, ComputedTable.empty 0, .closed⟩
        (.and [(Term.var "x").lt (.const 1), .compare (.var "x") .le (.const 1)]),
        by decide +kernel⟩
    have hfirst : t.atom 1 = .ok (.var "x" - .const 1) :=
      atom_eq_ok_iff.2 ⟨Nat.one_pos, by rw [hexprs]; rfl⟩
    have hsecond : t.atom 2 = .ok (.const 1 - .var "x") :=
      atom_eq_ok_iff.2 ⟨Nat.two_pos, by rw [hexprs]; rfl⟩
    exact ⟨t, hfilled, hfirst, hsecond, hatoms t hfilled 1 2 _ _ hfirst hsecond (by decide)⟩

end AtomTable

end BrakeCheck
