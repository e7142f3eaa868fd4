import BrakeCheck.Proofs.Confined
import BrakeCheck.Proofs.Encoding

/-!
# Encodings without a store

What an encoding makes of a formula does not depend on what the store holds already.  The outline
of an encoding is the same computation with Boolean functions of the atoms in place of references,
so that the table of atoms is the only state it has.  Every encoding follows its outline: the atoms
it makes and the functions it answers with are determined by the formula and by the atoms there
were before.

An outline also keeps account of the functions that are made on the way.  All of them are stored
when the encoding has ended, and the encoding makes no others: it stays in every scope to which
they belong.

## Main definitions

* `Plan` — a computation on the table of atoms that keeps account of the functions it makes.
* `Piece` — a linear expression under a guard.
* `Term.outline`, `Formula.outline` — the pieces of a term and the condition of a formula.
* `Skeleton.Realizes` — a computation comes to what a plan says.

## Main statements

* `Skeleton.Realizes.bind` — plans are followed step by step.
* `Term.caseSplit_realizes`, `Formula.encode_realizes` — encodings follow their outlines.
-/

namespace BrakeCheck

/-- A linear expression, and the condition under which it is the value meant. -/
structure Piece where
  guard : Condition
  value : LinExpr

/-- What a plan comes to: its answer, the atoms there are then, and the functions made on the
way. -/
structure Draft (α : Type) where
  value : α
  atoms : AtomTable
  made : Set Condition

/-- A computation on the table of atoms that keeps account of the functions it makes. -/
def Plan (α : Type) : Type := AtomTable → Draft α

instance : Monad Plan where
  pure a := fun atoms => ⟨a, atoms, ∅⟩
  bind plan next := fun atoms =>
    let first := plan atoms
    let second := next first.value first.atoms
    ⟨second.value, second.atoms, first.made ∪ second.made⟩

namespace Plan

variable {α β : Type}

@[simp] theorem bind_value (plan : Plan α) (next : α → Plan β) (t : AtomTable) :
    ((plan >>= next) t).value = (next (plan t).value (plan t).atoms).value := rfl

@[simp] theorem bind_atoms (plan : Plan α) (next : α → Plan β) (t : AtomTable) :
    ((plan >>= next) t).atoms = (next (plan t).value (plan t).atoms).atoms := rfl

@[simp] theorem bind_made (plan : Plan α) (next : α → Plan β) (t : AtomTable) :
    ((plan >>= next) t).made = (plan t).made ∪ (next (plan t).value (plan t).atoms).made := rfl

end Plan

/-! ### Outlines -/

namespace Plan

/-- A function is made. -/
def make (f : Condition) : Plan Condition := fun atoms => ⟨f, atoms, {f}⟩

/-- The variable of the atom with an expression, which becomes a new atom if there is none. -/
def atom (e : LinExpr) : Plan Condition := fun atoms =>
  make (fun a => a (atoms.number e).1) (atoms.number e).2

/-- The pieces that a plan makes of the members of a list, one after the other. -/
def collect {α : Type} (f : α → Plan (List Piece)) : List α → Plan (List Piece)
  | [] => pure []
  | a :: as => do
    let here ← f a
    let rest ← collect f as
    return here ++ rest

/-- The condition that an expression is below zero. -/
def belowZero (e : LinExpr) : Plan Condition :=
  if e.isConstant then pure fun _ => e.constant < 0
  else atom e.normalized

/-- The condition that an expression is zero. -/
def isZero (e : LinExpr) : Plan Condition := do
  let below ← belowZero e
  let above ← belowZero (-e)
  make fun a => !below a && !above a

/-- The opposite of the condition that a plan comes to. -/
def complement (plan : Plan Condition) : Plan Condition := do
  let f ← plan
  return fun a => !f a

/-- The condition that an expression stands to zero in a relation. -/
def relate (r : Relation) (e : LinExpr) : Plan Condition :=
  match r with
  | .lt => belowZero e
  | .gt => belowZero (-e)
  | .le => complement (belowZero (-e))
  | .ge => complement (belowZero e)
  | .eq => isZero e
  | .ne => complement (isZero e)

open Classical in
/-- The piece that is meant where both conditions hold; none if that is nowhere. -/
noncomputable def pieceUnder (f g : Condition) (e : LinExpr) : Plan (List Piece) := do
  let guard ← make fun a => f a && g a
  return if ∀ a, guard a = false then [] else [⟨guard, e⟩]

/-- What remains of pieces under a further condition. -/
noncomputable def restrict (f : Condition) (ps : List Piece) : Plan (List Piece) :=
  collect (fun p => pieceUnder p.guard f p.value) ps

/-- The pieces of an operation on two terms, given the pieces of either. -/
noncomputable def combine (op : LinExpr → LinExpr → LinExpr) (ps qs : List Piece) :
    Plan (List Piece) :=
  collect (fun p => collect (fun q => pieceUnder p.guard q.guard (op p.value q.value)) qs) ps

/-- The pieces of an absolute value: each piece is split by the sign of its value. -/
noncomputable def splitSigns (ps : List Piece) : Plan (List Piece) :=
  collect (fun p => do
    let negative ← belowZero p.value
    let kept ← pieceUnder p.guard (fun a => !negative a) p.value
    let turned ← pieceUnder p.guard negative (-p.value)
    return kept ++ turned) ps

open Classical in
/-- Adds to a condition that two pieces are meant together and their values stand in a relation. -/
noncomputable def comparePieces (r : Relation) (p : Piece) (f : Condition) (q : Piece) :
    Plan Condition := do
  let guard ← make fun a => p.guard a && q.guard a
  if ∀ a, guard a = false then return f
  let related ← relate r (p.value - q.value)
  let piece ← make fun a => guard a && related a
  make fun a => f a || piece a

/-- The condition that two terms stand in a relation, given the pieces of either. -/
noncomputable def compareAll (r : Relation) (ps qs : List Piece) : Plan Condition :=
  ps.foldlM (fun f p => qs.foldlM (comparePieces r p) f) fun _ => false

/-- The condition that comes of `f` and the members of a list, joined one after the other. -/
def joinFrom (op : Bool → Bool → Bool) (f : Condition) : List Condition → Plan Condition
  | [] => pure f
  | g :: gs => do joinFrom op (← make fun a => op (f a) (g a)) gs

end Plan

open Plan

mutual

/-- The pieces of a term. -/
noncomputable def Term.outline : Term → Plan (List Piece)
  | .var x => pure [⟨fun _ => true, .var x⟩]
  | .const c => pure [⟨fun _ => true, .const c⟩]
  | .add a b => do
    let ps ← a.outline
    let qs ← b.outline
    combine (· + ·) ps qs
  | .sub a b => do
    let ps ← a.outline
    let qs ← b.outline
    combine (· - ·) ps qs
  | .neg a => do return (← a.outline).map fun p => ⟨p.guard, -p.value⟩
  | .scale factor a => do return (← a.outline).map fun p => ⟨p.guard, p.value.scaled factor⟩
  | .abs a => do splitSigns (← a.outline)
  | .ite c a b => do
    let test ← c.outline
    let yes ← restrict test (← a.outline)
    let no ← restrict (fun x => !test x) (← b.outline)
    return yes ++ no

/-- The condition of a formula. -/
noncomputable def Formula.outline : Formula → Plan Condition
  | .true => pure fun _ => Bool.true
  | .false => pure fun _ => Bool.false
  | .compare a r b => do
    let ps ← a.outline
    let qs ← b.outline
    compareAll r ps qs
  | .not f => complement f.outline
  | .and fs => do joinFrom and (fun _ => Bool.true) (← Formula.outlineAll fs)
  | .or fs => do joinFrom or (fun _ => Bool.false) (← Formula.outlineAll fs)
  | .implies f g => do
    let p ← f.outline
    let q ← g.outline
    make fun a => !p a || q a
  | .ite c f g => do
    let test ← c.outline
    let yes ← f.outline
    let no ← g.outline
    make fun a => bif test a then yes a else no a

/-- The conditions of a list of formulas. -/
noncomputable def Formula.outlineAll : List Formula → Plan (List Condition)
  | [] => pure []
  | f :: fs => do
    let g ← f.outline
    let gs ← Formula.outlineAll fs
    return g :: gs

end

/-! ### Following a plan -/

namespace Skeleton

/-- A reference stands for a condition. -/
def Stands (s : Skeleton) (r : Ref) (f : Condition) : Prop := s.manager.Denotes r f

/-- A case stands for a piece, and its expression is fit to become an atom about names of `N`. -/
structure Matches (N : String → Prop) (s : Skeleton) (c : Case) (p : Piece) : Prop where
  guard : s.Stands c.guard p.guard
  value : c.value = p.value
  reduced : c.value.Reduced
  names : ∀ y ∈ c.value.vars, N y

/-- The store of the skeleton is inside a family of functions. -/
def Inside (F : Set Condition) (s : Skeleton) : Prop := s.manager.Inside F

/-- Started in the skeleton `s`, a computation comes to what a plan says for the atoms of `s`: it
leaves the atoms of the plan, what it answers stands for the answer of the plan, and the functions
made on the way are stored; and it makes no others, so that it stays in a scope that has them. -/
structure Realizes {α β : Type} (N : String → Prop) (R : Skeleton → α → β → Prop)
    (step : Step Skeleton α) (plan : Plan β) (s : Skeleton) : Prop where
  yields : Step.Yields step s fun a t => t.WellFormed N ∧ t.atoms = (plan s.atoms).atoms ∧
    R t a (plan s.atoms).value ∧ ∀ f ∈ (plan s.atoms).made, t.manager.Stores f
  stays : ∀ {F}, Manager.Scope F → s.Inside F → (plan s.atoms).made ⊆ F →
    Step.Stays (Inside F) step s

variable {α β γ δ : Type} {N : String → Prop} {s t : Skeleton}

theorem Stands.mono (wf : s.WellFormed N) (hext : t.Extends s) {r : Ref} {f : Condition}
    (h : s.Stands r f) : t.Stands r f :=
  Manager.Denotes.mono wf.manager hext.manager h

theorem Stands.neg {r : Ref} {f : Condition} (h : s.Stands r f) : s.Stands (-r) fun a => !f a :=
  ⟨h.has, fun a => by rw [Manager.holds_neg, h.meaning]⟩

theorem stands_one (wf : s.WellFormed N) : s.Stands .one fun _ => true :=
  ⟨wf.manager.has_one, fun _ => Manager.holds_one _ _⟩

theorem stands_zero (wf : s.WellFormed N) : s.Stands .zero fun _ => false :=
  ⟨wf.manager.has_zero, fun _ => Manager.holds_zero _ _⟩

/-- A reference is the constant false exactly if its condition never holds. -/
theorem Stands.eq_zero_iff (wf : s.WellFormed N) {r : Ref} {f : Condition} (h : s.Stands r f) :
    r = .zero ↔ ∀ a, f a = false := by
  rw [Manager.eq_zero_iff wf.manager h.has]
  exact forall_congr' fun a => by rw [h.meaning]

theorem Stands.eq_one_iff (wf : s.WellFormed N) {r : Ref} {f : Condition} (h : s.Stands r f) :
    r = .one ↔ ∀ a, f a = true := by
  rw [Manager.eq_one_iff wf.manager h.has]
  exact forall_congr' fun a => by rw [h.meaning]

theorem Matches.mono (wf : s.WellFormed N) (hext : t.Extends s) {c : Case} {p : Piece}
    (h : s.Matches N c p) : t.Matches N c p :=
  { h with guard := h.guard.mono wf hext }

theorem matches_mono (wf : s.WellFormed N) (hext : t.Extends s) {cs : List Case} {ps : List Piece}
    (h : List.Forall₂ (s.Matches N) cs ps) : List.Forall₂ (t.Matches N) cs ps :=
  h.imp fun _ _ hcp => hcp.mono wf hext

/-- An operation on the expressions of all cases. -/
theorem matches_map {op : LinExpr → LinExpr} (hreduced : ∀ e, e.Reduced → (op e).Reduced)
    (hvars : ∀ e, ∀ y ∈ (op e).vars, y ∈ e.vars) {cs : List Case} {ps : List Piece}
    (h : List.Forall₂ (s.Matches N) cs ps) :
    List.Forall₂ (s.Matches N) (cs.map fun c => ⟨c.guard, op c.value⟩)
      (ps.map fun p => ⟨p.guard, op p.value⟩) := by
  induction h with
  | nil => exact .nil
  | cons hcp _ ih =>
    exact .cons ⟨hcp.guard, congrArg op hcp.value, hreduced _ hcp.reduced,
      fun y hy => hcp.names y (hvars _ y hy)⟩ ih

/-- References have room for a skeleton whose store is inside a scope. -/
theorem addressable_of_inside {F : Set Condition} (hF : Manager.Scope F) (t : Skeleton)
    (h : t.Inside F) : Growing.Addressable t :=
  hF.fits t.manager h

theorem stays_onManager {F : Set Condition} {step : Step Manager α}
    (h : Step.Stays (Manager.Inside F) step s.manager) : Step.Stays (Inside F) (onManager step) s := by
  obtain ⟨a, m, hrun, hext, hm⟩ := h
  exact ⟨a, ⟨m, s.atoms⟩, by rw [perform_onManager, hrun], ⟨hext, fun _ _ h => h⟩, hm⟩

namespace Realizes

variable {R : Skeleton → α → β → Prop} {Q : Skeleton → γ → δ → Prop}

theorem pure (wf : s.WellFormed N) {a : α} {b : β} (h : R s a b) :
    Realizes N R (Pure.pure a) (Pure.pure b) s where
  yields := Step.Yields.pure ⟨wf, rfl, h, fun _ hf => absurd hf (Set.notMem_empty _)⟩
  stays _ hs _ := Step.Stays.pure hs a

/-- Plans are followed step by step. -/
theorem bind {step : Step Skeleton α} {plan : Plan β} (h : Realizes N R step plan s)
    {next : α → Step Skeleton γ} {rest : β → Plan δ} (hgrows : ∀ a, Step.Grows (next a))
    (hnext : ∀ a b t, t.Extends s → t.WellFormed N → R t a b →
      Realizes N Q (next a) (rest b) t) :
    Realizes N Q (step >>= next) (plan >>= rest) s where
  yields := by
    refine h.yields.bind hgrows fun a t hext ⟨wft, hatoms, ha, hmade⟩ => ?_
    have hrest := (hnext a _ t hext wft ha).yields
    rw [hatoms] at hrest
    refine hrest.imp fun b u hu ⟨wfu, hatomsu, hb, hmadeu⟩ => ⟨wfu, hatomsu, hb, ?_⟩
    rintro f (hf | hf)
    · exact (hmade f hf).mono wft.manager hu.manager
    · exact hmadeu f hf
  stays := by
    intro F hF hs hmade
    have hfirst := h.stays hF hs fun f hf => hmade (Or.inl hf)
    refine (hfirst.yields (addressable_of_inside hF) h.yields).bind
      fun a t hext ⟨ht, wft, hatoms, ha, _⟩ => ?_
    have hrest := (hnext a _ t hext wft ha).stays hF ht
    rw [hatoms] at hrest
    exact hrest fun f hf => hmade (Or.inr hf)

/-- Two steps of a plan, and one that uses both of their answers: what the first answer stands for
is still so when the second step has been made. -/
theorem pair {ι κ : Type} {S : Skeleton → ι → κ → Prop} {first : Step Skeleton α} {plan : Plan β}
    {second : Step Skeleton γ} {further : Plan δ} {next : α → γ → Step Skeleton ι}
    {rest : β → δ → Plan κ} (hfirst : Realizes N R first plan s)
    (hsecond : ∀ t, t.WellFormed N → Realizes N Q second further t)
    (hlasts : ∀ {a b t u}, t.WellFormed N → u.Extends t → R t a b → R u a b)
    (hgrows : Step.Grows second) (hnext : ∀ a c, Step.Grows (next a c))
    (h : ∀ a b c d u, u.Extends s → u.WellFormed N → R u a b → Q u c d →
      Realizes N S (next a c) (rest b d) u) :
    Realizes N S (first >>= fun a => second >>= next a)
      (plan >>= fun b => further >>= rest b) s := by
  refine hfirst.bind (fun a => hgrows.bind (hnext a)) fun a b t hext wft hab => ?_
  refine (hsecond t wft).bind (hnext a) fun c d u hu wfu hcd => ?_
  exact h a b c d u (hu.trans hext) wfu (hlasts wft hu hab) hcd

/-- A step that makes neither atoms nor functions has no part in the plan, which knows what it comes
to. -/
theorem after {step : Step Skeleton α} {b : β} (h : Realizes N R step (Pure.pure b) s)
    {next : α → Step Skeleton γ} {plan : Plan δ} (hgrows : ∀ a, Step.Grows (next a))
    (hnext : ∀ a t, t.Extends s → t.WellFormed N → R t a b → Realizes N Q (next a) plan t) :
    Realizes N Q (step >>= next) plan s where
  yields := by
    refine h.yields.bind hgrows fun a t hext ⟨wft, hatoms, ha, _⟩ => ?_
    have hrest := (hnext a t hext wft ha).yields
    rw [hatoms] at hrest
    exact hrest
  stays := by
    intro F hF hs hmade
    have hfirst := h.stays hF hs (Set.empty_subset F)
    refine (hfirst.yields (addressable_of_inside hF) h.yields).bind
      fun a t hext ⟨ht, wft, hatoms, ha, _⟩ => ?_
    have hrest := (hnext a t hext wft ha).stays hF ht
    rw [hatoms] at hrest
    exact hrest hmade

/-- A computation that grows may be taken to start in a skeleton that can be addressed. -/
theorem of_addressable {step : Step Skeleton α} {plan : Plan β} (hgrows : Step.Grows step)
    (h : s.manager.Addressable → Realizes N R step plan s) : Realizes N R step plan s where
  yields := Step.Yields.of_addressable hgrows fun hfit => (h hfit).yields
  stays hF hs := (h (hF.fits s.manager hs)).stays hF hs

/-- A partial reading of the skeleton that succeeds has no part in the plan. -/
theorem after_query {read : Skeleton → Except Fault α} {next : α → Step Skeleton γ} {plan : Plan δ}
    {a : α} (hread : read s = .ok a) (h : Realizes N Q (next a) plan s) :
    Realizes N Q (Step.query read >>= next) plan s where
  yields := Step.Yields.after_query hread h.yields
  stays hF hs hmade := Step.Ends.after_query hread (h.stays hF hs hmade)

/-- The pieces of lists whose members match one by one. -/
theorem collect {f : α → Step Skeleton (List Case)} {g : β → Plan (List Piece)}
    (hgrows : ∀ a, Step.Grows (f a)) {S : α → β → Prop} {as : List α} {bs : List β}
    (hab : List.Forall₂ S as bs) (wf : s.WellFormed N)
    (h : ∀ a b, S a b → ∀ t : Skeleton, t.Extends s → t.WellFormed N →
      Realizes N (fun u => List.Forall₂ (u.Matches N)) (f a) (g b) t) :
    Realizes N (fun u => List.Forall₂ (u.Matches N)) (Step.collect f as) (Plan.collect g bs) s := by
  induction hab generalizing s with
  | nil => exact pure wf .nil
  | @cons a b as bs hab _ ih =>
    refine (h a b hab s (Extends.refl s) wf).bind
      (fun _ => (Step.Grows.collect hgrows as).bind fun _ => Step.Grows.pure _)
      fun here ps t hext wft hhere => ?_
    refine (ih wft fun a b hab u hu => h a b hab u (hu.trans hext)).bind
      (fun _ => Step.Grows.pure _) fun rest qs u hu wfu hrest => ?_
    exact pure wfu (List.rel_append (matches_mono wft hu hhere) hrest)

/-- A condition is gathered along lists whose members match one by one. -/
theorem foldlM {f : Ref → α → Step Skeleton Ref} {g : Condition → β → Plan Condition}
    (hgrows : ∀ r a, Step.Grows (f r a)) {S : α → β → Prop} {as : List α} {bs : List β}
    (hab : List.Forall₂ S as bs) (wf : s.WellFormed N)
    (h : ∀ a b, S a b → ∀ (t : Skeleton) acc k, t.Extends s → t.WellFormed N → t.Stands acc k →
      Realizes N Stands (f acc a) (g k b) t)
    {acc : Ref} {k : Condition} (hacc : s.Stands acc k) :
    Realizes N Stands (as.foldlM f acc) (bs.foldlM g k) s := by
  induction hab generalizing s acc k with
  | nil => exact pure wf hacc
  | @cons a b as bs hab _ ih =>
    rw [List.foldlM_cons, List.foldlM_cons]
    refine (h a b hab s acc k (Extends.refl s) wf hacc).bind (fun q => foldlM_grows hgrows as q)
      fun q l t hext wft hq => ?_
    exact ih wft (fun a b hab u acc k hu => h a b hab u acc k (hu.trans hext)) hq

end Realizes

/-! ### Connectives -/

section
variable {a b c : Ref} {f g k : Condition}

/-- A computation on the store that makes a function of the atoms there are. -/
theorem onManager_realizes (wf : s.WellFormed N) {step : Step Manager Ref}
    (hkeeps : Step.Keeps (Manager.Within s.atoms.size) step)
    (h : Step.Yields step s.manager fun r m => m.WellFormed ∧ m.Denotes r f)
    (hstays : ∀ {F}, Manager.Scope F → s.manager.Inside F → f ∈ F →
      Step.Stays (Manager.Inside F) step s.manager) :
    Realizes N Stands (onManager step) (make f) s where
  yields := (onManager_yields wf hkeeps h).imp fun r _ _ ⟨wft, hatoms, hr⟩ =>
    ⟨wft, hatoms, hr, fun _ hg => Set.mem_singleton_iff.1 hg ▸ ⟨r, hr⟩⟩
  stays hF hs hmade := stays_onManager (hstays hF hs (hmade rfl))

theorem ite_realizes (wf : s.WellFormed N) (hc : s.Stands c k) (ha : s.Stands a f)
    (hb : s.Stands b g) :
    Realizes N Stands (onManager (Manager.ite ⟨c, a, b⟩))
      (make fun x => bif k x then f x else g x) s := by
  have hmeaning : (s.manager.chooses · ⟨c, a, b⟩) = fun x => bif k x then f x else g x := by
    funext x
    rw [Manager.chooses, hc.meaning, ha.meaning, hb.meaning]
  refine onManager_realizes wf (Manager.ite_keeps (Manager.kept_within _) _) ?_
    fun hF hs hmade => Manager.ite_stays hF hs ⟨hc.has, ha.has, hb.has⟩ (hmeaning ▸ hmade)
  exact (Manager.ite_denotes wf.manager hc.has ha.has hb.has).imp fun r m _ h =>
    ⟨h.1, h.2.has, fun x => (h.2.meaning x).trans (congrFun hmeaning x)⟩

theorem conj_realizes (wf : s.WellFormed N) (ha : s.Stands a f) (hb : s.Stands b g) :
    Realizes N Stands (onManager (Manager.conj a b)) (make fun x => f x && g x) s := by
  have h := ite_realizes wf ha hb (stands_zero wf)
  simp only [Bool.cond_false_right] at h
  exact h

theorem disj_realizes (wf : s.WellFormed N) (ha : s.Stands a f) (hb : s.Stands b g) :
    Realizes N Stands (onManager (Manager.disj a b)) (make fun x => f x || g x) s := by
  have h := ite_realizes wf ha (stands_one wf) hb
  simp only [Bool.cond_true_left] at h
  exact h

theorem imp_realizes (wf : s.WellFormed N) (ha : s.Stands a f) (hb : s.Stands b g) :
    Realizes N Stands (onManager (Manager.imp a b)) (make fun x => !f x || g x) s := by
  have h := ite_realizes wf ha hb (stands_one wf)
  simp only [Bool.cond_true_right] at h
  exact h

/-- Once a join is settled nothing is made of the rest of the list but the same constant. -/
theorem joinFrom_settled {op : Bool → Bool → Bool} {value : Bool} (hop : ∀ b, op value b = value)
    (hf : ∀ x, f x = value) (gs : List Condition) (atoms : AtomTable) :
    (joinFrom op f gs atoms).atoms = atoms ∧ (∀ x, (joinFrom op f gs atoms).value x = value) ∧
      ∀ h ∈ (joinFrom op f gs atoms).made, ∀ x, h x = value := by
  induction gs generalizing f with
  | nil => exact ⟨rfl, hf, fun _ h => absurd h (Set.notMem_empty _)⟩
  | cons g gs ih =>
    have hfg : ∀ x, op (f x) (g x) = value := fun x => by rw [hf, hop]
    obtain ⟨hatoms, hvalue, hmade⟩ := ih hfg
    refine ⟨hatoms, hvalue, ?_⟩
    rintro h (rfl | hh)
    · exact hfg
    · exact hmade h hh

/-- The members of a list are joined with `acc` until that is `stop`. -/
def joinUntil (join : Ref → Ref → Step Manager Ref) (stop acc : Ref) : List Ref → Step Manager Ref
  | [] => pure acc
  | r :: rs => do
    let acc ← join acc r
    if acc = stop then return acc else joinUntil join stop acc rs

theorem conjFrom_eq_joinUntil (acc : Ref) (rs : List Ref) :
    Manager.conjFrom acc rs = joinUntil Manager.conj .zero acc rs := by
  induction rs generalizing acc with
  | nil => rfl
  | cons r rs ih => simp only [Manager.conjFrom, joinUntil, ih]

theorem disjFrom_eq_joinUntil (acc : Ref) (rs : List Ref) :
    Manager.disjFrom acc rs = joinUntil Manager.disj .one acc rs := by
  induction rs generalizing acc with
  | nil => rfl
  | cons r rs ih => simp only [Manager.disjFrom, joinUntil, ih]

theorem joinUntil_grows {join : Ref → Ref → Step Manager Ref} (hgrows : ∀ a b, Step.Grows (join a b))
    (stop : Ref) (rs : List Ref) : ∀ acc, Step.Grows (joinUntil join stop acc rs) := by
  induction rs with
  | nil => exact fun acc => Step.Grows.pure acc
  | cons r rs ih =>
    exact fun acc => (hgrows acc r).bind fun acc => Step.Grows.ite (Step.Grows.pure _) (ih acc)

/-- A join stops early only where it is settled. -/
theorem joinUntil_realizes {join : Ref → Ref → Step Manager Ref} {op : Bool → Bool → Bool}
    {stop : Ref} {value : Bool} (hgrows : ∀ a b, Step.Grows (join a b))
    (hop : ∀ b, op value b = value)
    (hstop : ∀ {s : Skeleton} {r f}, s.WellFormed N → s.Stands r f →
      (r = stop ↔ ∀ x, f x = value))
    (hjoin : ∀ {s : Skeleton} {a b f g}, s.WellFormed N → s.Stands a f → s.Stands b g →
      Realizes N Stands (onManager (join a b)) (make fun x => op (f x) (g x)) s)
    (wf : s.WellFormed N) (ha : s.Stands a f) {rs : List Ref} {gs : List Condition}
    (h : List.Forall₂ s.Stands rs gs) :
    Realizes N Stands (onManager (joinUntil join stop a rs)) (joinFrom op f gs) s := by
  induction rs generalizing a f gs s with
  | nil =>
    cases h
    exact Realizes.pure wf ha
  | cons r rs ih =>
    cases h with
    | cons hr h =>
      unfold joinUntil
      rw [onManager_bind]
      refine (hjoin wf ha hr).bind (fun acc => onManager_grows
        (Step.Grows.ite (Step.Grows.pure _) (joinUntil_grows hgrows stop rs acc)))
        fun acc k t ht wft hacc => ?_
      by_cases heq : acc = stop
      · rw [if_pos heq]
        obtain ⟨hatoms, hvalue, hmade⟩ :=
          joinFrom_settled hop ((hstop wft hacc).1 heq) _ t.atoms
        have hstands : ∀ {l : Condition}, (∀ x, l x = value) → t.Stands acc l := fun hl =>
          ⟨hacc.has, fun x => by rw [hacc.meaning, (hstop wft hacc).1 heq, hl]⟩
        exact {
          yields := Step.Yields.pure ⟨wft, hatoms.symm, hstands hvalue, fun l hl =>
            ⟨acc, hstands (hmade l hl)⟩⟩
          stays := fun _ ht _ => Step.Stays.pure ht acc }
      · rw [if_neg heq]
        exact ih wft hacc (h.imp fun _ _ hrg => hrg.mono wf ht)

theorem conjAll_realizes (wf : s.WellFormed N) {rs : List Ref} {gs : List Condition}
    (h : List.Forall₂ s.Stands rs gs) :
    Realizes N Stands (onManager (Manager.conjAll rs)) (joinFrom and (fun _ => true) gs) s := by
  rw [Manager.conjAll, conjFrom_eq_joinUntil]
  exact joinUntil_realizes Manager.conj_grows Bool.false_and (fun wf h => h.eq_zero_iff wf)
    conj_realizes wf (stands_one wf) h

theorem disjAll_realizes (wf : s.WellFormed N) {rs : List Ref} {gs : List Condition}
    (h : List.Forall₂ s.Stands rs gs) :
    Realizes N Stands (onManager (Manager.disjAll rs)) (joinFrom or (fun _ => false) gs) s := by
  rw [Manager.disjAll, disjFrom_eq_joinUntil]
  exact joinUntil_realizes Manager.disj_grows Bool.true_or (fun wf h => h.eq_one_iff wf)
    disj_realizes wf (stands_zero wf) h

end

/-! ### Comparisons with zero -/

theorem belowZero_stays {F : Set Condition} (hF : Manager.Scope F) (hs : s.Inside F) {e : LinExpr}
    (he : e.Reduced) (hconst : e.isConstant = false)
    (hmade : (fun a => a (s.atoms.number e.normalized).1) ∈ F) :
    Step.Stays (Inside F) (belowZero e) s := by
  have hnormal : e.normalized.isConstant = false := by rw [LinExpr.isConstant_normalized he, hconst]
  obtain ⟨journal, hrun⟩ := perform_intern hnormal s
  unfold belowZero
  simp only [hconst, Bool.false_eq_true, if_false]
  refine Step.Ends.after hrun ⟨Manager.Extends.refl _, s.atoms.extends_number e.normalized⟩ ?_
  obtain ⟨hpos, -⟩ := AtomTable.le_size_of_atom (s.atoms.atom_number e.normalized)
  exact stays_onManager (Manager.mkVar_stays hF (Manager.Inside.withJournal hs journal) hpos hmade)

theorem belowZero_realizes (wf : s.WellFormed N) {e : LinExpr} (he : e.Reduced)
    (hN : ∀ y ∈ e.vars, N y) : Realizes N Stands (belowZero e) (Plan.belowZero e) s := by
  cases hconst : e.isConstant with
  | true =>
    unfold belowZero Plan.belowZero
    rw [if_pos hconst, if_pos hconst]
    refine Realizes.pure wf ?_
    split
    · next hneg =>
      simpa [hneg] using stands_one wf
    · next hneg =>
      simpa [hneg] using stands_zero wf
  | false =>
    unfold Plan.belowZero
    rw [if_neg (by rw [hconst]; decide)]
    exact {
      yields := (belowZero_variable wf he hN hconst).imp fun r t _ ⟨wft, hatoms, hr⟩ =>
        ⟨wft, hatoms, hr, fun _ hf => Set.mem_singleton_iff.1 hf ▸ ⟨r, hr⟩⟩
      stays := fun hF hs hmade => belowZero_stays hF hs he hconst (hmade rfl) }

theorem isZero_realizes (wf : s.WellFormed N) {e : LinExpr} (he : e.Reduced)
    (hN : ∀ y ∈ e.vars, N y) : Realizes N Stands (isZero e) (Plan.isZero e) s := by
  have hneg := fun y (hy : y ∈ (-e).vars) => hN y (LinExpr.vars_neg.1 hy)
  exact (belowZero_realizes wf he hN).pair (fun t wft => belowZero_realizes wft he.neg hneg)
    (fun wft hu hbelow => hbelow.mono wft hu) (belowZero_grows _)
    (fun _ _ => onManager_grows (Manager.conj_grows _ _))
    fun below f above g u _ wfu hbelow habove => conj_realizes wfu hbelow.neg habove.neg

theorem complement_realizes {step : Step Skeleton Ref} {plan : Plan Condition}
    (h : Realizes N Stands step plan s) :
    Realizes N Stands (do return -(← step)) (complement plan) s :=
  h.bind (fun _ => Step.Grows.pure _) fun _ _ _ _ wft hr => Realizes.pure wft hr.neg

theorem relate_realizes (wf : s.WellFormed N) (r : Relation) {e : LinExpr} (he : e.Reduced)
    (hN : ∀ y ∈ e.vars, N y) : Realizes N Stands (relate r e) (Plan.relate r e) s := by
  have hneg := fun y (hy : y ∈ (-e).vars) => hN y (LinExpr.vars_neg.1 hy)
  cases r with
  | lt => exact belowZero_realizes wf he hN
  | gt => exact belowZero_realizes wf he.neg hneg
  | le => exact complement_realizes (belowZero_realizes wf he.neg hneg)
  | ge => exact complement_realizes (belowZero_realizes wf he hN)
  | eq => exact isZero_realizes wf he hN
  | ne => exact complement_realizes (isZero_realizes wf he hN)

/-! ### Cases -/

theorem caseUnder_realizes (wf : s.WellFormed N) {guard condition : Ref} {f g : Condition}
    (hf : s.Stands guard f) (hg : s.Stands condition g) {e : LinExpr} (he : e.Reduced)
    (hN : ∀ y ∈ e.vars, N y) :
    Realizes N (fun t => List.Forall₂ (t.Matches N)) (caseUnder guard condition e)
      (pieceUnder f g e) s := by
  refine (conj_realizes wf hf hg).bind (fun _ => Step.Grows.pure _) fun r k t _ wft hr => ?_
  refine Realizes.pure wft ?_
  by_cases hzero : r = .zero
  · rw [if_pos hzero, if_pos ((hr.eq_zero_iff wft).1 hzero)]
    exact .nil
  · rw [if_neg hzero, if_neg fun h => hzero ((hr.eq_zero_iff wft).2 h)]
    exact .cons ⟨hr, rfl, he, hN⟩ .nil

theorem restrict_realizes (wf : s.WellFormed N) {condition : Ref} {g : Condition}
    (hg : s.Stands condition g) {cs : List Case} {ps : List Piece}
    (h : List.Forall₂ (s.Matches N) cs ps) :
    Realizes N (fun t => List.Forall₂ (t.Matches N)) (restrict condition cs)
      (Plan.restrict g ps) s := by
  refine Realizes.collect (fun _ => caseUnder_grows _ _ _) h wf fun c p hcp t hext wft => ?_
  rw [← hcp.value]
  exact caseUnder_realizes wft (hcp.guard.mono wf hext) (hg.mono wf hext) hcp.reduced hcp.names

theorem combine_realizes (wf : s.WellFormed N) {op : LinExpr → LinExpr → LinExpr}
    (hreduced : ∀ a b : LinExpr, a.Reduced → (op a b).Reduced)
    (hvars : ∀ a b : LinExpr, a.Reduced → ∀ y ∈ (op a b).vars, y ∈ a.vars ∨ y ∈ b.vars)
    {cs ds : List Case} {ps qs : List Piece} (hcs : List.Forall₂ (s.Matches N) cs ps)
    (hds : List.Forall₂ (s.Matches N) ds qs) :
    Realizes N (fun t => List.Forall₂ (t.Matches N)) (combine op cs ds)
      (Plan.combine op ps qs) s := by
  refine Realizes.collect (fun _ => Step.Grows.collect (fun _ => caseUnder_grows _ _ _) ds) hcs wf
    fun c p hcp t hext wft => ?_
  refine Realizes.collect (fun _ => caseUnder_grows _ _ _) hds wft fun d q hdq u hu wfu => ?_
  have hext' : u.Extends s := hu.trans hext
  rw [← hcp.value, ← hdq.value]
  exact caseUnder_realizes wfu (hcp.guard.mono wf hext') (hdq.guard.mono wf hext')
    (hreduced _ _ hcp.reduced) fun y hy =>
      (hvars _ _ hcp.reduced y hy).elim (hcp.names y) (hdq.names y)

theorem splitSigns_realizes (wf : s.WellFormed N) {cs : List Case} {ps : List Piece}
    (h : List.Forall₂ (s.Matches N) cs ps) :
    Realizes N (fun t => List.Forall₂ (t.Matches N)) (splitSigns cs) (Plan.splitSigns ps) s := by
  refine Realizes.collect (fun _ => (belowZero_grows _).bind fun _ => (caseUnder_grows _ _ _).bind
    fun _ => (caseUnder_grows _ _ _).bind fun _ => Step.Grows.pure _) h wf
    fun c p hcp t hext wft => ?_
  have hguard := hcp.guard.mono wf hext
  rw [← hcp.value]
  refine (belowZero_realizes wft hcp.reduced hcp.names).bind (fun _ => (caseUnder_grows _ _ _).bind
    fun _ => (caseUnder_grows _ _ _).bind fun _ => Step.Grows.pure _)
    fun negative f u hu wfu hnegative => ?_
  have hguard' := hguard.mono wft hu
  refine (caseUnder_realizes wfu hguard' hnegative.neg hcp.reduced hcp.names).bind
    (fun _ => (caseUnder_grows _ _ _).bind fun _ => Step.Grows.pure _)
    fun kept _ w hw wfw hkept => ?_
  refine (caseUnder_realizes wfw (hguard'.mono wfu hw) (hnegative.mono wfu hw) hcp.reduced.neg
    fun y hy => hcp.names y (LinExpr.vars_neg.1 hy)).bind (fun _ => Step.Grows.pure _)
    fun turned _ x hx wfx hturned => ?_
  exact Realizes.pure wfx (List.rel_append (matches_mono wfw hx hkept) hturned)

theorem compareCases_realizes (wf : s.WellFormed N) (r : Relation) {c d : Case} {p q : Piece}
    (hcp : s.Matches N c p) (hdq : s.Matches N d q) {acc : Ref} {f : Condition}
    (hacc : s.Stands acc f) :
    Realizes N Stands (compareCases r c acc d) (comparePieces r p f q) s := by
  refine (conj_realizes wf hcp.guard hdq.guard).bind (fun guard => ?_)
    fun guard k t hext wft hguard => ?_
  · refine Step.Grows.ite (Step.Grows.pure _) ?_
    exact (relate_grows _ _).bind fun _ => (onManager_grows (Manager.conj_grows _ _)).bind
      fun _ => onManager_grows (Manager.disj_grows _ _)
  have hacc' := hacc.mono wf hext
  by_cases hzero : guard = .zero
  · rw [if_pos hzero, if_pos ((hguard.eq_zero_iff wft).1 hzero)]
    exact Realizes.pure wft hacc'
  · rw [if_neg hzero, if_neg fun h => hzero ((hguard.eq_zero_iff wft).2 h), ← hcp.value,
      ← hdq.value]
    refine (relate_realizes wft r (hcp.reduced.sub d.value) fun y hy =>
      (LinExpr.vars_sub hcp.reduced hy).elim (hcp.names y) (hdq.names y)).bind
      (fun _ => (onManager_grows (Manager.conj_grows _ _)).bind fun _ =>
        onManager_grows (Manager.disj_grows _ _)) fun related g u hu wfu hrelated => ?_
    refine (conj_realizes wfu (hguard.mono wft hu) hrelated).bind
      (fun _ => onManager_grows (Manager.disj_grows _ _)) fun piece _ w hw wfw hpiece => ?_
    exact disj_realizes wfw ((hacc'.mono wft hu).mono wfu hw) hpiece

theorem compareAll_realizes (wf : s.WellFormed N) (r : Relation) {cs ds : List Case}
    {ps qs : List Piece} (hcs : List.Forall₂ (s.Matches N) cs ps)
    (hds : List.Forall₂ (s.Matches N) ds qs) :
    Realizes N Stands (compareAll r cs ds) (Plan.compareAll r ps qs) s := by
  refine Realizes.foldlM (fun _ _ => foldlM_grows (fun _ _ => compareCases_grows _ _ _ _) ds _) hcs
    wf (fun c p hcp t acc k hext wft hacc => ?_) (stands_zero wf)
  refine Realizes.foldlM (fun _ _ => compareCases_grows _ _ _ _) hds wft
    (fun d q hdq u acc k hu wfu hacc => ?_) hacc
  have hext' : u.Extends s := hu.trans hext
  exact compareCases_realizes wfu r (hcp.mono wf hext') (hdq.mono wf hext') hacc

end Skeleton

/-! ### Terms and formulas -/

open Skeleton

variable {N : String → Prop}

mutual

/-- The cases of a term are its pieces. -/
theorem Term.caseSplit_realizes (a : Term) {s : Skeleton} (wf : s.WellFormed N)
    (hN : ∀ x ∈ a.names, N x) :
    Realizes N (fun t => List.Forall₂ (t.Matches N)) a.caseSplit a.outline s := by
  cases a with
  | var x =>
    have hvars : ∀ y ∈ (LinExpr.var x).vars, N y := fun y hy =>
      LinExpr.mem_vars_var.1 hy ▸ hN x List.mem_cons_self
    exact Realizes.pure wf (.cons ⟨stands_one wf, rfl, LinExpr.reduced_var x, hvars⟩ .nil)
  | const c =>
    exact Realizes.pure wf (.cons ⟨stands_one wf, rfl, LinExpr.reduced_const c,
      fun y hy => absurd hy (LinExpr.notMem_vars_const c y)⟩ .nil)
  | add a b =>
    obtain ⟨hNa, hNb⟩ := List.forall_mem_append.1 hN
    exact (a.caseSplit_realizes wf hNa).pair (fun t wft => b.caseSplit_realizes wft hNb)
      (fun wft hu has => matches_mono wft hu has) b.caseSplit_grows
      (fun _ _ => combine_grows _ _ _) fun as ps bs qs u _ wfu has hbs =>
        combine_realizes wfu (fun d e hd => hd.add e)
          (fun d e hd y hy => LinExpr.vars_add hd hy) has hbs
  | sub a b =>
    obtain ⟨hNa, hNb⟩ := List.forall_mem_append.1 hN
    exact (a.caseSplit_realizes wf hNa).pair (fun t wft => b.caseSplit_realizes wft hNb)
      (fun wft hu has => matches_mono wft hu has) b.caseSplit_grows
      (fun _ _ => combine_grows _ _ _) fun as ps bs qs u _ wfu has hbs =>
        combine_realizes wfu (fun d e hd => hd.sub e)
          (fun d e hd y hy => LinExpr.vars_sub hd hy) has hbs
  | neg a =>
    refine (a.caseSplit_realizes wf hN).bind (fun _ => Step.Grows.pure _)
      fun as ps t _ wft has => ?_
    exact Realizes.pure wft (matches_map (fun e he => he.neg)
      (fun e y hy => LinExpr.vars_neg.1 hy) has)
  | scale factor a =>
    refine (a.caseSplit_realizes wf hN).bind (fun _ => Step.Grows.pure _)
      fun as ps t _ wft has => ?_
    exact Realizes.pure wft (matches_map (fun e he => he.scaled factor)
      (fun e y hy => LinExpr.vars_scaled hy) has)
  | abs a =>
    exact (a.caseSplit_realizes wf hN).bind (fun _ => splitSigns_grows _)
      fun as ps t _ wft has => splitSigns_realizes wft has
  | ite c a b =>
    obtain ⟨hNca, hNb⟩ := List.forall_mem_append.1 hN
    obtain ⟨hNc, hNa⟩ := List.forall_mem_append.1 hNca
    refine (c.encode_realizes wf hNc).bind (fun _ => a.caseSplit_grows.bind fun _ =>
      (restrict_grows _ _).bind fun _ => b.caseSplit_grows.bind fun _ =>
        (restrict_grows _ _).bind fun _ => Step.Grows.pure _) fun test f t _ wft htest => ?_
    refine (a.caseSplit_realizes wft hNa).bind (fun _ => (restrict_grows _ _).bind fun _ =>
      b.caseSplit_grows.bind fun _ => (restrict_grows _ _).bind fun _ => Step.Grows.pure _)
      fun as ps u hu wfu has => ?_
    have htest' := htest.mono wft hu
    refine (restrict_realizes wfu htest' has).bind (fun _ => b.caseSplit_grows.bind fun _ =>
      (restrict_grows _ _).bind fun _ => Step.Grows.pure _) fun yes _ w hw wfw hyes => ?_
    refine (b.caseSplit_realizes wfw hNb).bind (fun _ => (restrict_grows _ _).bind fun _ =>
      Step.Grows.pure _) fun bs qs x hx wfx hbs => ?_
    refine (restrict_realizes wfx ((htest'.mono wfu hw).mono wfw hx).neg hbs).bind
      (fun _ => Step.Grows.pure _) fun no _ y hy wfy hno => ?_
    exact Realizes.pure wfy (List.rel_append (matches_mono wfw (hy.trans hx) hyes) hno)

/-- A formula is encoded as its condition. -/
theorem Formula.encode_realizes (f : Formula) {s : Skeleton} (wf : s.WellFormed N)
    (hN : ∀ x ∈ f.names, N x) : Realizes N Stands f.encode f.outline s := by
  cases f with
  | true => exact Realizes.pure wf (stands_one wf)
  | false => exact Realizes.pure wf (stands_zero wf)
  | compare a r b =>
    obtain ⟨hNa, hNb⟩ := List.forall_mem_append.1 hN
    exact (a.caseSplit_realizes wf hNa).pair (fun t wft => b.caseSplit_realizes wft hNb)
      (fun wft hu has => matches_mono wft hu has) b.caseSplit_grows
      (fun _ _ => compareAll_grows _ _ _) fun as ps bs qs u _ wfu has hbs =>
        compareAll_realizes wfu r has hbs
  | not f => exact complement_realizes (f.encode_realizes wf hN)
  | and fs =>
    exact (Formula.encodeAll_realizes fs wf hN).bind
      (fun _ => onManager_grows (Manager.conjFrom_grows _ _)) fun rs gs t _ wft hrs =>
        conjAll_realizes wft hrs
  | or fs =>
    exact (Formula.encodeAll_realizes fs wf hN).bind
      (fun _ => onManager_grows (Manager.disjFrom_grows _ _)) fun rs gs t _ wft hrs =>
        disjAll_realizes wft hrs
  | implies f g =>
    obtain ⟨hNf, hNg⟩ := List.forall_mem_append.1 hN
    exact (f.encode_realizes wf hNf).pair (fun t wft => g.encode_realizes wft hNg)
      (fun wft hu ha => ha.mono wft hu) g.encode_grows
      (fun _ _ => onManager_grows (Manager.imp_grows _ _))
      fun a p b q u _ wfu ha hb => imp_realizes wfu ha hb
  | ite c f g =>
    obtain ⟨hNcf, hNg⟩ := List.forall_mem_append.1 hN
    obtain ⟨hNc, hNf⟩ := List.forall_mem_append.1 hNcf
    refine (c.encode_realizes wf hNc).bind (fun _ => f.encode_grows.bind fun _ =>
      g.encode_grows.bind fun _ => onManager_grows (Manager.ite_grows _))
      fun test k t _ wft htest => ?_
    exact (f.encode_realizes wft hNf).pair (fun u wfu => g.encode_realizes wfu hNg)
      (fun wfu hw hyes => hyes.mono wfu hw) g.encode_grows
      (fun _ _ => onManager_grows (Manager.ite_grows _))
      fun yes p no q w hw wfw hyes hno => ite_realizes wfw (htest.mono wft hw) hyes hno

/-- The formulas of a list are encoded as their conditions. -/
theorem Formula.encodeAll_realizes (fs : List Formula) {s : Skeleton} (wf : s.WellFormed N)
    (hN : ∀ x ∈ Formula.namesOfAll fs, N x) :
    Realizes N (fun t => List.Forall₂ t.Stands) (Formula.encodeAll fs) (Formula.outlineAll fs)
      s := by
  cases fs with
  | nil => exact Realizes.pure wf .nil
  | cons f fs =>
    obtain ⟨hNf, hNfs⟩ := List.forall_mem_append.1 hN
    exact (f.encode_realizes wf hNf).pair (fun t wft => Formula.encodeAll_realizes fs wft hNfs)
      (fun wft hu hr => hr.mono wft hu) (Formula.encodeAll_grows fs)
      (fun _ _ => Step.Grows.pure _) fun r g rs gs u _ wfu hr hrs =>
        Realizes.pure wfu (.cons hr hrs)

end

end BrakeCheck
