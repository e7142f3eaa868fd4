import BrakeCheck.Proofs.Confined
import BrakeCheck.Proofs.Connectives
import BrakeCheck.Proofs.Lockstep

/-!
# What a choice leaves in a store

The intermediate results of a choice are what is left of its result when the first variables have
values.  So the functions of the store before, together with those of the nodes that can be reached
from the result, are a scope in which the choice stays, and every node that it makes can be reached
from the result, whatever is found in the computed table on the way.

As nothing that is stored is ever lost, a choice that has been made can be retraced for ever after.
Whatever requests the store serves, and whatever results it forgets, the same choice is answered
with the same reference, and it makes no node.

## Main definitions

* `Manager.residue` — the functions of a store before, and those that a result is made of.
* `Manager.Later` — the stores that requests lead to, also when results are forgotten.

## Main statements

* `Manager.reaches_of_stays` — a step that stays in all scopes of its result makes nothing else.
* `Manager.Later.coherent`, `Manager.Later.extends` — what lasts through requests and losses.
* `Manager.Reached.ite_stable` — choices leave no garbage, and they are stable.
-/

namespace BrakeCheck

namespace Manager

variable {m t u : Manager} {r : Ref}

/-! ### Nodes that a result is made of -/

/-- The functions that a store had before, and those of the references that can be reached from a
result in the store after. -/
def residue (m t : Manager) (r : Ref) : Set Condition :=
  {f | m.Stores f ∨ ∃ q, t.Reaches [.one, r] q.index ∧ t.Denotes q f}

/-- The store after has all these functions. -/
theorem stores_of_mem_residue (wf : m.WellFormed) (hext : t.Extends m) {f : Condition}
    (hf : f ∈ residue m t r) : t.Stores f := by
  rcases hf with hstores | ⟨q, -, hq⟩
  · exact hstores.mono wf hext
  · exact ⟨q, hq⟩

/-- Complements and subfunctions of what a result is made of are such themselves. -/
theorem scope_residue (wf : m.WellFormed) (hext : t.Extends m) (wft : t.WellFormed)
    (hfit : t.Addressable) : Scope (residue m t r) where
  neg := by
    rintro f (hstores | ⟨q, hreach, hq⟩)
    · exact Or.inl ((scope_of_addressable wf (hfit.of_extends hext)).neg f hstores)
    · exact Or.inr ⟨-q, hreach, has_neg.2 hq.has, fun a => by rw [holds_neg, hq.meaning]⟩
  subfunction := by
    rintro f (hstores | ⟨q, hreach, hq⟩) g hg
    · exact Or.inl ((scope_of_addressable wf (hfit.of_extends hext)).subfunction f hstores g hg)
    · obtain ⟨k, a, hvalue⟩ := hg
      obtain ⟨p, hp, hhas, hmeaning⟩ := exists_reaches_of_fixing wft hq k a
      have hroots : ∀ s ∈ [Ref.one, q], t.Reaches [.one, r] s.index := by
        simpa using ⟨Reaches.root (r := .one) List.mem_cons_self, hreach⟩
      exact Or.inr ⟨p, Reaches.trans hroots hp, hhas, fun x => by rw [hmeaning, hvalue]⟩
  fits n hn := by
    have hinside : n.Inside {f | t.Stores f} :=
      ⟨hn.wf, fun q hq => stores_of_mem_residue wf hext (hn.mem q hq)⟩
    exact Nat.lt_of_le_of_lt hinside.size_le hfit

/-- A computation that stays in every scope to which its result belongs makes no node but those that
can be reached from the result: different nodes stand for different functions, so a node whose
function was stored before, or belongs to a node that can be reached, is that node. -/
theorem reaches_of_stays {step : Step Manager Ref} (wf : m.WellFormed)
    (hrun : step.perform m = (.ok r, t)) (hext : t.Extends m) (wft : t.WellFormed)
    (hfit : t.Addressable) (hr : t.Has r)
    (hstays : ∀ F, Scope F → m.Inside F → (t.holds · r) ∈ F → Step.Stays (Inside F) step m)
    {i : Nat} (hi : (t.nodes.value? i).isSome) :
    (m.nodes.value? i).isSome ∨ t.Reaches [.one, r] i := by
  have hresult : (t.holds · r) ∈ residue m t r :=
    Or.inr ⟨r, .root (by simp), hr, fun _ => rfl⟩
  obtain ⟨q, u, hrun', -, hinside⟩ := hstays (residue m t r) (scope_residue wf hext wft hfit)
    ⟨wf, fun q hq => Or.inl ⟨q, hq, fun _ => rfl⟩⟩ hresult
  cases hrun.symm.trans hrun'
  have hnode : t.Denotes ⟨i, false⟩ (t.holds · ⟨i, false⟩) := ⟨hi, fun _ => rfl⟩
  rcases hinside.mem _ hnode.has with ⟨q, hq⟩ | ⟨q, hreach, hq⟩
  · obtain rfl := hnode.unique wft (hq.mono wf hext)
    exact Or.inl hq.has
  · obtain rfl := hnode.unique wft hq
    exact Or.inr hreach

/-- Every node that a choice makes can be reached from its result. -/
theorem ite_reaches (wf : m.WellFormed) {c : Choice} (hc : m.HasAll c) :
    Step.Yields (ite c) m fun r t => t.WellFormed ∧ t.Has r ∧
      ∀ i, (t.nodes.value? i).isSome → (m.nodes.value? i).isSome ∨ t.Reaches [.one, r] i := by
  intro hfit
  obtain ⟨r, t, hrun, hext, wft, hr⟩ := ite_spec wf hc hfit
  rw [hrun] at hfit
  refine ⟨r, t, hrun, hext, wft, hr.has, fun i => ?_⟩
  refine reaches_of_stays wf hrun hext wft hfit hr.has fun F hF hm hmem => ite_stays hF hm hc ?_
  exact mem_of_eq hmem fun a => by rw [hr.meaning, chooses_of_extends wf hext hc]

/-! ### Later stores -/

/-- The stores that can come of a store when it serves requests, of which none has to be orderly,
and when results are forgotten in between. -/
inductive Later (m : Manager) : Manager → Prop where
  | refl : Later m m
  | serve {t : Manager} (h : Later m t) (q : Request) : Later m (q.serve.perform t).2
  | forget {t : Manager} (h : Later m t) {table : ComputedTable Choice Ref}
      (hslots : 0 < table.slots.size)
      (hkept : ∀ c r, table.find? c = some r → t.computed.find? c = some r) :
    Later m (t.withTable table)

/-- A request leaves a coherent store, also if it is not orderly. -/
theorem serve_coherent (hm : m.Coherent) (q : Request) : (q.serve.perform m).2.Coherent :=
  (serve_lockstep q m m ⟨hm, hm, rfl⟩).2.left

theorem Later.extends (h : m.Later t) : t.Extends m := by
  induction h with
  | refl => exact Extends.refl m
  | serve _ q ih => exact (q.serve_grows _).trans ih
  | forget _ _ _ ih => exact (extends_of_nodes_eq rfl).trans ih

theorem Later.coherent (hm : m.Coherent) (h : m.Later t) : t.Coherent := by
  induction h with
  | refl => exact hm
  | serve _ q ih => exact serve_coherent ih q
  | forget _ hslots hkept ih =>
    exact ih.congr rfl hslots fun c r hc => ih.computed c r (hkept c r hc)

theorem Reached.coherent (h : m.Reached) : m.Coherent := by
  induction h with
  | create h => exact coherent_of_create h
  | serve _ _ ih => exact serve_coherent ih _

/-- Choices leave no garbage, and they are stable.  In every store that orderly requests lead to, a
choice between references of it is answered; all nodes that it has made are among the descendants
of the result; the nodes there were before keep their indices and their content; and whatever
requests are served afterwards, and whatever results are forgotten, the same choice is answered with
the same reference, and the nodes stay as they are. -/
theorem Reached.ite_stable (h : m.Reached) {c : Choice} (hc : m.HasAll c)
    (hfit : ((ite c).perform m).2.Addressable) :
    ∃ r t is, (ite c).perform m = (.ok r, t) ∧ t.descendants [r] = .ok is ∧
      (∀ i, (t.nodes.value? i).isSome → (m.nodes.value? i).isSome ∨ i ∈ is) ∧
      (∀ i n, m.nodes.value? i = some n → t.nodes.value? i = some n) ∧
      ∀ u, t.Later u → ∃ w, (ite c).perform u = (.ok r, w) ∧ w.nodes = u.nodes := by
  have wf := h.wellFormed ((ite_grows c).addressable hfit)
  obtain ⟨-, hcoherent, hretraces⟩ := ite_leaves h.coherent c
  obtain ⟨r, t, hrun, hext, wft, hr, hreaches⟩ := ite_reaches wf hc hfit
  rw [hrun] at hcoherent hretraces
  obtain ⟨is, his, -, hmem⟩ := descendants_spec wft (List.forall_mem_singleton.2 hr)
  refine ⟨r, t, is, hrun, his, fun i hi => ?_, hext, fun u hu => ?_⟩
  · exact (hreaches i hi).imp id (hmem i).2
  · -- the way to the result is still there
    have hway := (hretraces r rfl).mono hu.extends
    obtain ⟨w, hagain, hnodes, -⟩ := ite_of_retraces hway u (hu.coherent hcoherent) rfl
    exact ⟨w, hagain, hnodes⟩

/-- A choice between three variables, made again after another choice and the loss of all
results. -/
theorem ite_stable_three_vars :
    ∃ (m : Manager) (r : Ref) (t u w : Manager), m.Reached ∧
      (ite ⟨⟨2, false⟩, ⟨3, false⟩, ⟨4, false⟩⟩).perform m = (.ok r, t) ∧
      u = ((ite ⟨⟨4, false⟩, ⟨2, false⟩, ⟨3, true⟩⟩).perform t).2.withTable (.empty 0) ∧
      (ite ⟨⟨2, false⟩, ⟨3, false⟩, ⟨4, false⟩⟩).perform u = (.ok r, w) ∧ w.nodes = u.nodes := by
  obtain ⟨m, hcreate⟩ := exists_create (Nat.zero_le 24) .closed
  obtain rfl := eq_of_create hcreate
  have hreached := (((Reached.create hcreate).serve (q := .var 1) (by decide +kernel)).serve
    (q := .var 2) (by decide +kernel)).serve (q := .var 3) (by decide +kernel)
  obtain ⟨r, t, -, hrun, -, -, -, hstable⟩ := hreached.ite_stable
    (c := ⟨⟨2, false⟩, ⟨3, false⟩, ⟨4, false⟩⟩) (by decide +kernel) (by decide +kernel)
  have hlater : t.Later
      (((ite ⟨⟨4, false⟩, ⟨2, false⟩, ⟨3, true⟩⟩).perform t).2.withTable (.empty 0)) :=
    (Later.refl.serve (.choice ⟨⟨4, false⟩, ⟨2, false⟩, ⟨3, true⟩⟩)).forget (by decide) (by simp)
  obtain ⟨w, hagain, hnodes⟩ := hstable _ hlater
  exact ⟨_, r, t, _, w, hreached, hrun, rfl, hagain, hnodes⟩

end Manager

end BrakeCheck
