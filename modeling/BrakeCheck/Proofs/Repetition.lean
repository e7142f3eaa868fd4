import BrakeCheck.Proofs.Counterparts
import BrakeCheck.Proofs.Incremental
import BrakeCheck.Proofs.Interning

/-!
# Formulas that are asserted again

A formula that is among the assertions can be asserted again, and nothing comes of it.  Its outline
has settled, so the second encoding asks for atoms that are there and makes functions that are
stored, whatever has been asserted and checked since.  The root implies the condition of the
formula, so that the conjunction of both is the root.

All this is about functions, and only says that the store has no more nodes than before.  That it
has not changed at all follows step by step: a node that is put into a store is found there, or the
store is larger from then on.

## Main definitions

* `Manager.Since` — the nodes of a store are still the given ones, or there are more.
* `Digest.Precedes` — a digest at an earlier time of a run.
* `Digest.Asserts` — a digest knows all that the encoding of a formula asks for.

## Main statements

* `Digest.Precedes.asserts` — what has been asserted stays so.
* `Digest.Asserts.add_eq`, `Solver.Summarized.add_again` — what comes of a second assertion.
* `Solver.Alike.check_eq` — the checks of solvers that differ in their tables alone.
* `Solver.add_changes_nothing` — assertions that are repeated in a run.
-/

namespace BrakeCheck

/-! ### Stores that do not grow -/

namespace Manager

/-- The nodes of the store are the given ones still, or it has become larger. -/
def Since (nodes : HashCons Node) (m : Manager) : Prop :=
  m.nodes = nodes ∨ nodes.size < m.nodes.size

theorem kept_since (nodes : HashCons Node) : Kept (Since nodes) fun _ => True where
  journal _ h := h
  put := by
    rintro m n (rfl | hlt) -
    · exact m.nodes.put_eq_or_size_lt n
    · refine Or.inr ?_
      rcases m.nodes.put_eq_or_size_lt n with heq | hgrown
      · exact hlt.trans_eq (congrArg HashCons.size heq).symm
      · exact hlt.trans hgrown
  lookup _ h := h
  insert _ _ h := h
  split _ _ := trivial

theorem Since.eq {nodes : HashCons Node} {m : Manager} (h : m.Since nodes)
    (hle : m.nodes.size ≤ nodes.size) : m.nodes = nodes :=
  h.resolve_right (Nat.not_lt.2 hle)

end Manager

namespace Skeleton

theorem closed_since (nodes : HashCons Node) :
    Closed (fun s => s.manager.Since nodes) fun _ => True where
  choose c s h := Manager.ite_keeps (Manager.kept_since nodes) c s.manager h
  ask _ _ := belowZero_keeps (intern_keeps fun _ _ h _ => h) fun _ s h =>
    Manager.mkVar_keeps (Manager.kept_since nodes) trivial s.manager h
  const _ := trivial
  add _ _ _ _ := trivial
  sub _ _ _ _ := trivial
  neg _ _ := trivial
  scaled _ _ _ := trivial

end Skeleton

/-! ### Formulas that have been asserted -/

namespace Digest

/-- All that the first digest says is still true at the time of the second one, which may be of
more formulas. -/
structure Precedes (d e : Digest) : Prop where
  atoms : e.atoms.Extends d.atoms
  root : ∀ a, e.root a = true → d.root a = true
  names : ∀ x ∈ d.names.names, x ∈ e.names.names
  made : d.made ⊆ e.made

/-- The digest knows all that the encoding of a formula asks for, and its condition implies that of
the formula. -/
structure Asserts (d : Digest) (f : Formula) : Prop where
  atoms : (f.outline d.atoms).atoms = d.atoms
  implied : ∀ a, d.root a = true → (f.outline d.atoms).value a = true
  names : ∀ x ∈ f.names, x ∈ d.names.names
  made : (f.outline d.atoms).made ⊆ d.made

variable {d e : Digest} {f : Formula}

theorem precedes_add (d : Digest) (f : Formula) : d.Precedes (d.add f) where
  atoms := f.outline_settles.grows d.atoms
  root _ h := (Bool.and_eq_true_iff.1 h).1
  names _ hx := NameSet.mem_names_addAll.2 (Or.inl hx)
  made := Set.subset_union_left

theorem precedes_check (budget : Nat) (d : Digest) : d.Precedes (d.check budget) where
  atoms _ _ h := h
  root _ h := h
  names _ hx := hx
  made := Set.subset_union_left

/-- A formula has been asserted if its outline has been followed at some time, with what it came to
then. -/
theorem Asserts.of_outline {t : AtomTable} (hatoms : d.atoms.Extends (f.outline t).atoms)
    (himplied : ∀ a, d.root a = true → (f.outline t).value a = true)
    (hnames : ∀ x ∈ f.names, x ∈ d.names.names) (hmade : (f.outline t).made ⊆ d.made) :
    d.Asserts f where
  atoms := f.outline_settles.atoms_eq t d.atoms hatoms
  implied := by
    rw [f.outline_settles.value_eq t d.atoms hatoms]
    exact himplied
  names := hnames
  made := by
    rw [f.outline_settles.made_eq t d.atoms hatoms]
    exact hmade

/-- What has been asserted stays so. -/
theorem Precedes.asserts (h : d.Precedes e) (hf : d.Asserts f) : e.Asserts f := by
  have hatoms : e.atoms.Extends (f.outline d.atoms).atoms := by
    rw [hf.atoms]
    exact h.atoms
  exact Asserts.of_outline hatoms (fun a ha => hf.implied a (h.root a ha))
    (fun x hx => h.names x (hf.names x hx)) (hf.made.trans h.made)

/-- A formula is asserted by its assertion. -/
theorem asserts_add (d : Digest) (f : Formula) : (d.add f).Asserts f := by
  have hmade : (f.outline d.atoms).made ⊆ (d.add f).made :=
    Set.subset_union_left.trans Set.subset_union_right
  exact Asserts.of_outline (fun _ _ h => h) (fun a ha => (Bool.and_eq_true_iff.1 ha).2)
    (fun x hx => NameSet.mem_names_addAll.2 (Or.inr hx)) hmade

/-- To assert a formula again makes no difference to a digest, and no functions but the root. -/
theorem Asserts.add_eq (h : d.Asserts f) : d.add f = { d with made := d.made ∪ {d.root} } := by
  have hroot : (fun a => d.root a && (f.outline d.atoms).value a) = d.root := by
    funext a
    cases ha : d.root a with
    | false => rfl
    | true => rw [h.implied a ha, Bool.and_self]
  have hmade : d.made ∪ ((f.outline d.atoms).made ∪ {d.root}) = d.made ∪ {d.root} := by
    rw [← Set.union_assoc, Set.union_eq_left.2 h.made]
  have hadd : d.add f = ⟨(f.outline d.atoms).atoms,
      fun a => d.root a && (f.outline d.atoms).value a, d.names.addAll f.names,
      d.made ∪ ((f.outline d.atoms).made ∪
        {fun a => d.root a && (f.outline d.atoms).value a})⟩ := rfl
  rw [hadd, hroot, hmade, h.atoms, NameSet.addAll_of_forall_mem h.names]

end Digest

/-! ### Assertions -/

namespace Solver

open Step

variable {config : SolverConfig} {d : Digest} {fs : List Formula} {s t : Solver} {f : Formula}

theorem add_keeps (nodes : HashCons Node) (f : Formula) :
    Keeps (fun s : Solver => s.skeleton.manager.Since nodes) (add f) := by
  intro s hs
  have closed := Skeleton.closed_since nodes
  have hconjoin : Keeps (fun k : Skeleton => k.manager.Since nodes) (conjoin s.root f) := by
    refine Keeps.bind (fun _ h => h) fun _ => ?_
    exact (f.encode_keeps closed fun _ _ => trivial).bind fun r => closed.choose ⟨s.root, r, .zero⟩
  have hkept := hconjoin s.skeleton hs
  rw [perform_add]
  rcases hrun : (conjoin s.root f).perform s.skeleton with ⟨_ | root, k⟩
  · rw [hrun] at hkept
    exact hkept
  · rw [hrun] at hkept
    exact hkept

/-- A formula that has been asserted before is noted once more, and reported.  Beyond that nothing
changes but the computed table. -/
theorem Summarized.add_again (h : s.Summarized config d) (hf : d.Asserts f)
    (hfit : s.skeleton.manager.Addressable) :
    ∃ computed journal, (add f).perform s = (.ok (), { s with
      skeleton := ⟨⟨s.skeleton.manager.nodes, computed, journal⟩, s.skeleton.atoms⟩
      assertions := s.assertions.push f }) := by
  obtain ⟨fs, hs⟩ := h.sound
  -- the functions that are stored are a scope, and no others are made
  have hF := Manager.scope_of_addressable hs.wf.manager hfit
  have hmade : (d.add f).made ⊆ {g | s.skeleton.manager.Stores g} := by
    rw [hf.add_eq]
    rintro g (hg | rfl)
    · exact h.stored g hg
    · exact ⟨s.root, h.root⟩
  have hstays := add_stays hF h hs.wf.manager.inside_stores hmade
  obtain ⟨_, t, hrun, hext, ht, hsummarized, -, heq⟩ := hstays.yields (addressable_of_inside hF)
    ((add_summarized h f).and (add_yields (h.conjoin f).yields))
  rw [hf.add_eq] at hsummarized
  have hroot : t.root = s.root := hsummarized.root.unique ht.wf (h.root.mono hs.wf hext)
  have hatoms : t.skeleton.atoms = s.skeleton.atoms := hsummarized.atoms.trans h.atoms.symm
  have hnames : s.names.addAll f.names = s.names :=
    NameSet.addAll_of_forall_mem (h.names ▸ hf.names)
  have hsince := add_keeps s.skeleton.manager.nodes f s (Or.inl rfl)
  rw [hrun] at hsince
  have hnodes : t.skeleton.manager.nodes = s.skeleton.manager.nodes :=
    hsince.eq ht.size_le
  rw [hroot, hnames] at heq
  refine ⟨t.skeleton.manager.computed, t.skeleton.manager.journal, ?_⟩
  rw [hrun, ← hnodes, ← hatoms]
  exact congrArg (Prod.mk _) heq

/-! ### Checks -/

/-- A check does not look at the list of assertions. -/
theorem perform_check_of_assertions (s : Solver) (fs : Array Formula) :
    check.perform { s with assertions := fs } =
      ((check.perform s).1, { (check.perform s).2 with assertions := fs }) := by
  rw [perform_check, perform_check]
  dsimp only
  rcases (Skeleton.search s.root 0 s.config.maxTheoryChecks).perform s.skeleton with ⟨_ | result, k⟩
  · rfl
  · dsimp only
    unfold report
    rw [perform_bind, perform_bind, perform_query, perform_query]
    have hstats : (concluded { s with assertions := fs } result k).stats =
        (s.concluded result k).stats := rfl
    rw [hstats]
    cases (s.concluded result k).stats with
    | error e => rfl
    | ok stats => rfl

/-- Checks of alike solvers end alike, whatever their lists of assertions are. -/
theorem Alike.check_eq (h : s.Alike t) (fs : Array Formula) :
    (check.perform { t with assertions := fs }).1 = (check.perform s).1 ∧
      (check.perform { t with assertions := fs }).2.model = (check.perform s).2.model ∧
      (check.perform { t with assertions := fs }).2.theoryChecks =
        (check.perform s).2.theoryChecks := by
  obtain ⟨houtcome, hrelated⟩ := check_lockstep s t h
  rw [perform_check_of_assertions]
  exact ⟨houtcome, hrelated.model, hrelated.theoryChecks⟩

/-! ### Runs -/

/-- The stores of a run are coherent, also when a fault has left them. -/
theorem Run.alike_self (h : Run config fs s) : s.Alike s := by
  induction h with
  | create h => exact alike_of_create h h rfl
  | add _ f ih => exact (add_lockstep f _ _ ih).related
  | check _ ih => exact (check_lockstep _ _ ih).related

/-- All formulas among the assertions have been asserted. -/
theorem Run.exists_digest (h : Run config fs s) (hfit : s.skeleton.manager.Addressable) :
    ∃ d, s.Summarized config d ∧ ∀ f ∈ s.assertions, d.Asserts f := by
  induction h with
  | create h =>
    refine ⟨.empty, summarized_of_create h, ?_⟩
    obtain ⟨m, -, rfl⟩ := eq_of_create h
    simp
  | @add _ s _ f ih =>
    obtain ⟨d, hd, hasserts⟩ := ih ((add_grows f).addressable hfit)
    obtain ⟨_, t, hrun, -, ht, -, heq⟩ :=
      ((add_summarized hd f).and (add_yields (hd.conjoin f).yields)) hfit
    have hassertions : t.assertions = s.assertions.push f := by rw [heq]
    rw [hrun]
    refine ⟨d.add f, ht, fun g hg => ?_⟩
    rcases Array.mem_push.1 (hassertions ▸ hg) with hg | rfl
    · exact (d.precedes_add f).asserts (hasserts g hg)
    · exact d.asserts_add g
  | @check _ s _ ih =>
    obtain ⟨d, hd, hasserts⟩ := ih (check_grows.addressable hfit)
    obtain ⟨fs, hs⟩ := hd.sound
    obtain ⟨_, t, hrun, -, ht, -, _, -, -, -, heq⟩ :=
      ((check_summarized hd).and (check_searched hs)) hfit
    have hassertions : t.assertions = s.assertions := by rw [heq]
    rw [hrun]
    refine ⟨_, ht.summarized, fun g hg => ?_⟩
    exact (d.precedes_check _).asserts (hasserts g (hassertions ▸ hg))

/-- To assert a formula again changes nothing.  In every run of assertions and checks, a formula
that is among the assertions can be asserted again; the root, the atoms with their numbers and the
whole table of nodes are the same afterwards, and a check that follows has the outcome, the model
and the number of paths examined that it would have had otherwise.  If all nodes can be referred to
after the check, its outcome is an answer. -/
theorem add_changes_nothing (h : Run config fs s) (hfit : s.skeleton.manager.Addressable)
    (hf : f ∈ s.assertions) :
    ∃ t, (add f).perform s = (.ok (), t) ∧ t.root = s.root ∧ t.skeleton.atoms = s.skeleton.atoms ∧
      t.skeleton.manager.nodes = s.skeleton.manager.nodes ∧
      (check.perform t).1 = (check.perform s).1 ∧
      (check.perform t).2.model = (check.perform s).2.model ∧
      (check.perform t).2.theoryChecks = (check.perform s).2.theoryChecks ∧
      ((check.perform s).2.skeleton.manager.Addressable →
        ∃ answer, (check.perform s).1 = .ok answer) := by
  obtain ⟨d, hd, hasserts⟩ := h.exists_digest hfit
  obtain ⟨computed, journal, hrun⟩ := hd.add_again (hasserts f hf) hfit
  have hself := h.alike_self
  have hcoherent := (add_lockstep f s s hself).related.skeleton.manager.left
  rw [hrun] at hcoherent
  -- but for the list of assertions the solver differs from the one before in its tables alone
  have halike : s.Alike { s with
      skeleton := ⟨⟨s.skeleton.manager.nodes, computed, journal⟩, s.skeleton.atoms⟩ } :=
    { hself with skeleton := ⟨⟨hself.skeleton.manager.left, hcoherent, rfl⟩, rfl⟩ }
  obtain ⟨houtcome, hmodel, hchecks⟩ := halike.check_eq (s.assertions.push f)
  refine ⟨_, hrun, rfl, rfl, rfl, houtcome, hmodel, hchecks, fun hfit' => ?_⟩
  obtain ⟨answer, _, hcheck, -⟩ := check_spec (h.sound hfit) hfit'
  exact ⟨answer, by rw [hcheck]⟩

/-- After `|x| < 1`, a check and `0 < x`, the first formula is asserted once more, and all of them
are checked. -/
theorem add_changes_nothing_abs_lt_one :
    ∃ s t, Run { bucketBits := 0 } [(Term.abs (.var "x")).lt (.const 1),
        (Term.const 0).lt (.var "x")] s ∧
      (add ((Term.abs (.var "x")).lt (.const 1))).perform s = (.ok (), t) ∧ t.root = s.root ∧
      t.skeleton.atoms = s.skeleton.atoms ∧
      t.skeleton.manager.nodes = s.skeleton.manager.nodes ∧ (check.perform t).1 = .ok .sat := by
  have hrun := ((Run.create create_smallest).add ((Term.abs (.var "x")).lt (.const 1))).check.add
    ((Term.const 0).lt (.var "x"))
  obtain ⟨t, hadd, hroot, hatoms, hnodes, houtcome, -⟩ := add_changes_nothing
    (f := (Term.abs (.var "x")).lt (.const 1)) hrun (of_decide_eq_true (by cbv)) (by
      cbv
      exact ⟨List.mem_cons_self⟩)
  exact ⟨_, t, hrun, hadd, hroot, hatoms, hnodes, houtcome.trans (by cbv)⟩

end Solver

end BrakeCheck
