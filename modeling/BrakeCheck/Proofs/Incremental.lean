import BrakeCheck.Proofs.Outline
import BrakeCheck.Proofs.Soundness
import BrakeCheck.Proofs.TableSize

/-!
# Checks leave no trace

A check leaves nodes and computed results behind, so that later encodings and checks run in another
store than they would without it.  They come to the same all the same: encodings follow their
outlines, paths and extents are those of functions, and a search sees nothing of the store but the
paths of the functions it comes to.  What a solver answers can therefore be told from a digest of
the formulas asserted, which no check changes; so incremental solving is batch solving.

Without the checks a run makes no functions but those it makes with them, so that references have
room for it if they have for the longer run.

## Main definitions

* `pathOf` — the path of a function, which it has in every store.
* `Plan.search` — a search without a store.
* `Digest` — the atoms, the condition and the symbolic constants of the formulas asserted.
* `Solver.Summarized` — a solver is as a digest says.
* `Solver.asserted`, `Solver.batch` — the formulas that calls assert, and calls that assert them.
* `Solver.Agree` — solvers whose last checks show the same.

## Main statements

* `Manager.Follows.congr` — references to one function have one path, in whatever stores.
* `Skeleton.search_realizes` — a search follows the plan for the function that it searches.
* `Solver.serveAll_summarized`, `Solver.serveAll_stays` — the digest of a run, and the functions
  that it keeps to.
* `Solver.incremental_eq_batch` — checks have no influence on what comes after them.
-/

namespace BrakeCheck

/-! ### Paths -/

namespace Manager

/-- References to one function have one path, in whatever stores: they branch on the same variables,
and the edges not taken are the constant false in both. -/
theorem Follows.congr {m t : Manager} (wf : m.WellFormed) (wft : t.WellFormed) {r : Ref}
    {ls : List Literal} (h : m.Follows r ls) {q : Ref} (hq : t.Has q)
    (hsame : ∀ a, t.holds a q = m.holds a r) : t.Follows q ls := by
  induction h generalizing q with
  | one =>
    obtain rfl : q = .one := (eq_one_iff wft hq).2 fun a => by rw [hsame, holds_one]
    exact .one
  | @edge r next n positive l ls hterminal hn hpositive hedge hvar hsign hl _ ih =>
    obtain ⟨d, hterminal', hd, hvar', hlow, hhigh⟩ := edges_congr wf wft hterminal hn hq hsame
    obtain ⟨hedges, -, -⟩ := Cofactors.edges wf hterminal hn
    obtain ⟨hedges', -, -⟩ := Cofactors.edges wft hterminal' hd
    have hzero : d.high.flipIf q.negated = .zero ↔ n.high.flipIf r.negated = .zero := by
      rw [eq_zero_iff wft hedges'.branch.has_high, eq_zero_iff wf hedges.branch.has_high]
      exact forall_congr' fun a => by rw [hhigh]
    have hpositive' : positive = decide (d.high.flipIf q.negated ≠ .zero) := by
      rw [hpositive, decide_eq_decide, Ne, Ne, hzero]
    obtain ⟨-, hhas, -⟩ := taken_edge wft hterminal' hd hpositive' rfl
    refine .edge hterminal' hd hpositive' rfl (hvar.trans hvar'.symm) hsign ?_ (ih hhas fun a => ?_)
    · rw [hvar']
      exact hl
    · rw [hedge]
      split
      · exact hhigh a
      · exact hlow a

theorem Follows.unique {m : Manager} (wf : m.WellFormed) {r : Ref} {ls ks : List Literal}
    (h : m.Follows r ls) (h' : m.Follows r ks) : ks = ls :=
  Except.ok.inj ((h'.pathFrom_eq wf).symm.trans (h.pathFrom_eq wf))

end Manager

/-- The path of a function, which it has in every store. -/
noncomputable def pathOf (f : Condition) : List Literal :=
  Classical.epsilon fun ls => ∃ (m : Manager) (r : Ref), m.WellFormed ∧ m.Denotes r f ∧
    m.Follows r ls

theorem Manager.Follows.pathOf_eq {m : Manager} (wf : m.WellFormed) {r : Ref} {f : Condition}
    (hr : m.Denotes r f) {ls : List Literal} (h : m.Follows r ls) : pathOf f = ls := by
  have hsome : ∃ ls, ∃ (m : Manager) (r : Ref), m.WellFormed ∧ m.Denotes r f ∧ m.Follows r ls :=
    ⟨ls, m, r, wf, hr, h⟩
  obtain ⟨n, q, wfn, hq, hpath⟩ := Classical.epsilon_spec hsome
  exact h.unique wf (hpath.congr wfn wf hr.has fun a => by rw [hr.meaning, hq.meaning])

/-! ### Searches -/

namespace Plan

/-- What elimination says of the literals of a path. -/
def examine (ls : List Literal) : Plan (Except Fault Linear.Feasibility) := fun atoms =>
  ⟨atoms.examined ls, atoms, ∅⟩

/-- A function without a path of it. -/
def block (f : Condition) (ls : List Literal) : Plan Condition := do
  let cube ← make (Literal.allHold ls)
  make fun a => f a && !cube a

open Classical in
/-- The search of a function, when `spent` paths have been examined before and as many more may be
as the last argument says. -/
noncomputable def search (f : Condition) (spent : Nat) : Nat → Plan SearchResult
  | 0 => return if ∀ a, f a = false then ⟨.unsat, none, spent⟩ else ⟨.unknown, none, spent⟩
  | budget + 1 => do
    if ∀ a, f a = false then return ⟨.unsat, none, spent⟩
    match ← examine (pathOf f) with
    | .ok (.feasible values) => return ⟨.sat, some values, spent + 1⟩
    | .ok .infeasible => search (← block f (pathOf f)) (spent + 1) budget
    -- the literals of a path are those of atoms
    | .error _ => return ⟨.unknown, none, spent⟩

end Plan

namespace Skeleton

variable {N : String → Prop} {s : Skeleton} {r : Ref} {f : Condition} {ls : List Literal}

/-- A report makes neither atoms nor functions. -/
theorem note_realizes (wf : s.WellFormed N) (level : Level) (origin : Origin)
    (text : Thunk String) :
    Realizes N (fun _ _ _ => True) (onManager (Manager.note level origin text)) (pure ()) s where
  yields := (note_spec wf level origin text).imp fun _ _ _ ⟨wft, _, hatoms⟩ =>
    ⟨wft, hatoms, trivial, fun _ hf => absurd hf (Set.notMem_empty _)⟩
  stays _ hs _ := ⟨(), _, rfl, ⟨Manager.Extends.refl _, fun _ _ h => h⟩,
    Manager.Inside.withJournal hs _⟩

theorem examine_realizes (wf : s.WellFormed N) (hls : ∀ l ∈ ls, 0 < l.var ∧ l.var ≤ s.atoms.size) :
    Realizes N (fun _ verdict o => o = .ok verdict) (examine ls) (Plan.examine ls) s where
  yields := (examine_spec wf hls).imp fun _ _ _ ⟨wft, hexamined, _, hatoms⟩ =>
    ⟨wft, hatoms, hexamined, fun _ hf => absurd hf (Set.notMem_empty _)⟩
  stays := by
    intro F _ hs _
    obtain ⟨cs, hcs, -⟩ := AtomTable.constraints_spec wf.reduced wf.names hls
    refine Step.Ends.after_query hcs ?_
    refine Step.Ends.after rfl ⟨Manager.Extends.refl _, fun _ _ h => h⟩ ?_
    exact Step.Ends.pure (Manager.Inside.withJournal hs _)

theorem mkCube_realizes (wf : s.WellFormed N) (hls : s.manager.LeadsToOne r ls) :
    Realizes N Stands (onManager (Manager.mkCube ls)) (Plan.make (Literal.allHold ls)) s := by
  have hdistinct := hls.ascending.imp fun {l k : Literal} (h : l.var < k.var) => Nat.ne_of_lt h
  have hpos := hls.var_pos wf.manager
  exact onManager_realizes wf
    (Manager.mkCube_keeps (Manager.kept_within _) fun l hl => (wf.isAtom hls l hl).2)
    (Manager.mkCube_spec wf.manager hpos hdistinct)
    fun hF hs hmade => Manager.mkCube_stays hF hs hpos hdistinct hmade

theorem block_realizes (wf : s.WellFormed N) (hr : s.Stands r f) (hls : s.manager.LeadsToOne r ls) :
    Realizes N Stands (onManager (Manager.block r ls)) (Plan.block f ls) s := by
  unfold Manager.block
  rw [onManager_bind]
  refine (mkCube_realizes wf hls).bind (fun _ => onManager_grows (Manager.conj_grows _ _))
    fun cube g t ht wft hcube => ?_
  exact conj_realizes wft (hr.mono wf ht) hcube.neg

/-- A search follows the plan for the function that it searches.  By induction on the budget. -/
theorem search_realizes (budget : Nat) (wf : s.WellFormed N) (hr : s.Stands r f) (spent : Nat) :
    Realizes N (fun _ result o => o = result) (search r spent budget)
      (Plan.search f spent budget) s := by
  induction budget generalizing s r f spent with
  | zero =>
    refine Realizes.of_addressable (search_grows _ _ _) fun hfit => ?_
    rcases Manager.path_eq_ok wf.manager (wf.narrow hfit) hr.has with ⟨hzero, hrun⟩ | ⟨ls, hrun, hpath⟩
    · refine Realizes.after_query hrun (Realizes.pure wf ?_)
      rw [if_pos ((hr.eq_zero_iff wf).1 hzero)]
    · refine Realizes.after_query hrun ?_
      refine (note_realizes wf _ _ _).after (fun _ => Step.Grows.pure _) fun _ t _ wft _ =>
        Realizes.pure wft ?_
      rw [if_neg fun h => hpath.ne_zero ((hr.eq_zero_iff wf).2 h)]
  | succ budget ih =>
    refine Realizes.of_addressable (search_grows _ _ _) fun hfit => ?_
    unfold Plan.search
    rcases Manager.path_eq_ok wf.manager (wf.narrow hfit) hr.has with ⟨hzero, hrun⟩ | ⟨ls, hrun, hpath⟩
    · refine Realizes.after_query hrun ?_
      rw [if_pos ((hr.eq_zero_iff wf).1 hzero)]
      exact Realizes.pure wf rfl
    · refine Realizes.after_query hrun ?_
      rw [if_neg fun h => hpath.ne_zero ((hr.eq_zero_iff wf).2 h), hpath.pathOf_eq wf.manager hr]
      have hgrows := after_examine_grows r ls fun q => search_grows budget q (spent + 1)
      refine (note_realizes wf _ _ _).after (fun _ => (examine_grows _).bind hgrows)
        fun _ t ht wft _ => ?_
      have hleads := ((hpath.leadsToOne wf.manager).1).mono wf.manager ht.manager hr.has
      refine (examine_realizes wft (wft.isAtom hleads)).bind hgrows fun verdict o u hu wfu ho => ?_
      subst ho
      have hleads' := hleads.mono wft.manager hu.manager (hr.has.mono ht.manager)
      cases verdict with
      | feasible values => exact Realizes.pure wfu rfl
      | infeasible =>
        refine (block_realizes wfu ((hr.mono wf ht).mono wft hu) hleads').bind
          (fun _ => search_grows _ _ _) fun q g w _ wfw hq => ?_
        exact ih wfw hq (spent + 1)

end Skeleton

/-! ### Digests -/

/-- What the answers of a solver can be told from: the atoms of the formulas asserted, the condition
that all of them hold, and their symbolic constants; and the functions made so far. -/
structure Digest where
  atoms : AtomTable
  root : Condition
  names : NameSet
  made : Set Condition

/-- The condition of a formula is joined to that of the formulas before it. -/
noncomputable def Plan.conjoin (root : Condition) (f : Formula) : Plan Condition := do
  let g ← f.outline
  make fun a => root a && g a

namespace Digest

/-- The digest of no formulas. -/
def empty : Digest := ⟨.empty, fun _ => true, ∅, ∅⟩

/-- The digest when one more formula is asserted. -/
noncomputable def add (d : Digest) (f : Formula) : Digest where
  atoms := (Plan.conjoin d.root f d.atoms).atoms
  root := (Plan.conjoin d.root f d.atoms).value
  names := d.names.addAll f.names
  made := d.made ∪ (Plan.conjoin d.root f d.atoms).made

/-- The search of the condition within a budget. -/
noncomputable def search (budget : Nat) (d : Digest) : Draft SearchResult :=
  Plan.search d.root 0 budget d.atoms

/-- The digest after a check, which has made some more functions. -/
noncomputable def check (budget : Nat) (d : Digest) : Digest :=
  { d with made := d.made ∪ (d.search budget).made }

/-- The digest after a call. -/
noncomputable def serve (budget : Nat) (d : Digest) : Solver.Call → Digest
  | .add f => d.add f
  | .check => d.check budget

/-- Both digests are of the same formulas. -/
structure Same (d e : Digest) : Prop where
  atoms : e.atoms = d.atoms
  root : e.root = d.root
  names : e.names = d.names

/-- Both digests are of the same formulas, and no functions have been made for the second one that
have not been made for the first one. -/
structure Covers (d e : Digest) : Prop extends d.Same e where
  made : e.made ⊆ d.made

variable {budget : Nat} {d e : Digest}

theorem Same.search_eq (h : d.Same e) : e.search budget = d.search budget := by
  rw [search, search, h.atoms, h.root]

theorem Covers.refl (d : Digest) : d.Covers d := ⟨⟨rfl, rfl, rfl⟩, Set.Subset.refl _⟩

theorem Covers.add (h : d.Covers e) (f : Formula) : (d.add f).Covers (e.add f) := by
  unfold Digest.add
  rw [h.atoms, h.root, h.names]
  exact ⟨⟨rfl, rfl, rfl⟩, Set.union_subset_union_left _ h.made⟩

theorem Covers.check (h : d.Covers e) : (d.check budget).Covers (e.check budget) := by
  refine ⟨⟨h.atoms, h.root, h.names⟩, ?_⟩
  unfold Digest.check
  rw [h.search_eq]
  exact Set.union_subset_union_left _ h.made

/-- A check is of no account for the formulas. -/
theorem Covers.check_left (h : d.Covers e) : (d.check budget).Covers e :=
  ⟨⟨h.atoms, h.root, h.names⟩, h.made.trans Set.subset_union_left⟩

/-- One more check makes no functions that the check before it has not made. -/
theorem check_check (d : Digest) : (d.check budget).check budget = d.check budget := by
  have hsame : d.Same (d.check budget) := ⟨rfl, rfl, rfl⟩
  rw [check, hsame.search_eq]
  simp only [check, Set.union_assoc, Set.union_self]

theorem made_subset_serve (d : Digest) (q : Solver.Call) : d.made ⊆ (d.serve budget q).made := by
  cases q with
  | add f => exact Set.subset_union_left
  | check => exact Set.subset_union_left

theorem made_subset_foldl (calls : List Solver.Call) (d : Digest) :
    d.made ⊆ (calls.foldl (serve budget) d).made := by
  induction calls generalizing d with
  | nil => exact Set.Subset.refl _
  | cons q calls ih => exact (d.made_subset_serve q).trans (ih _)

end Digest

namespace Solver

open Step

/-- The formulas that calls assert, in their order. -/
def asserted : List Call → List Formula
  | [] => []
  | .add f :: calls => f :: asserted calls
  | .check :: calls => asserted calls

/-- The assertions of calls without the checks between them. -/
def batch (calls : List Call) : List Call := (asserted calls).map Call.add

/-- Of a run with checks and the same run without them the formulas are the same, and the functions
made without checks are made with them as well. -/
theorem covers_batch (budget : Nat) (calls : List Call) {d e : Digest} (h : d.Covers e) :
    (calls.foldl (Digest.serve budget) d).Covers ((batch calls).foldl (Digest.serve budget) e) := by
  induction calls generalizing d e with
  | nil => exact h
  | cons q calls ih =>
    cases q with
    | add f => exact ih (h.add f)
    | check => exact ih h.check_left

/-- A sound solver with a given configuration whose atoms, root and names are as a digest says, and
in the store of which are the functions made so far. -/
structure Summarized (config : SolverConfig) (d : Digest) (s : Solver) : Prop where
  sound : ∃ fs, s.Sound fs
  config : s.config = config
  atoms : s.skeleton.atoms = d.atoms
  root : s.skeleton.Stands s.root d.root
  names : s.names = d.names
  stored : ∀ f ∈ d.made, s.skeleton.manager.Stores f

/-- The store of the solver is inside a family of functions. -/
def Inside (F : Set Condition) (s : Solver) : Prop := s.skeleton.manager.Inside F

variable {config : SolverConfig} {d : Digest} {s t : Solver} {F : Set Condition}

/-- References have room for a solver whose store is inside a scope. -/
theorem addressable_of_inside (hF : Manager.Scope F) (t : Solver) (h : t.Inside F) :
    Growing.Addressable t :=
  hF.fits t.skeleton.manager h

/-- A new solver has the digest of no formulas. -/
theorem summarized_of_create {journal : Journal} (h : create config journal = .ok s) :
    s.Summarized config .empty := by
  have hsound := sound_of_create h
  obtain ⟨m, -, rfl⟩ := eq_of_create h
  exact ⟨⟨[], hsound⟩, rfl, rfl, Skeleton.stands_one hsound.wf, rfl,
    fun _ hf => absurd hf (Set.notMem_empty _)⟩

/-! ### Assertions -/

/-- The condition of a formula is joined to that of the root. -/
theorem conjoin_realizes {N : String → Prop} {k : Skeleton} (wf : k.WellFormed N) {root : Ref}
    {g : Condition} (hroot : k.Stands root g) {f : Formula} (hN : ∀ x ∈ f.names, N x) :
    Skeleton.Realizes N Skeleton.Stands (conjoin root f) (Plan.conjoin g f) k := by
  refine (Skeleton.note_realizes wf _ _ _).after (fun _ => f.encode_grows.bind fun _ =>
    Skeleton.onManager_grows (Manager.conj_grows _ _)) fun _ t ht wft _ => ?_
  refine (f.encode_realizes wft hN).bind
    (fun _ => Skeleton.onManager_grows (Manager.conj_grows _ _)) fun r h u hu wfu hr => ?_
  exact Skeleton.conj_realizes wfu ((hroot.mono wf ht).mono wft hu) hr

/-- The plan of an assertion. -/
theorem Summarized.conjoin (h : s.Summarized config d) (f : Formula) :
    Skeleton.Realizes (· ∈ (s.names.addAll f.names).names) Skeleton.Stands (conjoin s.root f)
      (Plan.conjoin d.root f) s.skeleton := by
  obtain ⟨fs, hs⟩ := h.sound
  have wf : s.skeleton.WellFormed (· ∈ (s.names.addAll f.names).names) :=
    hs.wf.mono fun x hx => NameSet.mem_names_addAll.2 (Or.inl hx)
  exact conjoin_realizes wf h.root fun x hx => NameSet.mem_names_addAll.2 (Or.inr hx)

/-- An assertion adds the formula to the digest. -/
theorem add_summarized (h : s.Summarized config d) (f : Formula) :
    Yields (add f) s fun _ t => t.Summarized config (d.add f) := by
  obtain ⟨fs, hs⟩ := h.sound
  refine ((add_spec hs f).and (add_yields (h.conjoin f).yields)).imp
    fun _ t hext ⟨hsound, ⟨_, hatoms, hroot, hstored⟩, heq⟩ => ?_
  rw [h.atoms] at hatoms hroot hstored
  exact {
    sound := ⟨_, hsound⟩
    config := by rw [heq, ← h.config]
    atoms := hatoms
    root := hroot
    names := by rw [heq, Digest.add, ← h.names]
    stored := by
      rintro g (hg | hg)
      · exact (h.stored g hg).mono hs.wf.manager hext.manager
      · exact hstored g hg }

/-- An assertion stays in a scope that has the functions that it makes. -/
theorem add_stays (hF : Manager.Scope F) (h : s.Summarized config d) (hs : s.Inside F) {f : Formula}
    (hmade : (d.add f).made ⊆ F) : Stays (Inside F) (add f) s := by
  rw [Digest.add, ← h.atoms] at hmade
  obtain ⟨root, k, hrun, hext, hk⟩ := (h.conjoin f).stays hF hs (Set.subset_union_right.trans hmade)
  refine ⟨(), _, by rw [perform_add, hrun], ⟨hext.manager, hext.atoms⟩, ?_⟩
  exact hk

/-! ### Checks -/

/-- The plan of a check. -/
theorem Summarized.search (h : s.Summarized config d) :
    Skeleton.Realizes (· ∈ s.names.names) (fun _ result o => o = result)
      (Skeleton.search s.root 0 s.config.maxTheoryChecks)
      (Plan.search d.root 0 config.maxTheoryChecks) s.skeleton := by
  obtain ⟨fs, hs⟩ := h.sound
  rw [h.config]
  exact Skeleton.search_realizes _ hs.wf h.root 0

/-- A solver after a check with an answer, as the digest says of it. -/
structure Checked (config : SolverConfig) (d : Digest) (answer : Satisfiability) (s : Solver) :
    Prop where
  summarized : s.Summarized config (d.check config.maxTheoryChecks)
  answer : answer = (d.search config.maxTheoryChecks).value.answer
  model : s.model = (d.search config.maxTheoryChecks).value.values.map
    fun values => Model.complete values d.names
  theoryChecks : s.theoryChecks = (d.search config.maxTheoryChecks).value.theoryChecks

/-- A check ends as the search of the digest does, and leaves the digest as it is. -/
theorem check_summarized (h : s.Summarized config d) :
    Yields check s fun answer t => t.Checked config d answer := by
  obtain ⟨fs, hs⟩ := h.sound
  refine ((check_searched hs).and
    (check_yields h.search.yields (fun _ _ hP => hP.1.manager) hs.root.has)).imp ?_
  rintro _ t hext ⟨⟨hsound, _, _, _, hatoms, _⟩, result, k, journal, ⟨wfk, _, hresult, hstored⟩, -,
    rfl, rfl⟩
  rw [h.atoms] at hresult hstored
  subst hresult
  have hstored' : ∀ g ∈ (d.check config.maxTheoryChecks).made,
      Manager.Stores { k.manager with journal } g := by
    rintro g (hg | hg)
    · exact (h.stored g hg).mono hs.wf.manager hext.manager
    · exact (hstored g hg).mono wfk.manager (Manager.extends_of_nodes_eq rfl)
  exact {
    summarized := ⟨⟨fs, hsound⟩, h.config, hatoms.trans h.atoms, h.root.mono hs.wf hext, h.names,
      hstored'⟩
    answer := rfl
    model := by
      rw [← h.names]
      rfl
    theoryChecks := rfl }

/-- A check stays in a scope that has the functions that it makes. -/
theorem check_stays (hF : Manager.Scope F) (h : s.Summarized config d) (hs : s.Inside F)
    (hmade : (d.check config.maxTheoryChecks).made ⊆ F) : Stays (Inside F) check s := by
  obtain ⟨fs, hsound⟩ := h.sound
  have hsearch : (Plan.search d.root 0 config.maxTheoryChecks s.skeleton.atoms).made ⊆ F := by
    rw [h.atoms]
    exact Set.subset_union_right.trans hmade
  obtain ⟨result, k, hrun, hext, hk⟩ := h.search.stays hF hs hsearch
  obtain ⟨journal, hcheck⟩ := check_of_search hrun hk.wf (hsound.root.has.mono hext.manager)
  refine ⟨_, _, hcheck, ⟨hext.manager, hext.atoms⟩, ?_⟩
  exact Manager.Inside.withJournal hk journal

/-! ### Runs -/

theorem Call.serve_summarized (h : s.Summarized config d) (q : Call) :
    Yields q.serve s fun _ t => t.Summarized config (d.serve config.maxTheoryChecks q) := by
  cases q with
  | add f =>
    exact (add_summarized h f).bind (fun _ => Grows.pure _) fun _ t _ ht => Yields.pure ht
  | check =>
    exact (check_summarized h).bind (fun _ => Grows.pure _) fun _ t _ ht =>
      Yields.pure ht.summarized

theorem Call.serve_stays (hF : Manager.Scope F) (h : s.Summarized config d) (hs : s.Inside F)
    (q : Call) (hmade : (d.serve config.maxTheoryChecks q).made ⊆ F) :
    Stays (Inside F) q.serve s := by
  cases q with
  | add f => exact (add_stays hF h hs hmade).bind fun _ t _ ht => Stays.pure ht _
  | check => exact (check_stays hF h hs hmade).bind fun _ t _ ht => Stays.pure ht _

/-- The digest of a run is that of its calls, one after the other. -/
theorem serveAll_summarized (h : s.Summarized config d) (calls : List Call) :
    Yields (serveAll calls) s fun _ t =>
      t.Summarized config (calls.foldl (Digest.serve config.maxTheoryChecks) d) := by
  induction calls generalizing s d with
  | nil => exact Yields.pure h
  | cons q calls ih =>
    unfold serveAll
    rw [List.mapM_cons]
    refine (Call.serve_summarized h q).bind
      (fun _ => (serveAll_grows calls).bind fun _ => Grows.pure _) fun _ t _ ht => ?_
    exact (ih ht).bind (fun _ => Grows.pure _) fun _ u _ hu => Yields.pure hu

/-- A run stays in a scope that has the functions that it makes. -/
theorem serveAll_stays (hF : Manager.Scope F) (h : s.Summarized config d) (hs : s.Inside F)
    (calls : List Call)
    (hmade : (calls.foldl (Digest.serve config.maxTheoryChecks) d).made ⊆ F) :
    Stays (Inside F) (serveAll calls) s := by
  induction calls generalizing s d with
  | nil => exact Stays.pure hs _
  | cons q calls ih =>
    unfold serveAll
    rw [List.mapM_cons]
    have hfirst := Call.serve_stays hF h hs q ((Digest.made_subset_foldl calls _).trans hmade)
    refine (hfirst.yields (addressable_of_inside hF) (Call.serve_summarized h q)).bind
      fun _ t _ ⟨ht, hsummarized⟩ => ?_
    exact (ih hsummarized ht hmade).bind fun _ u _ hu => Stays.pure hu _

/-! ### What a solver shows -/

/-- Solvers whose last checks show the same: the model, the number of paths examined, the atoms and
the extent of the skeleton. -/
structure Agree (s t : Solver) : Prop where
  model : t.model = s.model
  theoryChecks : t.theoryChecks = s.theoryChecks
  atoms : t.skeleton.atoms = s.skeleton.atoms
  stats : ∃ a b, s.stats = .ok a ∧ t.stats = .ok b ∧ b.atoms = a.atoms ∧
    b.skeletonSize = a.skeletonSize ∧ b.theoryChecks = a.theoryChecks

/-- The extents of a solver are those of its digest, but for the numbers of lookups. -/
theorem Summarized.stats_eq (h : s.Summarized config d) :
    ∃ hits misses, s.stats =
      .ok ⟨d.atoms.size, extentOf d.root, s.theoryChecks, hits, misses⟩ := by
  obtain ⟨fs, hs⟩ := h.sound
  rw [Solver.stats_eq, Manager.Denotes.extent_eq hs.wf.manager h.root, h.atoms]
  exact ⟨_, _, rfl⟩

/-- Checks of solvers with digests of the same formulas end alike. -/
theorem Checked.agree {e : Digest} {a b : Satisfiability} (hs : s.Checked config d a)
    (ht : t.Checked config e b) (h : d.Same e) : a = b ∧ s.Agree t := by
  have hchecks : t.theoryChecks = s.theoryChecks := by
    rw [ht.theoryChecks, hs.theoryChecks, h.search_eq]
  refine ⟨by rw [hs.answer, ht.answer, h.search_eq], ?_, hchecks, ?_, ?_⟩
  · rw [ht.model, hs.model, h.search_eq, h.names]
  · exact ht.summarized.atoms.trans (h.atoms.trans hs.summarized.atoms.symm)
  · obtain ⟨_, _, ha⟩ := hs.summarized.stats_eq
    obtain ⟨_, _, hb⟩ := ht.summarized.stats_eq
    exact ⟨_, _, ha, hb, congrArg AtomTable.size h.atoms, congrArg extentOf h.root, hchecks⟩

/-! ### Runs that end with a check -/

/-- What all checks of solvers with a digest promise is promised of a run that comes to this digest
and ends with a check. -/
theorem serveAll_concat (h : s.Summarized config d) (calls : List Call)
    {P : Satisfiability → Solver → Prop}
    (hcheck : ∀ t : Solver, t.Summarized config
      (calls.foldl (Digest.serve config.maxTheoryChecks) d) → Yields check t P) :
    Yields (serveAll (calls ++ [Call.check])) s fun answers t => ∃ earlier answer,
      answers = earlier ++ [some answer] ∧ P answer t := by
  have hsplit : serveAll (calls ++ [Call.check]) = do
      let earlier ← serveAll calls
      let answer ← check
      return earlier ++ [some answer] := by
    unfold serveAll
    rw [List.mapM_append]
    simp [Call.serve]
  rw [hsplit]
  refine (serveAll_summarized h calls).bind
    (fun _ => check_grows.bind fun _ => Grows.pure _) fun earlier t _ ht => ?_
  exact (hcheck t ht).bind (fun _ => Grows.pure _) fun answer u _ hu =>
    Yields.pure ⟨earlier, answer, rfl, hu⟩

/-- A run that ends with a check ends as the digest of the calls before it says. -/
theorem serveAll_check (h : s.Summarized config d) (calls : List Call) :
    Yields (serveAll (calls ++ [Call.check])) s fun answers t => ∃ earlier answer,
      answers = earlier ++ [some answer] ∧
      t.Checked config (calls.foldl (Digest.serve config.maxTheoryChecks) d) answer :=
  serveAll_concat h calls fun _ ht => check_summarized ht

/-- Checks have no influence on what comes after them.  Every run of assertions and checks that ends
with a check ends as it does in a new solver in which the same formulas are asserted in the same
order and checked once: with the same answer, the same model, the same atoms, the same extent of the
skeleton and as many paths examined; and one more check has the same answer again and leaves the
same model.  All nodes of the run must have indices that references can hold; those of the other
runs have them then. -/
theorem incremental_eq_batch {config : SolverConfig} (hbits : config.bucketBits ≤ 24)
    (journal journal' : Journal) :
    ∃ s s', create config journal = .ok s ∧ create config journal' = .ok s' ∧
      ∀ calls : List Call,
        ((serveAll (calls ++ [Call.check])).perform s).2.skeleton.manager.Addressable →
        ∃ answers answers' answer t t' u,
          (serveAll (calls ++ [Call.check])).perform s = (.ok (answers ++ [some answer]), t) ∧
          (serveAll (batch calls ++ [Call.check])).perform s' =
            (.ok (answers' ++ [some answer]), t') ∧ t.Agree t' ∧
          check.perform t = (.ok answer, u) ∧ t.Agree u := by
  obtain ⟨m, hm⟩ := Manager.exists_create hbits journal
  obtain ⟨m', hm'⟩ := Manager.exists_create hbits journal'
  have hcreate := create_of_manager config hm
  have hcreate' := create_of_manager config hm'
  refine ⟨_, _, hcreate, hcreate', fun calls hfit => ?_⟩
  obtain ⟨_, t, hrun, hext, answers, answer, rfl, ht⟩ :=
    serveAll_check (summarized_of_create hcreate) calls hfit
  rw [hrun] at hfit
  -- the functions of the store at the end are the scope of the other runs
  obtain ⟨fs, hsound⟩ := ht.summarized.sound
  have hF := Manager.scope_of_addressable hsound.wf.manager hfit
  have hcovers := covers_batch config.maxTheoryChecks calls (Digest.Covers.refl .empty)
  have hbatch := serveAll_stays hF (summarized_of_create hcreate')
    (Manager.inside_of_create hm' hsound.wf.manager) (batch calls ++ [Call.check])
    fun f hf => ht.summarized.stored f (hcovers.check.made (by rwa [List.foldl_append] at hf))
  obtain ⟨_, t', hrun', -, -, answers', answer', rfl, ht'⟩ :=
    hbatch.yields (addressable_of_inside hF)
      (serveAll_check (summarized_of_create hcreate') (batch calls))
  obtain ⟨rfl, hagree⟩ := ht.agree ht' hcovers.toSame
  have hagain := check_stays hF ht.summarized hsound.wf.manager.inside_stores fun f hf =>
    ht.summarized.stored f (by rwa [Digest.check_check] at hf)
  obtain ⟨answer', u, hrunu, -, -, hu⟩ :=
    hagain.yields (addressable_of_inside hF) (check_summarized ht.summarized)
  obtain ⟨rfl, hagree'⟩ := ht.agree hu ⟨rfl, rfl, rfl⟩
  exact ⟨answers, answers', answer, t, t', u, hrun, hrun', hagree, hrunu, hagree'⟩

/-- A check between `|x| < 1` and `x > 2` has no influence on the answer to both, nor has one after
them. -/
theorem incremental_eq_batch_abs_lt_one :
    ∃ s calls, create { bucketBits := 0 } .closed = .ok s ∧
      calls = [.add ((Term.abs (.var "x")).lt (.const 1)), Call.check,
        .add ((Term.const 2).lt (.var "x"))] ∧
      ∃ answers answers' answer t t' u,
        (serveAll (calls ++ [Call.check])).perform s = (.ok (answers ++ [some answer]), t) ∧
        (serveAll (batch calls ++ [Call.check])).perform s =
          (.ok (answers' ++ [some answer]), t') ∧ t.Agree t' ∧
        check.perform t = (.ok answer, u) ∧ t.Agree u := by
  obtain ⟨s, s', hcreate, hcreate', hruns⟩ := incremental_eq_batch
    (show ({ bucketBits := 0 } : SolverConfig).bucketBits ≤ 24 by decide) .closed .closed
  cases hcreate.symm.trans create_smallest
  cases hcreate'.symm.trans create_smallest
  exact ⟨_, _, hcreate, rfl, hruns [.add ((Term.abs (.var "x")).lt (.const 1)), Call.check,
    .add ((Term.const 2).lt (.var "x"))] (of_decide_eq_true (by cbv))⟩

end Solver

end BrakeCheck
