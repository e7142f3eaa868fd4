import BrakeCheck.Proofs.Lockstep
import BrakeCheck.Proofs.Solver
import Mathlib

/-!
# The size of the tables has no influence

Everything that is built on the store reads it through its answers and its nodes alone, so what
stays in lockstep on the store stays so all the way up: encodings make the same atoms, searches
follow the same paths, and solvers whose tables have different sizes answer all checks with the
same verdicts and models.

## Main definitions

* `Skeleton.Alike`, `Solver.Alike` — skeletons and solvers that differ in their tables alone.
* `Solver.Call` — an assertion or a check.

## Main statements

* `Formula.encode_lockstep` — encodings from alike skeletons.
* `Skeleton.search_lockstep` — searches from alike skeletons.
* `Solver.serveAll_lockstep` — runs of assertions and checks.
* `same_answers_of_bits` — the size of the tables has no influence.
-/

namespace BrakeCheck

open Step

namespace Skeleton

/-- Skeletons with the same nodes and the same atoms; the tables of their stores may differ. -/
structure Alike (s t : Skeleton) : Prop where
  manager : s.manager.Alike t.manager
  atoms : t.atoms = s.atoms

variable {s t : Skeleton}

/-! ### Computations on the store -/

theorem onManager_lockstep {α : Type} {step : Step Manager α} (h : Lockstep Manager.Alike step) :
    Lockstep Alike (onManager step) := by
  intro s t hst
  obtain ⟨houtcome, hmanager⟩ := h s.manager t.manager hst.manager
  exact ⟨houtcome, hmanager, hst.atoms⟩

theorem note_lockstep (level : Level) (origin : Origin) (text : Thunk String) :
    Lockstep Alike (onManager (Manager.note level origin text)) :=
  onManager_lockstep (Manager.note_lockstep _ _ _)

theorem conj_lockstep (a b : Ref) : Lockstep Alike (onManager (Manager.conj a b)) :=
  onManager_lockstep (Manager.conj_lockstep a b)

/-! ### Atoms -/

/-- An atom has the same number in both skeletons, or gets it there. -/
theorem intern_lockstep (e : LinExpr) : Lockstep Alike (intern e) := by
  have find_lockstep : Lockstep Alike (Step.query fun s => .ok (s.atoms.find? e)) :=
    Lockstep.query fun s t h => by rw [h.atoms]
  unfold intern
  refine Lockstep.ite ((Lockstep.throw _).bind fun _ => ?_) ?_
  all_goals
    refine find_lockstep.bind fun found => ?_
    cases found with
    | some x => exact Lockstep.pure x
    | none =>
      refine (Lockstep.modifyGet fun s t h => ?_).bind fun v =>
        (note_lockstep _ _ _).bind fun _ => Lockstep.pure v
      exact ⟨congrArg (fun atoms => atoms.size + 1) h.atoms, h.manager,
        congrArg (fun atoms => atoms.push e) h.atoms⟩

theorem belowZero_lockstep (e : LinExpr) : Lockstep Alike (belowZero e) :=
  Lockstep.ite (Lockstep.pure _) ((intern_lockstep _).bind fun v =>
    onManager_lockstep (Manager.mkVar_lockstep v))

theorem isZero_lockstep (e : LinExpr) : Lockstep Alike (isZero e) :=
  (belowZero_lockstep _).bind fun _ => (belowZero_lockstep _).bind fun _ => conj_lockstep _ _

theorem relate_lockstep (r : Relation) (e : LinExpr) : Lockstep Alike (relate r e) := by
  cases r with
  | lt => exact belowZero_lockstep _
  | gt => exact belowZero_lockstep _
  | le => exact (belowZero_lockstep _).bind fun _ => Lockstep.pure _
  | ge => exact (belowZero_lockstep _).bind fun _ => Lockstep.pure _
  | eq => exact isZero_lockstep _
  | ne => exact (isZero_lockstep _).bind fun _ => Lockstep.pure _

/-! ### Cases -/

theorem caseUnder_lockstep (guard condition : Ref) (e : LinExpr) :
    Lockstep Alike (caseUnder guard condition e) :=
  (conj_lockstep _ _).bind fun _ => Lockstep.pure _

theorem restrict_lockstep (condition : Ref) (cs : List Case) :
    Lockstep Alike (restrict condition cs) :=
  Lockstep.collect (fun _ => caseUnder_lockstep _ _ _) cs

theorem combine_lockstep (op : LinExpr → LinExpr → LinExpr) (as bs : List Case) :
    Lockstep Alike (combine op as bs) :=
  Lockstep.collect (fun _ => Lockstep.collect (fun _ => caseUnder_lockstep _ _ _) bs) as

theorem splitSigns_lockstep (cs : List Case) : Lockstep Alike (splitSigns cs) :=
  Lockstep.collect (fun _ => (belowZero_lockstep _).bind fun _ => (caseUnder_lockstep _ _ _).bind
    fun _ => (caseUnder_lockstep _ _ _).bind fun _ => Lockstep.pure _) cs

theorem compareCases_lockstep (r : Relation) (a : Case) (acc : Ref) (b : Case) :
    Lockstep Alike (compareCases r a acc b) :=
  (conj_lockstep _ _).bind fun _ => Lockstep.ite (Lockstep.pure _) <|
    (relate_lockstep _ _).bind fun _ => (conj_lockstep _ _).bind fun _ =>
      onManager_lockstep (Manager.disj_lockstep _ _)

theorem compareAll_lockstep (r : Relation) (as bs : List Case) :
    Lockstep Alike (compareAll r as bs) :=
  Lockstep.foldlM (fun _ _ => Lockstep.foldlM (fun _ _ => compareCases_lockstep _ _ _ _) bs _) as _

end Skeleton

open Skeleton

/-! ### Encodings -/

mutual

theorem Term.caseSplit_lockstep (a : Term) : Lockstep Skeleton.Alike a.caseSplit := by
  cases a with
  | var x => exact Lockstep.pure _
  | const c => exact Lockstep.pure _
  | add a b =>
    exact a.caseSplit_lockstep.bind fun _ => b.caseSplit_lockstep.bind fun _ =>
      combine_lockstep _ _ _
  | sub a b =>
    exact a.caseSplit_lockstep.bind fun _ => b.caseSplit_lockstep.bind fun _ =>
      combine_lockstep _ _ _
  | neg a => exact a.caseSplit_lockstep.bind fun _ => Lockstep.pure _
  | scale factor a => exact a.caseSplit_lockstep.bind fun _ => Lockstep.pure _
  | abs a => exact a.caseSplit_lockstep.bind fun _ => splitSigns_lockstep _
  | ite c a b =>
    exact c.encode_lockstep.bind fun _ => a.caseSplit_lockstep.bind fun _ =>
      (restrict_lockstep _ _).bind fun _ => b.caseSplit_lockstep.bind fun _ =>
        (restrict_lockstep _ _).bind fun _ => Lockstep.pure _

/-- Encodings make the same atoms and the same nodes. -/
theorem Formula.encode_lockstep (f : Formula) : Lockstep Skeleton.Alike f.encode := by
  cases f with
  | true => exact Lockstep.pure _
  | false => exact Lockstep.pure _
  | compare a r b =>
    exact a.caseSplit_lockstep.bind fun _ => b.caseSplit_lockstep.bind fun _ =>
      compareAll_lockstep _ _ _
  | not f => exact f.encode_lockstep.bind fun _ => Lockstep.pure _
  | and fs =>
    exact (Formula.encodeAll_lockstep fs).bind fun _ =>
      onManager_lockstep (Manager.conjFrom_lockstep _ _)
  | or fs =>
    exact (Formula.encodeAll_lockstep fs).bind fun _ =>
      onManager_lockstep (Manager.disjFrom_lockstep _ _)
  | implies f g =>
    exact f.encode_lockstep.bind fun _ => g.encode_lockstep.bind fun _ =>
      onManager_lockstep (Manager.imp_lockstep _ _)
  | ite c f g =>
    exact c.encode_lockstep.bind fun _ => f.encode_lockstep.bind fun _ =>
      g.encode_lockstep.bind fun _ => onManager_lockstep (Manager.ite_lockstep _)

theorem Formula.encodeAll_lockstep (fs : List Formula) :
    Lockstep Skeleton.Alike (Formula.encodeAll fs) := by
  cases fs with
  | nil => exact Lockstep.pure _
  | cons f fs =>
    exact f.encode_lockstep.bind fun _ => (Formula.encodeAll_lockstep fs).bind fun _ =>
      Lockstep.pure _

end

/-! ### Searches -/

namespace Skeleton

theorem examine_lockstep (ls : List Literal) : Lockstep Alike (examine ls) := by
  refine (Lockstep.query fun s t h => ?_).bind fun _ =>
    (onManager_lockstep (Manager.noteAll_lockstep _ _ _)).bind fun _ => Lockstep.pure _
  rw [h.atoms]

/-- Searches follow the same paths and end in the same way. -/
theorem search_lockstep (budget : Nat) :
    ∀ (r : Ref) (spent : Nat), Lockstep Alike (search r spent budget) := by
  have path_lockstep : ∀ r, Lockstep Alike (Step.query fun s => s.manager.path r) := fun r =>
    Lockstep.query fun _ _ h => h.manager.same.path_eq r
  induction budget with
  | zero =>
    intro r spent
    refine (path_lockstep r).bind fun found => ?_
    cases found with
    | none => exact Lockstep.pure _
    | some ls => exact (note_lockstep _ _ _).bind fun _ => Lockstep.pure _
  | succ budget ih =>
    intro r spent
    refine (path_lockstep r).bind fun found => ?_
    cases found with
    | none => exact Lockstep.pure _
    | some ls =>
      refine (note_lockstep _ _ _).bind fun _ => (examine_lockstep ls).bind fun verdict => ?_
      cases verdict with
      | feasible values => exact Lockstep.pure _
      | infeasible =>
        exact (onManager_lockstep (Manager.block_lockstep _ _)).bind fun q => ih q (spent + 1)

end Skeleton

/-! ### Assertions and checks -/

namespace Solver

/-- Solvers with the same budget that differ at most in the tables and the journals of their
stores. -/
structure Alike (s t : Solver) : Prop where
  budget : t.config.maxTheoryChecks = s.config.maxTheoryChecks
  skeleton : s.skeleton.Alike t.skeleton
  assertions : t.assertions = s.assertions
  root : t.root = s.root
  names : t.names = s.names
  model : t.model = s.model
  theoryChecks : t.theoryChecks = s.theoryChecks

variable {α : Type} {fs : List Formula} {s t : Solver}

theorem onSkeleton_lockstep {step : Step Skeleton α} (h : Lockstep Skeleton.Alike step) :
    Lockstep Alike (onSkeleton step) := by
  intro s t hst
  obtain ⟨houtcome, hskeleton⟩ := h s.skeleton t.skeleton hst.skeleton
  exact ⟨houtcome, { hst with skeleton := hskeleton }⟩

/-- An assertion makes the same atoms and leads to the same root. -/
theorem add_lockstep (f : Formula) : Lockstep Alike (add f) := by
  refine (onSkeleton_lockstep (Skeleton.note_lockstep _ _ _)).bind fun _ => ?_
  refine Lockstep.bind (Lockstep.modify fun s t h => ?_) fun _ => ?_
  · exact { h with names := by rw [h.names] }
  refine (onSkeleton_lockstep f.encode_lockstep).bind fun r => ?_
  refine Lockstep.get_bind (fun s t h => by dsimp only; rw [h.root]) fun s => ?_
  refine (onSkeleton_lockstep (Skeleton.conj_lockstep s.root r)).bind fun root => ?_
  refine Lockstep.modify fun s t h => ?_
  exact { h with root := rfl, assertions := by rw [h.assertions] }

theorem addAll_lockstep (fs : List Formula) : Lockstep Alike (addAll fs) := by
  induction fs with
  | nil => exact Lockstep.pure _
  | cons f fs ih => exact (add_lockstep f).bind fun _ => ih

/-- The statistics of a solver, given the extent of its root. -/
theorem stats_eq (s : Solver) : s.stats = (s.skeleton.manager.extent s.root).map fun size =>
    ⟨s.skeleton.atoms.size, size, s.theoryChecks, s.skeleton.manager.lookupCounts.1,
      s.skeleton.manager.lookupCounts.2⟩ := by
  unfold stats
  cases s.skeleton.manager.extent s.root <;> rfl

theorem Alike.extent_eq (h : s.Alike t) :
    t.skeleton.manager.extent t.root = s.skeleton.manager.extent s.root := by
  rw [h.root, h.skeleton.manager.same.extent_eq]

/-- The extents of alike solvers differ at most in the numbers of lookups. -/
theorem Alike.stats_eq (h : s.Alike t) :
    t.stats.map (fun stats => (stats.atoms, stats.skeletonSize, stats.theoryChecks)) =
      s.stats.map fun stats => (stats.atoms, stats.skeletonSize, stats.theoryChecks) := by
  rw [Solver.stats_eq, Solver.stats_eq, h.extent_eq, h.skeleton.atoms, h.theoryChecks]
  cases s.skeleton.manager.extent s.root <;> rfl

/-- Both solvers report on their checks, though not with the same numbers of lookups. -/
theorem report_lockstep (answer : Satisfiability) : Lockstep Alike (do
    let stats ← Step.query Solver.stats
    note .info .solver (renderCheck answer stats)
    return answer) := by
  intro s t h
  have hstats := s.stats_eq
  have hstats' := t.stats_eq
  rw [h.extent_eq] at hstats'
  constructor
  · rw [perform_bind, perform_bind, perform_query, perform_query, hstats, hstats']
    cases s.skeleton.manager.extent s.root <;> rfl
  · rw [perform_bind, perform_bind, perform_query, perform_query, hstats, hstats']
    cases s.skeleton.manager.extent s.root with
    | error f => exact h
    | ok size =>
      exact { h with skeleton := ⟨h.skeleton.manager.withJournal _ _, h.skeleton.atoms⟩ }

/-- A check has the same answer and leaves the same model. -/
theorem check_lockstep : Lockstep Alike check := by
  -- the model of an earlier check is dropped first
  refine Lockstep.bind (Lockstep.modify fun s t h => ?_) fun _ => ?_
  · exact { h with model := rfl, theoryChecks := rfl }
  refine (Lockstep.query fun s t h => by rw [h.root, h.budget]).bind fun (root, budget) => ?_
  refine (onSkeleton_lockstep (Skeleton.search_lockstep budget root 0)).bind fun result => ?_
  refine Lockstep.bind (Lockstep.modify fun s t h => ?_) fun _ => report_lockstep result.answer
  exact { h with model := by rw [h.names], theoryChecks := rfl }

/-! ### Runs -/

/-- What a solver can be asked for. -/
inductive Call where
  | add (f : Formula)
  | check

/-- The answer to a call: an assertion has none. -/
def Call.serve : Call → Step Solver (Option Satisfiability)
  | .add f => do
    Solver.add f
    return none
  | .check => do return some (← Solver.check)

/-- The answers to calls, one after the other. -/
def serveAll (calls : List Call) : Step Solver (List (Option Satisfiability)) :=
  calls.mapM Call.serve

theorem Call.serve_grows (q : Call) : Grows q.serve := by
  cases q with
  | add f => exact (add_grows f).bind fun _ => Grows.pure _
  | check => exact check_grows.bind fun _ => Grows.pure _

theorem serveAll_grows (calls : List Call) : Grows (serveAll calls) :=
  Grows.mapM Call.serve_grows calls

/-- A call leaves a sound solver sound. -/
theorem Call.serve_spec (hs : s.Sound fs) (q : Call) :
    Yields q.serve s fun _ t => ∃ gs, t.Sound gs := by
  cases q with
  | add f =>
    exact (add_spec hs f).bind (fun _ => Grows.pure _) fun _ t _ ht => Yields.pure ⟨_, ht⟩
  | check =>
    exact (check_spec hs).bind (fun _ => Grows.pure _) fun _ t _ ⟨ht, _⟩ => Yields.pure ⟨_, ht⟩

/-- All calls are answered. -/
theorem serveAll_spec (hs : s.Sound fs) (calls : List Call) :
    Yields (serveAll calls) s fun _ t => ∃ gs, t.Sound gs :=
  Yields.mapM Call.serve_grows (fun q _ ⟨_, ht⟩ => Call.serve_spec ht q) calls ⟨fs, hs⟩

theorem Call.serve_lockstep (q : Call) : Lockstep Alike q.serve := by
  cases q with
  | add f => exact (add_lockstep f).bind fun _ => Lockstep.pure _
  | check => exact check_lockstep.bind fun _ => Lockstep.pure _

/-- Runs of assertions and checks stay in lockstep. -/
theorem serveAll_lockstep (calls : List Call) : Lockstep Alike (serveAll calls) :=
  Lockstep.mapM Call.serve_lockstep calls

/-- The extent of a sound solver is known. -/
theorem Sound.exists_stats (hs : s.Sound fs) : ∃ stats, s.stats = .ok stats := by
  obtain ⟨size, hsize⟩ := Manager.extent_eq_ok hs.wf.manager hs.root.has
  rw [stats_eq, hsize]
  exact ⟨_, rfl⟩

/-- A new solver has the new store of its size. -/
theorem create_of_manager (config : SolverConfig) {journal : Journal} {m : Manager}
    (h : Manager.create config.bucketBits journal = .ok m) :
    create config journal = .ok ⟨config, ⟨m, .empty⟩, #[], .one, ∅, none, 0⟩ := by
  unfold create Skeleton.create
  rw [h]
  rfl

theorem eq_of_create {config : SolverConfig} {journal : Journal}
    (h : create config journal = .ok s) :
    ∃ m, Manager.create config.bucketBits journal = .ok m ∧
      s = ⟨config, ⟨m, .empty⟩, #[], .one, ∅, none, 0⟩ := by
  cases hm : Manager.create config.bucketBits journal with
  | error e => simp [create, Skeleton.create, hm, bind, Except.bind] at h
  | ok m => exact ⟨m, rfl, Except.ok.inj (h.symm.trans (create_of_manager config hm))⟩

/-- New solvers with the same budget are alike, whatever the size of their tables is. -/
theorem alike_of_create {config config' : SolverConfig} {journal journal' : Journal}
    (hs : create config journal = .ok s) (ht : create config' journal' = .ok t)
    (hbudget : config'.maxTheoryChecks = config.maxTheoryChecks) : s.Alike t := by
  obtain ⟨m, hm, rfl⟩ := eq_of_create hs
  obtain ⟨n, hn, rfl⟩ := eq_of_create ht
  exact ⟨hbudget, ⟨Manager.alike_of_create hm hn, rfl⟩, rfl, rfl, rfl, rfl, rfl⟩

end Solver

/-! ### The size of the tables -/

/-- The size of the tables has no influence.  In every run of requests, stores of any two sizes give
the same references, or stop with the same fault, and hold the same nodes under the same indices;
if the requests are orderly and the nodes fit the references, all of them are answered.  In every
run of assertions and checks, solvers that differ in the size of their tables alone give the same
answers, and have the same models, atoms, extents of the skeleton and numbers of examined paths. -/
theorem same_answers_of_bits {bits bits' : Nat} (hbits : bits ≤ 24) (hbits' : bits' ≤ 24)
    (journal journal' : Journal) :
    (∃ m n, Manager.create bits journal = .ok m ∧ Manager.create bits' journal' = .ok n ∧
      ∀ qs : List Request, ∃ outcome t u, (Manager.serveAll qs).perform m = (outcome, t) ∧
        (Manager.serveAll qs).perform n = (outcome, u) ∧
        (∀ i, u.nodes.value? i = t.nodes.value? i) ∧
        (m.Orderly qs → t.Addressable → ∃ rs, outcome = .ok rs)) ∧
    ∀ config : SolverConfig, ∃ s t,
      Solver.create { config with bucketBits := bits } journal = .ok s ∧
      Solver.create { config with bucketBits := bits' } journal' = .ok t ∧
      ∀ calls : List Solver.Call, ∃ outcome s' t',
        (Solver.serveAll calls).perform s = (outcome, s') ∧
        (Solver.serveAll calls).perform t = (outcome, t') ∧
        t'.model = s'.model ∧ t'.skeleton.atoms = s'.skeleton.atoms ∧
        t'.theoryChecks = s'.theoryChecks ∧
        t'.stats.map (fun stats => (stats.atoms, stats.skeletonSize, stats.theoryChecks)) =
          s'.stats.map (fun stats => (stats.atoms, stats.skeletonSize, stats.theoryChecks)) ∧
        (s'.skeleton.manager.Addressable → ∃ answers stats, outcome = .ok answers ∧
          s'.stats = .ok stats) := by
  obtain ⟨m, hm⟩ := Manager.exists_create hbits journal
  obtain ⟨n, hn⟩ := Manager.exists_create hbits' journal'
  have halike := Manager.alike_of_create hm hn
  refine ⟨⟨m, n, hm, hn, fun qs => ?_⟩, fun config => ?_⟩
  · obtain ⟨outcome, t, u, ht, hu, hrun⟩ :=
      (Manager.serveAll_lockstep qs m n halike).exists_perform
    refine ⟨outcome, t, u, ht, hu, hrun.same.value?_eq, fun horderly hfit => ?_⟩
    obtain ⟨rs, hrs, -⟩ := (Manager.serveAll_spec (Manager.wellFormed_of_create hm)
      horderly).answer_of_perform ht hfit
    exact ⟨rs, hrs⟩
  · have hs := Solver.create_of_manager { config with bucketBits := bits } hm
    have ht := Solver.create_of_manager { config with bucketBits := bits' } hn
    refine ⟨_, _, hs, ht, fun calls => ?_⟩
    obtain ⟨outcome, s', t', hs', ht', hrun⟩ :=
      (Solver.serveAll_lockstep calls _ _ (Solver.alike_of_create hs ht rfl)).exists_perform
    refine ⟨outcome, s', t', hs', ht', hrun.model, hrun.skeleton.atoms, hrun.theoryChecks,
      hrun.stats_eq, fun hfit => ?_⟩
    obtain ⟨answers, hanswers, fs, hsound⟩ :=
      (Solver.serveAll_spec (Solver.sound_of_create hs) calls).answer_of_perform hs' hfit
    obtain ⟨stats, hstats⟩ := hsound.exists_stats
    exact ⟨answers, stats, hanswers, hstats⟩

/-- The first store forgets a conjunction that the second one still knows when it is asked for
again, and gives the same reference.  Solvers on stores of these sizes find the same model of
`1 < |x|`, and none after `|x| < 1` has been added. -/
theorem same_answers_of_bits_zero_four :
    (∃ m n rs t u, Manager.create 0 .closed = .ok m ∧ Manager.create 4 .closed = .ok n ∧
      (Manager.serveAll [.var 1, .var 2, .var 3, .conj ⟨2, false⟩ ⟨3, false⟩,
        .disj ⟨2, false⟩ ⟨4, false⟩, .conj ⟨2, false⟩ ⟨3, false⟩]).perform m = (.ok rs, t) ∧
      (Manager.serveAll [.var 1, .var 2, .var 3, .conj ⟨2, false⟩ ⟨3, false⟩,
        .disj ⟨2, false⟩ ⟨4, false⟩, .conj ⟨2, false⟩ ⟨3, false⟩]).perform n = (.ok rs, u) ∧
      (∀ i, u.nodes.value? i = t.nodes.value? i) ∧
      t.lookupCounts = (0, 3) ∧ u.lookupCounts = (1, 2)) ∧
    ∃ s t s' t', Solver.create { bucketBits := 0 } .closed = .ok s ∧
      Solver.create { bucketBits := 4 } .closed = .ok t ∧
      (Solver.serveAll [.add ((Term.const 1).lt (Term.abs (.var "x"))), .check,
        .add ((Term.abs (.var "x")).lt (.const 1)), .check]).perform s =
          (.ok [none, some .sat, none, some .unsat], s') ∧
      (Solver.serveAll [.add ((Term.const 1).lt (Term.abs (.var "x"))), .check,
        .add ((Term.abs (.var "x")).lt (.const 1)), .check]).perform t =
          (.ok [none, some .sat, none, some .unsat], t') ∧
      t'.skeleton.atoms = s'.skeleton.atoms := by
  obtain ⟨⟨m, n, hm, hn, hruns⟩, hsolvers⟩ :=
    same_answers_of_bits (Nat.zero_le 24) (show 4 ≤ 24 by decide) .closed .closed
  constructor
  · obtain rfl := Manager.eq_of_create hm
    obtain rfl := Manager.eq_of_create hn
    obtain ⟨outcome, t, u, ht, hu, hnodes, hanswered⟩ := hruns [.var 1, .var 2, .var 3,
      .conj ⟨2, false⟩ ⟨3, false⟩, .disj ⟨2, false⟩ ⟨4, false⟩, .conj ⟨2, false⟩ ⟨3, false⟩]
    have hfit : t.Addressable := by
      refine of_decide_eq_true ?_
      refine (congrArg (fun run => decide (Manager.Addressable run.2)) ht).symm.trans ?_
      decide +kernel
    obtain ⟨rs, rfl⟩ := hanswered (by decide +kernel) hfit
    refine ⟨_, _, rs, t, u, hm, hn, ht, hu, hnodes, ?_, ?_⟩
    · refine (congrArg (fun run => Manager.lookupCounts run.2) ht).symm.trans ?_
      cbv
    · refine (congrArg (fun run => Manager.lookupCounts run.2) hu).symm.trans ?_
      cbv
  · obtain ⟨s, t, hs, ht, hcalls⟩ := hsolvers {}
    obtain rfl := Manager.eq_of_create hm
    cases hs.symm.trans (Solver.create_of_manager { bucketBits := 0 } hm)
    obtain ⟨outcome, s', t', hruns, hrunt, -, hatoms, -⟩ := hcalls
      [.add ((Term.const 1).lt (Term.abs (.var "x"))), .check,
        .add ((Term.abs (.var "x")).lt (.const 1)), .check]
    have houtcome : outcome = .ok [none, some .sat, none, some .unsat] := by
      refine (congrArg Prod.fst hruns).symm.trans ?_
      cbv
    subst houtcome
    exact ⟨_, t, s', t', hs, ht, hruns, hrunt, hatoms⟩

end BrakeCheck
