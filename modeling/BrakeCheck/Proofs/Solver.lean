import BrakeCheck.Proofs.Encoding
import BrakeCheck.Proofs.Reach
import BrakeCheck.Proofs.Search
import BrakeCheck.Verdict

/-!
# Assertions and checks

In every run of a solver its root stands for the conjunction of the formulas asserted so far, and
its atoms are about their symbolic constants.  This is all that a check needs for its answer to
be right, however many checks there have been before it.

## Main definitions

* `Solver.Sound` — the invariant of a solver.
* `Solver.Answered` — what the answer of a check says about the formulas asserted.
* `Solver.Run` — the solvers that assertions and checks in any order lead to.
* `Solver.Means` — what a verdict says about the formulas it is on.

## Main statements

* `Solver.add_spec`, `Solver.check_spec` — the contracts of assertions and checks.
* `Solver.check_yields`, `Solver.check_searched` — a check is a search of the root, and the rest of it
  changes nothing in the store.
* `Solver.Run.sound` — the invariant in every run.
* `means_of_verify` — a verdict means what it says.
-/

namespace BrakeCheck

namespace Model

/-! ### Completed models -/

theorem get?_complete (m : Model) (names : NameSet) (x : String) :
    (m.complete names).get? x = if x ∈ names.names then some (m.value x) else m.get? x := by
  unfold complete
  induction names.names generalizing m with
  | nil => rfl
  | cons y ys ih =>
    rw [List.foldl_cons, ih]
    by_cases hxy : x = y
    · subst hxy
      -- a value that is there already is not replaced
      have hget : (m.insertNew x 0).get? x = some (m.value x) := by
        rw [OrderedMap.get?_insertNew, if_pos rfl]
        rfl
      have hvalue : value (m.insertNew x 0) x = m.value x := by
        rw [value, OrderedMap.getD, hget, Option.getD_some]
      rw [hvalue, hget, if_pos List.mem_cons_self, ite_self]
    · have hget : (m.insertNew y 0).get? x = m.get? x := by
        rw [OrderedMap.get?_insertNew, if_neg hxy]
      have hvalue : value (m.insertNew y 0) x = m.value x := by
        rw [value, OrderedMap.getD, hget]
        rfl
      have hmem : x ∈ y :: ys ↔ x ∈ ys := by simp [hxy]
      simp only [hvalue, hget, hmem]

/-- A name that gets a value at completion had the same value, zero, before. -/
theorem value_complete (m : Model) (names : NameSet) : (m.complete names).value = m.value := by
  funext x
  show ((m.complete names).get? x).getD 0 = (m.get? x).getD 0
  rw [get?_complete]
  split
  · rfl
  · rfl

theorem mem_names_complete {m : Model} {names : NameSet} {x : String} :
    x ∈ (m.complete names).names ↔ x ∈ names.names ∨ (m.get? x).isSome := by
  rw [OrderedMap.mem_names_iff, get?_complete]
  split
  · next h => simp [h]
  · next h => simp [h]

end Model

@[simp] theorem Verdict.answer_ofCheck (given : Satisfiability) (s : Solver) :
    (ofCheck given s).answer = given := by
  cases given <;> rfl

namespace Solver

/-! ### Growth -/

instance : Growing Solver where
  Extends t s := t.skeleton.Extends s.skeleton
  refl s := Skeleton.Extends.refl s.skeleton
  trans := Skeleton.Extends.trans
  Addressable s := s.skeleton.manager.Addressable
  addressable_of_extends h := Manager.Addressable.of_extends h.manager

variable {α : Type}

theorem onSkeleton_grows {step : Step Skeleton α} (h : Step.Grows step) :
    Step.Grows (onSkeleton step) :=
  fun s => h s.skeleton

theorem note_grows (level : Level) (origin : Origin) (text : Thunk String) :
    Step.Grows (note level origin text) :=
  onSkeleton_grows (Skeleton.onManager_grows (Manager.note_grows _ _ _))

theorem get_grows : Step.Grows (get : Step Solver Solver) := fun _ => Skeleton.Extends.refl _

theorem perform_onSkeleton (step : Step Skeleton α) (s : Solver) :
    (onSkeleton step).perform s =
      ((step.perform s.skeleton).1, { s with skeleton := (step.perform s.skeleton).2 }) := rfl

/-- What an assertion does to the skeleton: the function of the formula is joined to the root. -/
def conjoin (root : Ref) (f : Formula) : Step Skeleton Ref := do
  Skeleton.onManager (Manager.note .debug .solver s!"add({f})")
  let r ← f.encode
  Skeleton.onManager (Manager.conj root r)

theorem conjoin_grows (root : Ref) (f : Formula) : Step.Grows (conjoin root f) :=
  (Skeleton.onManager_grows (Manager.note_grows _ _ _)).bind fun _ => f.encode_grows.bind fun _ =>
    Skeleton.onManager_grows (Manager.conj_grows _ _)

/-- Beside the skeleton an assertion changes what is noted of the formulas, and it keeps the new
root. -/
theorem perform_add (f : Formula) (s : Solver) :
    (add f).perform s =
      match (conjoin s.root f).perform s.skeleton with
      | (.ok root, skeleton) =>
        (.ok (), { s with
          skeleton, root
          names := s.names.addAll f.names
          assertions := s.assertions.push f })
      | (.error e, skeleton) => (.error e, { s with skeleton, names := s.names.addAll f.names }) := by
  unfold add conjoin note
  simp only [Step.perform_bind, perform_onSkeleton, Step.perform_modify, Step.perform_get]
  rcases hnote : (Skeleton.onManager (Manager.note .debug .solver s!"add({f})")).perform s.skeleton
    with ⟨_ | _, k⟩
  · cases hnote
  · dsimp only
    rcases f.encode.perform k with ⟨_ | r, l⟩
    · rfl
    · dsimp only
      rcases (Skeleton.onManager (Manager.conj s.root r)).perform l with ⟨_ | root, l'⟩
      · rfl
      · rfl

theorem add_grows (f : Formula) : Step.Grows (add f) := by
  intro s
  have hgrows := conjoin_grows s.root f s.skeleton
  rw [perform_add]
  rcases hrun : (conjoin s.root f).perform s.skeleton with ⟨_ | root, skeleton⟩
  · rw [hrun] at hgrows
    exact hgrows
  · rw [hrun] at hgrows
    exact hgrows

theorem addAll_grows (fs : List Formula) : Step.Grows (addAll fs) := by
  induction fs with
  | nil => exact Step.Grows.pure _
  | cons f fs ih => exact (add_grows f).bind fun _ => ih

/-- The solver when a search has ended with a result. -/
def concluded (s : Solver) (result : SearchResult) (skeleton : Skeleton) : Solver :=
  { s with
    skeleton
    model := result.values.map fun values => Model.complete values s.names
    theoryChecks := result.theoryChecks }

/-- The report of a check, and its answer. -/
def report (result : SearchResult) : Step Solver Satisfiability := do
  let stats ← Step.query stats
  note .info .solver (renderCheck result.answer stats)
  return result.answer

theorem report_grows (result : SearchResult) : Step.Grows (report result) :=
  (Step.Grows.query _).bind fun _ => (note_grows _ _ _).bind fun _ => Step.Grows.pure _

/-- A check is a search of the root and a report on its result. -/
theorem perform_check (s : Solver) :
    check.perform s =
      match (Skeleton.search s.root 0 s.config.maxTheoryChecks).perform s.skeleton with
      | (.ok result, skeleton) => (report result).perform (s.concluded result skeleton)
      | (.error e, skeleton) => (.error e, { s with skeleton, model := none, theoryChecks := 0 }) := by
  unfold check report
  simp only [Step.perform_bind, Step.perform_modify, Step.perform_query, perform_onSkeleton]
  rcases (Skeleton.search s.root 0 s.config.maxTheoryChecks).perform s.skeleton with ⟨_ | result, k⟩
  · rfl
  · rfl

/-- The report needs the extent of the root alone, and leaves an entry in the journal. -/
theorem perform_report {result : SearchResult} {s : Solver} {size : Nat}
    (h : s.skeleton.manager.extent s.root = .ok size) :
    ∃ journal, (report result).perform s = (.ok result.answer, { s with
      skeleton := ⟨{ s.skeleton.manager with journal }, s.skeleton.atoms⟩ }) := by
  have hstats : ∃ stats, s.stats = .ok stats := by
    unfold stats
    exact ⟨_, by rw [h]; rfl⟩
  obtain ⟨stats, hstats⟩ := hstats
  unfold report
  rw [Step.perform_bind, Step.perform_query, hstats]
  exact ⟨_, rfl⟩

theorem check_grows : Step.Grows check := by
  intro s
  have hsearch := Skeleton.search_grows s.config.maxTheoryChecks s.root 0 s.skeleton
  rw [perform_check]
  rcases hrun : (Skeleton.search s.root 0 s.config.maxTheoryChecks).perform s.skeleton with
    ⟨_ | result, k⟩
  · rw [hrun] at hsearch
    exact hsearch
  · rw [hrun] at hsearch
    exact Growing.trans (report_grows result (s.concluded result k)) hsearch

/-! ### Assertions -/

/-- The symbolic constants of formulas. -/
def Mentions (fs : List Formula) (x : String) : Prop := ∃ f ∈ fs, x ∈ f.names

/-- The invariant of a solver after the assertion of formulas: its root stands for their
conjunction, and its names are their symbolic constants. -/
structure Sound (fs : List Formula) (s : Solver) : Prop where
  wf : s.skeleton.WellFormed (· ∈ s.names.names)
  root : s.skeleton.Denotes s.root fun v => fs.all (Formula.eval v)
  names : ∀ x, x ∈ s.names.names ↔ Mentions fs x

variable {fs : List Formula} {s : Solver}

theorem sound_of_create {config : SolverConfig} {journal : Journal}
    (h : create config journal = .ok s) : s.Sound [] := by
  unfold create at h
  cases hskeleton : Skeleton.create config.bucketBits journal with
  | error f => simp [hskeleton, bind, Except.bind] at h
  | ok skeleton =>
    rw [hskeleton] at h
    cases h
    have wf : skeleton.WellFormed (· ∈ (∅ : NameSet).names) :=
      Skeleton.wellFormed_of_create hskeleton
    exact {
      wf := wf
      root := wf.denotes_one
      names := fun x => ⟨fun hx => absurd hx List.not_mem_nil, fun ⟨f, hf, _⟩ => by cases hf⟩ }

/-- What joining a formula to the root promises is promised of an assertion. -/
theorem add_yields {f : Formula} {P : Ref → Skeleton → Prop}
    (h : Step.Yields (conjoin s.root f) s.skeleton P) :
    Step.Yields (add f) s fun _ t => P t.root t.skeleton ∧
      t = { s with
        skeleton := t.skeleton
        root := t.root
        names := s.names.addAll f.names
        assertions := s.assertions.push f } := by
  intro hfit
  have hfit' : ((conjoin s.root f).perform s.skeleton).2.manager.Addressable := by
    rw [perform_add] at hfit
    rcases hrun : (conjoin s.root f).perform s.skeleton with ⟨_ | root, skeleton⟩
    · rw [hrun] at hfit
      exact hfit
    · rw [hrun] at hfit
      exact hfit
  obtain ⟨root, skeleton, hrun, hext, hP⟩ := h hfit'
  rw [perform_add, hrun]
  exact ⟨(), _, rfl, hext, hP, rfl⟩

/-- The contract of joining a formula to the root. -/
theorem conjoin_spec {N : String → Prop} {k : Skeleton} (wf : k.WellFormed N) {root : Ref}
    {g : (String → Rat) → Bool} (hroot : k.Denotes root g) {f : Formula}
    (hN : ∀ x ∈ f.names, N x) :
    Step.Yields (conjoin root f) k fun r t => t.WellFormed N ∧
      t.Denotes r fun v => g v && f.eval v := by
  refine (Skeleton.note_spec wf _ _ _).bind (fun _ => f.encode_grows.bind fun _ =>
    Skeleton.onManager_grows (Manager.conj_grows _ _)) fun _ t ht hnoted => ?_
  have wft : t.WellFormed N := hnoted.1
  refine (f.encode_spec wft hN).bind (fun _ => Skeleton.onManager_grows (Manager.conj_grows _ _))
    fun r u hu hencoded => ?_
  have hroot' : u.Denotes root g := (hroot.mono wf ht).mono wft hu
  exact Skeleton.conj_spec hencoded.1 hroot' hencoded.2

/-- The contract of an assertion: one more formula is in the conjunction. -/
theorem add_spec (h : s.Sound fs) (f : Formula) :
    Step.Yields (add f) s fun _ t => t.Sound (fs ++ [f]) := by
  -- the names of the formula are there before its atoms are made
  have wf : s.skeleton.WellFormed (· ∈ (s.names.addAll f.names).names) :=
    h.wf.mono fun x hx => NameSet.mem_names_addAll.2 (Or.inl hx)
  refine (add_yields (conjoin_spec wf h.root fun x hx =>
    NameSet.mem_names_addAll.2 (Or.inr hx))).imp fun _ t _ ⟨⟨wft, hroot⟩, heq⟩ => ?_
  have hnames : t.names = s.names.addAll f.names := by rw [heq]
  exact {
    wf := by
      rw [hnames]
      exact wft
    root := hroot.congr fun v => by simp
    names := by
      intro x
      rw [hnames, NameSet.mem_names_addAll, h.names]
      simp [Mentions, or_and_right, exists_or] }

theorem addAll_spec (fs : List Formula) {gs : List Formula} {s : Solver} (h : s.Sound gs) :
    Step.Yields (addAll fs) s fun _ t => t.Sound (gs ++ fs) := by
  induction fs generalizing gs s with
  | nil => exact Step.Yields.pure (by rw [List.append_nil]; exact h)
  | cons f fs ih =>
    refine (add_spec h f).bind (fun _ => addAll_grows fs) fun _ t _ ht => ?_
    refine (ih ht).imp fun _ u _ hu => ?_
    rwa [List.append_assoc] at hu

/-! ### Checks -/

/-- What the answer of a check says about the formulas asserted: they have no common model, or the
model kept is one, with values for their symbolic constants and for no others. -/
structure Answered (fs : List Formula) (answer : Satisfiability) (s : Solver) : Prop where
  unsat : answer = .unsat → ∀ v, ¬ ∀ f ∈ fs, f.eval v = true
  sat : answer = .sat → ∃ m, s.model = some m ∧ (∀ x, x ∈ m.names ↔ Mentions fs x) ∧
    ∀ f ∈ fs, m.eval f = true
  none : answer ≠ .sat → s.model = none

/-- What a search says of the conjunction is what the check says of the formulas: the solution of
a path is completed with zeros, which it has been read with anyway. -/
theorem answered_of_justified (h : s.Sound fs) {result : SearchResult}
    (hresult : result.Justified (· ∈ s.names.names) fun v => fs.all (Formula.eval v))
    {t : Solver} (ht : t.model = result.values.map fun values => Model.complete values s.names) :
    t.Answered fs result.answer where
  unsat hunsat v hall := by
    have hfalse := hresult.unsat hunsat v
    rw [List.all_eq_true.2 hall] at hfalse
    cases hfalse
  sat hsat := by
    obtain ⟨values, hvalues, htrue, hnames⟩ := hresult.sat hsat
    refine ⟨Model.complete values s.names, by rw [ht, hvalues]; rfl, fun x => ?_, fun f hf => ?_⟩
    · rw [Model.mem_names_complete, ← h.names]
      exact or_iff_left_of_imp (hnames x)
    · rw [Model.eval, Model.value_complete]
      exact List.all_eq_true.1 htrue f hf
  none hne := by rw [ht, hresult.none hne]; rfl

/-- A check that finds a root in the store ends as its search does, but for an entry in the
journal. -/
theorem check_of_search {result : SearchResult} {k : Skeleton}
    (hrun : (Skeleton.search s.root 0 s.config.maxTheoryChecks).perform s.skeleton =
      (.ok result, k)) (wfk : k.manager.WellFormed) (hroot : k.manager.Has s.root) :
    ∃ journal, check.perform s = (.ok result.answer,
      s.concluded result ⟨{ k.manager with journal }, k.atoms⟩) := by
  obtain ⟨size, hsize⟩ := Manager.extent_eq_ok wfk hroot
  rw [perform_check, hrun]
  exact perform_report (s := s.concluded result k) hsize

/-- What the search of the root promises is promised of a check. -/
theorem check_yields {P : SearchResult → Skeleton → Prop}
    (h : Step.Yields (Skeleton.search s.root 0 s.config.maxTheoryChecks) s.skeleton P)
    (wf : ∀ result k, P result k → k.manager.WellFormed) (hroot : s.skeleton.manager.Has s.root) :
    Step.Yields check s fun answer t => ∃ result k journal, P result k ∧ k.Extends s.skeleton ∧
      answer = result.answer ∧ t = s.concluded result ⟨{ k.manager with journal }, k.atoms⟩ := by
  intro hfit
  have hfit' : ((Skeleton.search s.root 0 s.config.maxTheoryChecks).perform
      s.skeleton).2.manager.Addressable := by
    rw [perform_check] at hfit
    rcases hrun : (Skeleton.search s.root 0 s.config.maxTheoryChecks).perform s.skeleton with
      ⟨_ | result, k⟩
    · rw [hrun] at hfit
      exact hfit
    · rw [hrun] at hfit
      exact (report_grows result).addressable hfit
  obtain ⟨result, k, hrun, hext, hP⟩ := h hfit'
  obtain ⟨journal, hcheck⟩ := check_of_search hrun (wf _ _ hP) (hroot.mono hext.manager)
  exact ⟨_, _, hcheck, ⟨hext.manager, hext.atoms⟩, result, k, journal, hP, hext, rfl, rfl⟩

/-- What a check does: it searches the root within the budget and keeps the result of the search;
the atoms stay as they are, and the solver is as sound as before. -/
theorem check_searched (h : s.Sound fs) :
    Step.Yields check s fun answer t => t.Sound fs ∧ ∃ result : SearchResult,
      Skeleton.Searched (· ∈ s.names.names) s.skeleton s.root 0 s.config.maxTheoryChecks result ∧
      answer = result.answer ∧ t.skeleton.atoms = s.skeleton.atoms ∧
      t = { s with
        skeleton := t.skeleton
        model := result.values.map fun values => Model.complete values s.names
        theoryChecks := result.theoryChecks } := by
  refine (check_yields (Skeleton.search_spec s.config.maxTheoryChecks h.wf 0 h.root.has)
    (fun _ _ hP => hP.1.manager) h.root.has).imp
    fun answer t ht ⟨result, k, journal, ⟨wfk, hatoms, hsearched⟩, hext, hanswer, heq⟩ => ?_
  subst heq
  exact ⟨⟨wfk.withJournal journal, h.root.mono h.wf ht, h.names⟩, result, hsearched, hanswer, hatoms,
    rfl⟩

/-- The contract of a check: it always has an answer, the answer is right for the formulas
asserted so far, and the solver is as sound as before. -/
theorem check_spec (h : s.Sound fs) :
    Step.Yields check s fun answer t => t.Sound fs ∧ t.Answered fs answer := by
  refine (check_searched h).imp fun answer t _ ⟨ht, result, hsearched, hanswer, _, heq⟩ =>
    ⟨ht, ?_⟩
  rw [hanswer]
  exact answered_of_justified h (hsearched.justified h.root) (by rw [heq])

/-! ### Runs -/

/-- The solvers that assertions and checks lead to, in whatever order they come, with the formulas
asserted so far. -/
inductive Run (config : SolverConfig) : List Formula → Solver → Prop where
  | create {journal : Journal} {s : Solver} (h : create config journal = .ok s) : Run config [] s
  | add {fs : List Formula} {s : Solver} (h : Run config fs s) (f : Formula) :
    Run config (fs ++ [f]) ((add f).perform s).2
  | check {fs : List Formula} {s : Solver} (h : Run config fs s) :
    Run config fs (check.perform s).2

/-- Every solver of a run is sound, as long as it can be addressed. -/
theorem Run.sound {config : SolverConfig} (h : Run config fs s)
    (hfit : s.skeleton.manager.Addressable) : s.Sound fs := by
  induction h with
  | create h => exact sound_of_create h
  | add h f ih =>
    have hs := ih ((add_grows f).addressable hfit)
    obtain ⟨_, t, hrun, -, ht⟩ := add_spec hs f hfit
    rw [hrun]
    exact ht
  | check h ih =>
    have hs := ih (check_grows.addressable hfit)
    obtain ⟨_, t, hrun, -, ht, -⟩ := check_spec hs hfit
    rw [hrun]
    exact ht

/-! ### Verdicts -/

/-- What a verdict says about formulas. -/
def Means (fs : List Formula) : Verdict → Prop
  | .violated m => (∀ x, x ∈ m.names ↔ Mentions fs x) ∧ ∀ f ∈ fs, m.eval f = true
  | .proved => ∀ v, ¬ ∀ f ∈ fs, f.eval v = true
  | .inconclusive _ => True

/-- A verdict is the answer of a check after all assertions. -/
theorem perform_judge (fs : List Formula) (s : Solver) :
    (judge fs).perform s =
      match (addAll fs >>= fun _ => check).perform s with
      | (.ok answer, t) => (.ok (Verdict.ofCheck answer t), t)
      | (.error f, t) => (.error f, t) := by
  unfold judge
  rw [Step.perform_bind, Step.perform_bind]
  rcases (addAll fs).perform s with ⟨answer | _, t⟩
  · rfl
  · dsimp only
    rw [Step.perform_bind]
    rcases check.perform t with ⟨answer | _, u⟩
    · rfl
    · rfl

/-- The contract of a verdict. -/
theorem judge_spec (h : s.Sound []) (fs : List Formula) :
    Step.Yields (judge fs) s fun verdict _ => Means fs verdict := by
  refine (addAll_spec fs h).bind (fun _ => check_grows.bind fun _ => get_grows.bind fun _ =>
    Step.Grows.pure _) fun _ t _ ht => ?_
  rw [List.nil_append] at ht
  refine (check_spec ht).bind (fun _ => get_grows.bind fun _ => Step.Grows.pure _)
    fun answer u _ ⟨_, hu⟩ => ?_
  refine Step.Yields.after (Step.perform_get u) (Growing.refl u) (Step.Yields.pure ?_)
  cases answer with
  | sat =>
    obtain ⟨m, hm, hmodel⟩ := hu.sat rfl
    rw [Verdict.ofCheck, hm]
    exact hmodel
  | unsat => exact hu.unsat rfl
  | unknown => trivial

/-- All nodes that a verdict on formulas makes can be referred to. -/
def Room (fs : List Formula) (config : SolverConfig) (journal : Journal) : Prop :=
  ∀ s, create config journal = .ok s → ((judge fs).perform s).2.skeleton.manager.Addressable

instance (fs : List Formula) (config : SolverConfig) (journal : Journal) :
    Decidable (Room fs config journal) :=
  match h : create config journal with
  | .ok s =>
    decidable_of_iff ((judge fs).perform s).2.skeleton.manager.Addressable
      ⟨fun hfit t ht => by rw [h] at ht; cases ht; exact hfit, fun hroom => hroom s h⟩
  | .error _ => .isTrue fun t ht => by rw [h] at ht; cases ht

end Solver

/-- A verdict is reached by a new solver, and reported. -/
theorem perform_verify (fs : List Formula) (config : SolverConfig) (journal : Journal) :
    (verify fs config).perform journal =
      match Solver.create config journal with
      | .error f => (.error f, journal)
      | .ok s =>
        match (Solver.judge fs).perform s with
        | (.error f, t) => (.error f, t.journal)
        | (.ok verdict, t) =>
          (.ok verdict, t.journal.note .info .verification
            s!"verify: {fs.length} formulas, verdict {verdict.answer}") := by
  unfold verify
  rw [Step.perform_bind, Step.perform_query]
  cases Solver.create config journal with
  | error f => rfl
  | ok s =>
    dsimp only
    rcases (Solver.judge fs).perform s with ⟨outcome | verdict, t⟩
    · rfl
    · rfl

theorem verify_eq_ok_iff {fs : List Formula} {config : SolverConfig} {journal : Journal}
    {verdict : Verdict} :
    (∃ j, (verify fs config).perform journal = (.ok verdict, j)) ↔
      ∃ s t, Solver.create config journal = .ok s ∧
        (Solver.judge fs).perform s = (.ok verdict, t) := by
  rw [perform_verify]
  cases Solver.create config journal with
  | error f => simp
  | ok s =>
    dsimp only
    constructor
    · rintro ⟨j, hj⟩
      rcases hrun : (Solver.judge fs).perform s with ⟨outcome | found, t⟩
      · rw [hrun] at hj
        cases hj
      · rw [hrun] at hj
        cases hj
        exact ⟨s, t, rfl, hrun⟩
    · rintro ⟨s', t, hs, hrun⟩
      cases hs
      rw [hrun]
      exact ⟨_, rfl⟩

/-- A verdict on formulas means what it says, as long as all nodes can be referred to. -/
theorem means_of_verify {fs : List Formula} {config : SolverConfig} {journal : Journal}
    (hroom : Solver.Room fs config journal) {verdict : Verdict}
    (h : ∃ j, (verify fs config).perform journal = (.ok verdict, j)) :
    Solver.Means fs verdict := by
  obtain ⟨s, t, hcreate, hrun⟩ := verify_eq_ok_iff.1 h
  obtain ⟨found, u, hfound, -, hmeans⟩ :=
    Solver.judge_spec (Solver.sound_of_create hcreate) fs (hroom s hcreate)
  rw [hrun] at hfound
  cases hfound
  exact hmeans

end BrakeCheck
