import BrakeCheck.Proofs.Incremental
import BrakeCheck.Proofs.PathCount

/-!
# The threshold of a budget

A check may examine only so many paths.  For the formulas asserted there is a number of paths from
which on the budget has no influence any more, and below which every check spends its budget and
gives up.  A greater budget can turn this into an answer, but no answer into another one.

The rounds of a search do not look at the budget but to see whether any of it is left, and they do
so only when a path has been found.  So searches with different budgets go through the same rounds
as long as both go on; this is proved of searches without a store, where the rounds are the same in
every run.

## Main definitions

* `Plan.Threshold` — how the searches of a function within all budgets end.
* `Solver.EndsWithin` — the end of a check within a budget, when it is known how a check ends that
  does not give up.

## Main statements

* `Plan.threshold_of_search` — what a search within one budget says of the searches within all
  others.
* `Solver.exists_check_endsWithin` — how the checks of solvers with one digest end.
* `Solver.exists_threshold` — how the checks and verdicts on given formulas end.
-/

namespace BrakeCheck

/-! ### Searches within different budgets -/

namespace Plan

variable {f : Condition} {t : AtomTable} {spent : Nat} {result : SearchResult}

/-- The constant false is refuted within every budget. -/
theorem search_of_never (h : ∀ a, f a = false) (spent budget : Nat) :
    (search f spent budget t).value = ⟨.unsat, none, spent⟩ := by
  cases budget with
  | zero => rw [search, if_pos h]; rfl
  | succ budget => rw [search, if_pos h]; rfl

/-- A search without a budget gives up where there is a path. -/
theorem search_zero (h : ¬ ∀ a, f a = false) (spent : Nat) :
    (search f spent 0 t).value = ⟨.unknown, none, spent⟩ := by
  rw [search, if_neg h]
  rfl

/-- What comes of a round depends on the path alone, and on the rounds after it. -/
theorem search_succ (h : ¬ ∀ a, f a = false) (spent budget : Nat) :
    (search f spent (budget + 1) t).value =
      match t.examined (pathOf f) with
      | .ok (.feasible values) => ⟨.sat, some values, spent + 1⟩
      | .ok .infeasible =>
        (search (fun a => f a && !Literal.allHold (pathOf f) a) (spent + 1) budget t).value
      | .error _ => ⟨.unknown, none, spent⟩ := by
  rw [search, if_neg h, bind_value]
  have hvalue : (examine (pathOf f) t).value = t.examined (pathOf f) := rfl
  rw [hvalue]
  rcases t.examined (pathOf f) with e | values | _
  · rfl
  · rfl
  · rfl

/-- The searches of a function end with a result, if the budget allows the paths that it takes, and
spend the budget and give up otherwise. -/
structure Threshold (f : Condition) (t : AtomTable) (spent : Nat) (result : SearchResult) :
    Prop where
  spent_le : spent ≤ result.theoryChecks
  enough : ∀ n, result.theoryChecks ≤ spent + n → (search f spent n t).value = result
  short : ∀ n, spent + n < result.theoryChecks →
    (search f spent n t).value = ⟨.unknown, none, spent + n⟩

theorem threshold_of_never (h : ∀ a, f a = false) : Threshold f t spent ⟨.unsat, none, spent⟩ where
  spent_le := Nat.le_refl _
  enough n _ := search_of_never h spent n
  short _ hlt := absurd hlt (Nat.not_lt.2 (Nat.le_add_right _ _))

/-- A path with a solution takes one more round. -/
theorem threshold_of_feasible (h : ¬ ∀ a, f a = false) {values : OrderedMap Rat}
    (hexamined : t.examined (pathOf f) = .ok (.feasible values)) :
    Threshold f t spent ⟨.sat, some values, spent + 1⟩ where
  spent_le := Nat.le_succ spent
  enough n hle := by
    dsimp only at hle
    obtain ⟨budget, rfl⟩ := Nat.exists_eq_add_one_of_ne_zero (show n ≠ 0 by omega)
    rw [search_succ h, hexamined]
  short n hlt := by
    dsimp only at hlt
    obtain rfl : n = 0 := by omega
    exact search_zero h spent

/-- A path without a solution takes one more round than the function without it. -/
theorem Threshold.of_rest (h : ¬ ∀ a, f a = false)
    (hexamined : t.examined (pathOf f) = .ok .infeasible)
    (hrest : Threshold (fun a => f a && !Literal.allHold (pathOf f) a) t (spent + 1) result) :
    Threshold f t spent result where
  spent_le := Nat.le_of_succ_le hrest.spent_le
  enough n hle := by
    have hspent := hrest.spent_le
    obtain ⟨budget, rfl⟩ := Nat.exists_eq_add_one_of_ne_zero (show n ≠ 0 by omega)
    rw [search_succ h, hexamined]
    exact hrest.enough budget (by omega)
  short n hlt := by
    cases n with
    | zero => exact search_zero h spent
    | succ budget =>
      rw [search_succ h, hexamined]
      have hshort := hrest.short budget (by omega)
      rwa [Nat.add_assoc, Nat.add_comm 1] at hshort

/-- A search that does not give up says how the searches within all budgets end.  By induction on
its budget. -/
theorem threshold_of_search {budget : Nat} (h : (search f spent budget t).value = result)
    (hdecided : result.answer ≠ .unknown) : Threshold f t spent result := by
  induction budget generalizing f spent with
  | zero =>
    by_cases hnever : ∀ a, f a = false
    · rw [← h, search_of_never hnever]
      exact threshold_of_never hnever
    · rw [← h, search_zero hnever] at hdecided
      exact absurd rfl hdecided
  | succ budget ih =>
    by_cases hnever : ∀ a, f a = false
    · rw [← h, search_of_never hnever]
      exact threshold_of_never hnever
    · rw [search_succ hnever] at h
      rcases hexamined : t.examined (pathOf f) with e | values | _
      · rw [hexamined] at h
        rw [← h] at hdecided
        exact absurd rfl hdecided
      · rw [hexamined] at h
        rw [← h]
        exact threshold_of_feasible hnever hexamined
      · rw [hexamined] at h
        exact .of_rest hnever hexamined (ih h)

end Plan

/-- A search that gives up has spent its budget, and has no solution. -/
theorem Skeleton.Searched.gives_up {N : String → Prop} {s : Skeleton} {r : Ref}
    {spent budget : Nat} {result : SearchResult} (h : Searched N s r spent budget result)
    (hunknown : result.answer = .unknown) : result = ⟨.unknown, none, spent + budget⟩ := by
  induction h with
  | exhausted => cases hunknown
  | stopped => rfl
  | found => cases hunknown
  | blocked _ _ _ _ _ _ _ _ ih => rw [ih hunknown, Nat.add_assoc, Nat.add_comm 1]

/-! ### Checks -/

/-- The digest of formulas asserted one after the other. -/
noncomputable def Digest.ofFormulas (fs : List Formula) : Digest := fs.foldl Digest.add .empty

namespace Solver

open Step

variable {config : SolverConfig} {d e : Digest} {s : Solver}

/-- The end of a check within a budget, when checks that do not give up examine `threshold` paths
and end with an answer and a model: if the budget allows so many paths the check is one of them, and
otherwise it spends the budget and gives up. -/
structure EndsWithin (threshold : Nat) (answer : Satisfiability) (model : Option Model)
    (budget : Nat) (given : Satisfiability) (s : Solver) : Prop where
  enough : threshold ≤ budget → given = answer ∧ s.model = model ∧ s.theoryChecks = threshold
  short : budget < threshold → given = .unknown ∧ s.model = none ∧ s.theoryChecks = budget

/-- A check ends as the searches of its digest do. -/
theorem Checked.endsWithin {given : Satisfiability} (h : s.Checked config e given)
    (hsame : e.Same d) {result : SearchResult}
    (hthreshold : Plan.Threshold d.root d.atoms 0 result) :
    s.EndsWithin result.theoryChecks result.answer
      (result.values.map fun values => Model.complete values d.names) config.maxTheoryChecks
      given := by
  have hsearch : (e.search config.maxTheoryChecks).value =
      (Plan.search d.root 0 config.maxTheoryChecks d.atoms).value := by
    rw [← hsame.search_eq]
    rfl
  obtain ⟨-, hgiven, hmodel, hchecks⟩ := h
  rw [hsearch] at hgiven hmodel hchecks
  constructor
  · intro hle
    rw [hthreshold.enough _ (by rwa [Nat.zero_add])] at hgiven hmodel hchecks
    rw [hsame.names]
    exact ⟨hgiven, hmodel, hchecks⟩
  · intro hlt
    rw [hthreshold.short _ (by rwa [Nat.zero_add]), Nat.zero_add] at hgiven hmodel hchecks
    exact ⟨hgiven, hmodel, hchecks⟩

/-- A check that gives up has spent its budget, which is below the number of paths of the root. -/
theorem check_gives_up (h : s.Summarized config d) {count : Nat}
    (hcount : ∀ m r, Manager.WellFormed m → m.Denotes r d.root → m.pathCount r = count) :
    Yields check s fun answer t => answer = .unknown → t.model = none ∧
      t.theoryChecks = config.maxTheoryChecks ∧ config.maxTheoryChecks < count := by
  obtain ⟨fs, hs⟩ := h.sound
  refine (check_searched hs).imp ?_
  rintro _ t - ⟨-, result, hsearched, rfl, -, heq⟩ hunknown
  have hlt := hsearched.theoryChecks_le.2 hunknown
  rw [hcount _ _ hs.wf.manager h.root, h.config] at hlt
  rw [heq, hsearched.gives_up hunknown, h.config, Nat.zero_add]
  exact ⟨rfl, rfl, hlt⟩

/-- For a digest there is a threshold for the checks of all solvers that have it.  If there is a
budget within which the search of the digest does not give up, it is found in its result.  If there
is none, the checks of all solvers give up, which they do only with a budget below the number of
paths of the root. -/
theorem exists_check_endsWithin (d : Digest) :
    ∃ (threshold : Nat) (answer : Satisfiability) (model : Option Model), answer ≠ .unknown ∧
      ∀ {config : SolverConfig} {e : Digest} {s : Solver}, s.Summarized config e → e.Same d →
        Yields check s fun given t =>
          t.EndsWithin threshold answer model config.maxTheoryChecks given := by
  by_cases hdecided : ∃ budget, (d.search budget).value.answer ≠ .unknown
  · obtain ⟨budget, hanswer⟩ := hdecided
    have hthreshold : Plan.Threshold d.root d.atoms 0 (d.search budget).value :=
      Plan.threshold_of_search rfl hanswer
    exact ⟨_, _, _, hanswer, fun h hsame =>
      (check_summarized h).imp fun _ _ _ ht => ht.endsWithin hsame hthreshold⟩
  · obtain ⟨count, hcount⟩ := Manager.exists_pathCount d.root
    refine ⟨count, .unsat, none, by decide, fun {config e s} h hsame => ?_⟩
    rw [hsame.root] at hcount
    refine ((check_summarized h).and (check_gives_up h hcount)).imp
      fun given t _ ⟨ht, hgives⟩ => ?_
    have hgiven : given = .unknown := by
      rw [ht.answer, ← hsame.search_eq]
      by_contra hanswer
      exact hdecided ⟨_, hanswer⟩
    obtain ⟨hmodel, hchecks, hlt⟩ := hgives hgiven
    exact ⟨fun hle => absurd hlt (Nat.not_lt.2 hle), fun _ => ⟨hgiven, hmodel, hchecks⟩⟩

/-! ### Runs -/

/-- The digest of assertions does not depend on a budget. -/
theorem foldl_serve_batch (budget : Nat) (calls : List Call) :
    (batch calls).foldl (Digest.serve budget) .empty = Digest.ofFormulas (asserted calls) := by
  rw [batch, List.foldl_map]
  rfl

theorem addAll_summarized (h : s.Summarized config d) (fs : List Formula) :
    Yields (addAll fs) s fun _ t => t.Summarized config (fs.foldl Digest.add d) := by
  induction fs generalizing s d with
  | nil => exact Yields.pure h
  | cons f fs ih =>
    exact (add_summarized h f).bind (fun _ => addAll_grows fs) fun _ t _ ht => ih ht

/-- What all checks of solvers with the digest of formulas promise is promised of the check behind a
verdict on the formulas. -/
theorem judge_yields (h : s.Summarized config d) (fs : List Formula)
    {P : Satisfiability → Solver → Prop}
    (hcheck : ∀ t : Solver, t.Summarized config (fs.foldl Digest.add d) → Yields check t P) :
    Yields (judge fs) s fun verdict _ => ∃ given t, P given t ∧
      verdict = Verdict.ofCheck given t := by
  refine (addAll_summarized h fs).bind (fun _ => check_grows.bind fun _ => get_grows.bind fun _ =>
    Grows.pure _) fun _ t _ ht => ?_
  refine (hcheck t ht).bind (fun _ => get_grows.bind fun _ => Grows.pure _) fun given u _ hu => ?_
  exact Yields.after (perform_get u) (Growing.refl u) (Yields.pure ⟨given, u, hu, rfl⟩)

end Solver

namespace Verdict

variable {given : Satisfiability} {fs : List Formula} {s : Solver}

/-- A verdict has the model that the check has left. -/
theorem counterexample?_ofCheck (h : s.Answered fs given) :
    (ofCheck given s).counterexample? = s.model := by
  cases given with
  | sat =>
    obtain ⟨m, hm, -⟩ := h.sat rfl
    rw [ofCheck, hm]
    rfl
  | unsat => exact (h.none (by decide)).symm
  | unknown => exact (h.none (by decide)).symm

end Verdict

namespace Solver

open Step

/-- What the end of a check within a budget is for the verdict. -/
theorem EndsWithin.verdict {threshold budget : Nat} {answer given : Satisfiability}
    {model : Option Model} {s : Solver} {fs : List Formula}
    (h : s.EndsWithin threshold answer model budget given) (hanswered : s.Answered fs given) :
    (threshold ≤ budget → (Verdict.ofCheck given s).answer = answer ∧
      (Verdict.ofCheck given s).counterexample? = model) ∧
    (budget < threshold → Verdict.ofCheck given s = .inconclusive budget) := by
  constructor
  · intro hle
    obtain ⟨rfl, hmodel, -⟩ := h.enough hle
    rw [Verdict.answer_ofCheck, Verdict.counterexample?_ofCheck hanswered]
    exact ⟨rfl, hmodel⟩
  · intro hlt
    obtain ⟨rfl, -, hchecks⟩ := h.short hlt
    rw [Verdict.ofCheck, hchecks]

/-- For every list of formulas there is a threshold, an answer that says something, and a model, so
that the following is true of all checks of these formulas, whatever the configuration, the journal
and the checks before are.  If the budget is not below the threshold, the check has this answer,
leaves this model and has examined as many paths as the threshold; if it is below, the check gives
up with all of the budget spent, and leaves no model.  Verdicts follow their checks.  So a greater
budget can turn no answer into another one, and a budget that is spent is never reported as a proof.
All nodes of the run must have indices that references can hold. -/
theorem exists_threshold (fs : List Formula) :
    ∃ threshold answer model, answer ≠ .unknown ∧
      ∀ config : SolverConfig, config.bucketBits ≤ 24 → ∀ journal, ∃ s,
        create config journal = .ok s ∧
        (∀ calls, asserted calls = fs →
          ((serveAll (calls ++ [Call.check])).perform s).2.skeleton.manager.Addressable →
          ∃ answers given t,
            (serveAll (calls ++ [Call.check])).perform s = (.ok (answers ++ [some given]), t) ∧
            t.EndsWithin threshold answer model config.maxTheoryChecks given) ∧
        (Room fs config journal →
          ∃ verdict j, (verify fs config).perform journal = (.ok verdict, j) ∧
            (threshold ≤ config.maxTheoryChecks →
              verdict.answer = answer ∧ verdict.counterexample? = model) ∧
            (config.maxTheoryChecks < threshold →
              verdict = .inconclusive config.maxTheoryChecks)) := by
  obtain ⟨threshold, answer, model, hanswer, hends⟩ :=
    exists_check_endsWithin (Digest.ofFormulas fs)
  refine ⟨threshold, answer, model, hanswer, fun config hbits journal => ?_⟩
  obtain ⟨m, hm⟩ := Manager.exists_create hbits journal
  have hcreate := create_of_manager config hm
  refine ⟨_, hcreate, ?_, fun hroom => ?_⟩
  · rintro calls rfl hfit
    have hsame := (covers_batch config.maxTheoryChecks calls (Digest.Covers.refl .empty)).toSame
    rw [foldl_serve_batch] at hsame
    obtain ⟨_, t, hrun, -, answers, given, rfl, ht⟩ :=
      serveAll_concat (summarized_of_create hcreate) calls (fun _ h => hends h hsame) hfit
    exact ⟨answers, given, t, hrun, ht⟩
  · have hcheck : ∀ t : Solver, t.Summarized config (Digest.ofFormulas fs) →
        Yields check t fun given u =>
          u.EndsWithin threshold answer model config.maxTheoryChecks given ∧
          ∃ gs, u.Answered gs given := fun t ht => by
      obtain ⟨gs, hsound⟩ := ht.sound
      exact ((hends ht ⟨rfl, rfl, rfl⟩).and (check_spec hsound)).imp
        fun _ _ _ ⟨hlaw, _, hanswered⟩ => ⟨hlaw, gs, hanswered⟩
    obtain ⟨_, _, hrun, -, given, t, ⟨hlaw, gs, hanswered⟩, rfl⟩ :=
      judge_yields (summarized_of_create hcreate) fs hcheck (hroom _ hcreate)
    obtain ⟨j, hverify⟩ := verify_eq_ok_iff.2 ⟨_, _, hcreate, hrun⟩
    exact ⟨_, j, hverify, hlaw.verdict hanswered⟩

/-- The threshold of `|x| < 1` and `x > 2` is two: a check that may examine only one path gives up,
also after a check in between; with two paths it is refuted that both hold, and so it is with as
many as there may be otherwise. -/
theorem exists_threshold_abs_lt_one :
    ∃ s answers t verdict j, create { maxTheoryChecks := 1, bucketBits := 0 } .closed = .ok s ∧
      (serveAll ([.add ((Term.abs (.var "x")).lt (.const 1)), Call.check,
        .add ((Term.const 2).lt (.var "x"))] ++ [Call.check])).perform s =
          (.ok (answers ++ [some .unknown]), t) ∧ t.model = none ∧ t.theoryChecks = 1 ∧
      (verify [(Term.abs (.var "x")).lt (.const 1), (Term.const 2).lt (.var "x")]
        { bucketBits := 0 }).perform .closed = (.ok verdict, j) ∧
      verdict.answer = .unsat ∧ verdict.counterexample? = none := by
  obtain ⟨threshold, answer, model, hanswer, hlaw⟩ :=
    exists_threshold [(Term.abs (.var "x")).lt (.const 1), (Term.const 2).lt (.var "x")]
  obtain ⟨s, hcreate, hchecks, -⟩ :=
    hlaw { maxTheoryChecks := 1, bucketBits := 0 } (Nat.zero_le 24) .closed
  obtain ⟨-, -, -, htwo⟩ := hlaw { maxTheoryChecks := 2, bucketBits := 0 } (Nat.zero_le 24) .closed
  obtain ⟨-, -, -, hmany⟩ := hlaw { bucketBits := 0 } (Nat.zero_le 24) .closed
  cases hcreate
  -- two paths are enough
  obtain ⟨found, _, hfound, henough, hshort⟩ := htwo (of_decide_eq_true (by cbv))
  have hproved : Except.ok found = (.ok .proved : Except Fault Verdict) := by
    refine (congrArg Prod.fst hfound).symm.trans ?_
    cbv
  cases hproved
  have hle : threshold ≤ 2 := by
    by_contra hlt
    cases hshort (Nat.not_le.1 hlt)
  obtain ⟨rfl, rfl⟩ := henough hle
  obtain ⟨verdict, j, hverify, hsame, -⟩ := hmany (of_decide_eq_true (by cbv))
  -- one path is not
  obtain ⟨answers, given, t, hrun, hends⟩ := hchecks
    [.add ((Term.abs (.var "x")).lt (.const 1)), Call.check, .add ((Term.const 2).lt (.var "x"))]
    rfl (of_decide_eq_true (by cbv))
  have hlt : 1 < threshold := by
    by_contra hle
    have hanswers : Except.ok (answers ++ [some given]) =
        (.ok ([none, some .sat, none] ++ [some .unknown]) : Except Fault _) := by
      refine (congrArg Prod.fst hrun).symm.trans ?_
      cbv
    obtain ⟨-, hgiven⟩ := List.append_inj' (Except.ok.inj hanswers) rfl
    cases hgiven
    exact hanswer (hends.enough (Nat.not_lt.1 hle)).1.symm
  obtain ⟨rfl, hmodel, htheory⟩ := hends.short hlt
  exact ⟨_, answers, t, verdict, j, rfl, hrun, hmodel, htheory, hverify,
    hsame (hle.trans (by decide))⟩

end Solver

end BrakeCheck
