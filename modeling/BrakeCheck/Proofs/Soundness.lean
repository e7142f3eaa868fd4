import BrakeCheck.Proofs.Solver
import Mathlib

/-!
# Proofs and counterexamples

Formulas that are proved to be impossible are so under all values of the symbolic constants, and
a model that a check leaves is complete and makes all formulas true.

## Main statements

* `no_model_of_proved` — a proof is a proof.
* `model_of_check` — a counterexample is a counterexample.
-/

namespace BrakeCheck

/-- A new solver with the smallest tables and without a journal. -/
theorem Solver.create_smallest :
    Solver.create { bucketBits := 0 } .closed = .ok
      ⟨{ bucketBits := 0 }, ⟨⟨((HashCons.empty 0).add Node.terminal).2, ComputedTable.empty 0,
        .closed⟩, .empty⟩, #[], .one, ∅, none, 0⟩ := rfl

/-- A proof is a proof, as long as all nodes can be referred to: if formulas are proved to be
impossible, which is so exactly if a new solver answers that they are unsatisfiable, then no values
of the symbolic constants make all of them true. -/
theorem no_model_of_proved (fs : List Formula) (config : SolverConfig) (journal : Journal)
    (hroom : Solver.Room fs config journal) :
    ((∃ j, (verify fs config).perform journal = (.ok .proved, j)) ↔
      ∃ s t, Solver.create config journal = .ok s ∧
        (Solver.addAll fs >>= fun _ => Solver.check).perform s = (.ok .unsat, t)) ∧
    ((∃ j, (verify fs config).perform journal = (.ok .proved, j)) →
      ∀ v : String → Rat, ¬ ∀ f ∈ fs, f.eval v = true) := by
  refine ⟨?_, fun h => means_of_verify hroom h⟩
  rw [verify_eq_ok_iff]
  refine exists_congr fun s => ⟨fun ⟨t, hcreate, hrun⟩ => ?_, fun ⟨t, hcreate, hrun⟩ => ?_⟩
  · rw [Solver.perform_judge] at hrun
    rcases hask : (Solver.addAll fs >>= fun _ => Solver.check).perform s with ⟨f | answer, u⟩
    · rw [hask] at hrun
      cases hrun
    · rw [hask] at hrun
      refine ⟨u, hcreate, ?_⟩
      cases answer with
      | unsat => rfl
      | sat => cases hrun
      | unknown => cases hrun
  · refine ⟨t, hcreate, ?_⟩
    rw [Solver.perform_judge, hrun]
    rfl

/-- No number has an absolute value below itself, which is proved. -/
theorem no_model_of_abs_lt_self :
    (∃ j, (verify [(Term.abs (.var "x")).lt (.var "x")] { bucketBits := 0 }).perform .closed =
      (.ok .proved, j)) ∧
    ∀ v : String → Rat, ¬ ∀ f ∈ [(Term.abs (.var "x")).lt (.var "x")], f.eval v = true := by
  have hroom : Solver.Room [(Term.abs (.var "x")).lt (.var "x")] { bucketBits := 0 } .closed :=
    of_decide_eq_true (by cbv)
  have hproved : (verify [(Term.abs (.var "x")).lt (.var "x")] { bucketBits := 0 }).perform
      .closed = (.ok .proved, .closed) := by cbv
  exact ⟨⟨_, hproved⟩, (no_model_of_proved _ _ .closed hroom).2 ⟨_, hproved⟩⟩

/-- A counterexample is a counterexample: in every run, the model of a check that is satisfied has
values for exactly the symbolic constants of the formulas asserted so far and makes all of them
true, and after any other check there is no model; a violation that is found is such a model. -/
theorem model_of_check :
    (∀ {config : SolverConfig} {fs : List Formula} {s : Solver}, Solver.Run config fs s →
      (Solver.check.perform s).2.skeleton.manager.Addressable →
      ∃ answer t, Solver.check.perform s = (.ok answer, t) ∧
        (answer = .sat → ∃ m, t.model = some m ∧
          (∀ x, x ∈ m.names ↔ ∃ f ∈ fs, x ∈ f.nameSet.names) ∧ ∀ f ∈ fs, m.eval f = true) ∧
        (answer ≠ .sat → t.model = none)) ∧
    (∀ {config : SolverConfig} {fs : List Formula} {journal j : Journal} {m : Model},
      Solver.Room fs config journal →
      (verify fs config).perform journal = (.ok (.violated m), j) →
      (∀ x, x ∈ m.names ↔ ∃ f ∈ fs, x ∈ f.nameSet.names) ∧ ∀ f ∈ fs, m.eval f = true) := by
  have nameSet_iff : ∀ (fs : List Formula) x,
      Solver.Mentions fs x ↔ ∃ f ∈ fs, x ∈ f.nameSet.names := by
    intro fs x
    simp only [Solver.Mentions, Formula.nameSet, NameSet.mem_names_ofList]
  constructor
  · intro config fs s hrun hfit
    have hs := hrun.sound (Solver.check_grows.addressable hfit)
    obtain ⟨answer, t, hperform, -, -, hanswered⟩ := Solver.check_spec hs hfit
    refine ⟨answer, t, hperform, fun hsat => ?_, hanswered.none⟩
    obtain ⟨m, hm, hnames, heval⟩ := hanswered.sat hsat
    exact ⟨m, hm, fun x => (hnames x).trans (nameSet_iff fs x), heval⟩
  · intro config fs journal j m hroom hperform
    obtain ⟨hnames, heval⟩ := means_of_verify hroom ⟨j, hperform⟩
    exact ⟨fun x => (hnames x).trans (nameSet_iff fs x), heval⟩

/-- A number whose absolute value is above one, found by a check after a check without assertions,
and found as a violation. -/
theorem model_of_check_one_lt_abs :
    (∃ s t m, Solver.Run { bucketBits := 0 } [(Term.const 1).lt (Term.abs (.var "x"))] s ∧
      Solver.check.perform s = (.ok .sat, t) ∧ t.model = some m ∧
      m.eval ((Term.const 1).lt (Term.abs (.var "x"))) = true) ∧
    ∃ m j, (verify [(Term.const 1).lt (Term.abs (.var "x"))] { bucketBits := 0 }).perform .closed =
        (.ok (.violated m), j) ∧
      m.eval ((Term.const 1).lt (Term.abs (.var "x"))) = true := by
  constructor
  · have hrun := ((Solver.Run.create Solver.create_smallest).check).add
      ((Term.const 1).lt (Term.abs (.var "x")))
    obtain ⟨answer, t, hperform, hsat, -⟩ :=
      model_of_check.1 hrun (of_decide_eq_true (by cbv))
    have hanswer : Except.ok answer = (.ok .sat : Except Fault Satisfiability) := by
      refine (congrArg Prod.fst hperform).symm.trans ?_
      cbv
    cases hanswer
    obtain ⟨m, hm, -, hmodel⟩ := hsat rfl
    exact ⟨_, t, m, hrun, hperform, hm, hmodel _ List.mem_cons_self⟩
  · have hroom : Solver.Room [(Term.const 1).lt (Term.abs (.var "x"))] { bucketBits := 0 }
        .closed := of_decide_eq_true (by cbv)
    have hanswer : ((verify [(Term.const 1).lt (Term.abs (.var "x"))]
        { bucketBits := 0 }).perform .closed).1.map Verdict.answer = .ok .sat := by cbv
    rcases hverify : (verify [(Term.const 1).lt (Term.abs (.var "x"))]
      { bucketBits := 0 }).perform .closed with ⟨outcome, j⟩
    rw [hverify] at hanswer
    rcases outcome with f | (m | _ | _)
    · cases hanswer
    · exact ⟨m, j, rfl, (model_of_check.2 hroom hverify).2 _ List.mem_cons_self⟩
    · cases hanswer
    · cases hanswer

end BrakeCheck
