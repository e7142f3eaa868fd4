import BrakeCheck.Proofs.Divisions
import BrakeCheck.Proofs.Soundness
import BrakeCheck.Proofs.TableSize

/-!
# Solvers never fault

Whatever formulas are asserted and whenever they are checked, no operation is ever called outside
its contract: every command is answered.  Faults are answers of the operations themselves, but two
things that could go wrong are not among them, since the operations on tables and numbers are total:
places outside a table, and divisions by zero.  So it is said on its own that the places looked at
are inside the tables, that no number is zero by which an elimination divides, and that it would find
the same whatever a division by zero came to.

## Main definitions

* `Solver.Command`, `Solver.runAll` — what a solver can be told, and the replies to a list of it.

## Main statements

* `Skeleton.lead?_ne_zero_of_belowZero` — an expression made an atom was not scaled by the
  reciprocal of zero.
* `Solver.faultless_of_bits` — all commands are answered.
-/

namespace BrakeCheck

/-! ### Atoms and their constraints -/

/-- The constraints that literals of atoms stand for are reduced, as the atoms are. -/
theorem AtomTable.allReduced_of_constraints {t : AtomTable}
    (hreduced : ∀ x e, t.atom x = .ok e → e.Reduced) {ls : List Literal} {cs : List Constraint}
    (h : t.constraints ls = .ok cs) : Constraint.AllReduced cs := by
  induction ls generalizing cs with
  | nil =>
    cases h
    exact fun c hc => by cases hc
  | cons l ls ih =>
    unfold constraints at h ih
    rw [List.mapM_cons] at h
    cases hatom : t.atom l.var with
    | error f => simp [constraint, hatom, bind, Except.bind] at h
    | ok e =>
      obtain ⟨c, hc, hcreduced, -⟩ := constraint_spec hatom (hreduced _ e hatom)
      rw [hc] at h
      cases hrest : ls.mapM t.constraint with
      | error f => simp [hrest, bind, Except.bind] at h
      | ok ds =>
        rw [hrest] at h
        cases h
        exact List.forall_mem_cons.2 ⟨hcreduced, ih hrest⟩

/-- The reciprocal of a first coefficient that is zero would have scaled the expression to a
constant, and a constant is not made an atom. -/
theorem Skeleton.lead?_ne_zero_of_belowZero {e : LinExpr} {r : Ref} {s t : Skeleton}
    (h : (belowZero e).perform s = (.ok r, t)) : e.lead? ≠ some 0 := by
  intro hlead
  have hconst : e.isConstant = false := by
    rw [LinExpr.isConstant, OrderedMap.isEmpty, List.isEmpty_eq_false_iff]
    intro hnil
    rw [LinExpr.lead?, OrderedMap.toList, hnil] at hlead
    cases hlead
  have hnormal : e.normalized = LinExpr.zero := by
    simp [LinExpr.normalized, hlead, Rat.abs, LinExpr.scaled]
  unfold belowZero at h
  rw [hconst, hnormal] at h
  cases h

/-! ### Commands -/

namespace Solver

open Step

/-- What a solver can be told. -/
inductive Command where
  | add (f : Formula)
  | addAll (fs : List Formula)
  | check
  | stats

/-- What a solver replies. -/
inductive Reply where
  | done
  | answer (a : Satisfiability)
  | extent (stats : SolverStats)

/-- The reply to a command. -/
def Command.serve : Command → Step Solver Reply
  | .add f => do
    Solver.add f
    return .done
  | .addAll fs => do
    Solver.addAll fs
    return .done
  | .check => do return .answer (← Solver.check)
  | .stats => do return .extent (← Step.query Solver.stats)

/-- The replies to commands, one after the other. -/
def runAll (commands : List Command) : Step Solver (List Reply) := commands.mapM Command.serve

theorem Command.serve_grows (q : Command) : Grows q.serve := by
  cases q with
  | add f => exact (add_grows f).bind fun _ => Grows.pure _
  | addAll fs => exact (addAll_grows fs).bind fun _ => Grows.pure _
  | check => exact check_grows.bind fun _ => Grows.pure _
  | stats => exact (Grows.query _).bind fun _ => Grows.pure _

/-- A sound solver replies to a command and stays sound. -/
theorem Command.serve_spec {fs : List Formula} {s : Solver} (hs : s.Sound fs) (q : Command) :
    Yields q.serve s fun _ t => ∃ gs, t.Sound gs := by
  cases q with
  | add f =>
    exact (add_spec hs f).bind (fun _ => Grows.pure _) fun _ t _ ht => Yields.pure ⟨_, ht⟩
  | addAll gs =>
    exact (addAll_spec gs hs).bind (fun _ => Grows.pure _) fun _ t _ ht => Yields.pure ⟨_, ht⟩
  | check =>
    exact (check_spec hs).bind (fun _ => Grows.pure _) fun _ t _ ⟨ht, _⟩ => Yields.pure ⟨_, ht⟩
  | stats =>
    obtain ⟨stats, hstats⟩ := hs.exists_stats
    exact Yields.after_query hstats (Yields.pure ⟨fs, hs⟩)

/-- All commands are replied to. -/
theorem runAll_spec {fs : List Formula} {s : Solver} (hs : s.Sound fs) (commands : List Command) :
    Yields (runAll commands) s fun _ t => ∃ gs, t.Sound gs :=
  Yields.mapM Command.serve_grows (fun q _ ⟨_, ht⟩ => Command.serve_spec ht q) commands ⟨fs, hs⟩

/-- A solver with any number of buckets and slots that can be asked for replies to all commands, in
whatever order they come and whatever formulas they assert, as long as its nodes can be referred to:
no operation is called outside its contract, all places looked at are inside the tables, the atoms
can be numbered, and neither the expressions made atoms nor the constraints of any literals that are
put to elimination lead to a division by zero: that is none of the numbers by which the elimination
divides, and whatever a division by zero came to, it would find the same. -/
theorem faultless_of_bits {config : SolverConfig} (hbits : config.bucketBits ≤ 24)
    (journal : Journal) :
    ∃ s, create config journal = .ok s ∧ ∀ commands : List Command,
      ((runAll commands).perform s).2.skeleton.manager.Addressable →
      ∃ replies t, (runAll commands).perform s = (.ok replies, t) ∧
        t.skeleton.manager.InBounds ∧ t.skeleton.atoms.size < Ref.indexRange ∧
        (∀ (k l : Skeleton) e r, (Skeleton.belowZero e).perform k = (.ok r, l) → e.lead? ≠ some 0) ∧
        ∀ ls cs, t.skeleton.atoms.constraints ls = .ok cs →
          0 ∉ Linear.Elimination.divisors cs ∧
          ∀ inv : Rat → Rat, (∀ q, q ≠ 0 → inv q = q⁻¹) →
            Linear.checkBy inv cs = Linear.check cs := by
  obtain ⟨m, hm⟩ := Manager.exists_create hbits journal
  have hcreate := create_of_manager config hm
  refine ⟨_, hcreate, fun commands hfit => ?_⟩
  obtain ⟨replies, t, hrun, -, fs, hsound⟩ := runAll_spec (sound_of_create hcreate) commands hfit
  rw [hrun] at hfit
  refine ⟨replies, t, hrun, hsound.wf.manager.inBounds, ?_,
    fun k l e r => Skeleton.lead?_ne_zero_of_belowZero, fun ls cs hcs => ?_⟩
  · exact Nat.lt_of_le_of_lt hsound.wf.atoms_le hfit
  · have hzero := Linear.Elimination.zero_notMem_divisors
      (AtomTable.allReduced_of_constraints hsound.wf.reduced hcs)
    exact ⟨hzero, fun inv hinv => Linear.checkBy_eq fun q hq =>
      hinv q (ne_of_mem_of_not_mem hq hzero)⟩

/-- All commands are replied to, with smallest tables and a formula in which everything cancels.  The
constraints of two of the atoms are eliminated without a division by zero. -/
theorem faultless_of_bits_cancelled :
    ∃ s replies t, create { bucketBits := 0 } .closed = .ok s ∧
      (runAll [.add ((Term.abs (.var "x")).lt (.const 1)), .stats, .check,
        .addAll [((Term.var "x").sub (.var "x")).lt (.scale 0 (.var "y"))], .check]).perform s =
        (.ok replies, t) ∧ t.skeleton.manager.InBounds ∧
      ∃ cs, t.skeleton.atoms.constraints [⟨-1⟩, ⟨2⟩] = .ok cs ∧ cs.length = 2 ∧
        0 ∉ Linear.Elimination.divisors cs ∧
        Linear.checkBy (fun q => if q = 0 then 1 else q⁻¹) cs = Linear.check cs := by
  obtain ⟨s, hcreate, hcommands⟩ := faultless_of_bits
    (show ({ bucketBits := 0 } : SolverConfig).bucketBits ≤ 24 by decide) .closed
  cases hcreate.symm.trans create_smallest
  obtain ⟨replies, t, hrun, hbounds, -, -, hdivisions⟩ := hcommands
    [.add ((Term.abs (.var "x")).lt (.const 1)), .stats, .check,
      .addAll [((Term.var "x").sub (.var "x")).lt (.scale 0 (.var "y"))], .check]
    (of_decide_eq_true (by cbv))
  have hcs : t.skeleton.atoms.constraints [⟨-1⟩, ⟨2⟩] =
      .ok [.leZero (-.var "x"), .ltZero (.var "x" - .const 1)] := by
    refine (congrArg (fun p => p.2.skeleton.atoms.constraints [⟨-1⟩, ⟨2⟩]) hrun).symm.trans ?_
    exact of_decide_eq_true (by cbv)
  obtain ⟨hzero, hsame⟩ := hdivisions _ _ hcs
  exact ⟨_, replies, t, hcreate, hrun, hbounds, _, hcs, rfl, hzero,
    hsame _ fun q hq => if_neg hq⟩

end Solver

end BrakeCheck
