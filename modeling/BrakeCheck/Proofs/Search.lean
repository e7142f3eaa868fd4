import BrakeCheck.Proofs.Atoms
import BrakeCheck.Solver

/-!
# The search is sound in both directions

A search keeps the function it searches as the same property of the values: a path is blocked
only if its constraints have no solution, so no values are lost with it.  A search that runs out of
paths has therefore refuted the property, and one that stops at a path has found values for it,
whatever else the path leaves open.

What a search does is said once, by the relation `Skeleton.Searched`, which has one case for each
way in which a round of the loop can end; what is known of the results of searches is proved along
its cases.

## Main definitions

* `SearchResult.Justified` — what the answer of a search says about the property searched.
* `Skeleton.Searched` — the rounds of a search, down to its result.

## Main statements

* `Skeleton.examine_spec` — the contract of examining a path.
* `Skeleton.search_spec` — the contract of a search, for every budget.
* `Skeleton.Searched.justified` — the result of a search is justified.
-/

namespace BrakeCheck

/-- The answer of a search for values with the property `f`, with names of `N` in the solution:
there are none, or some have been found, or nothing is said. -/
structure SearchResult.Justified (N : String → Prop) (f : (String → Rat) → Bool)
    (result : SearchResult) : Prop where
  unsat : result.answer = .unsat → ∀ v, f v = false
  sat : result.answer = .sat → ∃ values, result.values = some values ∧
    f (values.getD · 0) = true ∧ ∀ x, (values.get? x).isSome → N x
  none : result.answer ≠ .sat → result.values = none

/-- What elimination says of the constraints that literals stand for. -/
def AtomTable.examined (atoms : AtomTable) (ls : List Literal) : Except Fault Linear.Feasibility :=
  (atoms.constraints ls).map Linear.check

namespace Skeleton

variable {N : String → Prop} {s : Skeleton}

/-! ### Growth -/

theorem notePath_grows (number : Nat) (ls : List Literal) : Step.Grows (notePath number ls) :=
  onManager_grows (Manager.note_grows _ _ _)

theorem examine_grows (ls : List Literal) : Step.Grows (examine ls) :=
  (Step.Grows.query _).bind fun _ => (onManager_grows (Manager.noteAll_grows _ _ _)).bind
    fun _ => Step.Grows.pure _

/-- A search ends when the path examined has a solution, and goes on without the path otherwise. -/
theorem after_examine_grows {budget spent : Nat} (r : Ref) (ls : List Literal)
    (hsearch : ∀ q, Step.Grows (search q (spent + 1) budget)) (verdict : Linear.Feasibility) :
    Step.Grows (match verdict with
      | .feasible values => (return ⟨.sat, some values, spent + 1⟩ : Step Skeleton SearchResult)
      | .infeasible => do search (← onManager (Manager.block r ls)) (spent + 1) budget) := by
  cases verdict with
  | feasible values => exact Step.Grows.pure _
  | infeasible => exact (onManager_grows (Manager.block_grows _ _)).bind fun q => hsearch q

theorem search_grows (budget : Nat) :
    ∀ (r : Ref) (spent : Nat), Step.Grows (search r spent budget) := by
  induction budget with
  | zero =>
    intro r spent
    refine (Step.Grows.query _).bind fun found => ?_
    cases found with
    | none => exact Step.Grows.pure _
    | some ls =>
      exact (onManager_grows (Manager.note_grows _ _ _)).bind fun _ => Step.Grows.pure _
  | succ budget ih =>
    intro r spent
    refine (Step.Grows.query _).bind fun found => ?_
    cases found with
    | none => exact Step.Grows.pure _
    | some ls =>
      exact (notePath_grows _ _).bind fun _ => (examine_grows _).bind
        (after_examine_grows r ls fun q => ih q _)

/-! ### Reports -/

theorem WellFormed.withJournal (wf : s.WellFormed N) (journal : Journal) :
    WellFormed N ⟨{ s.manager with journal }, s.atoms⟩ :=
  { wf with
    manager := wf.manager.withJournal journal
    within := wf.within }

/-- A report leaves the nodes and the atoms as they are. -/
theorem note_spec (wf : s.WellFormed N) (level : Level) (origin : Origin) (text : Thunk String) :
    Step.Yields (onManager (Manager.note level origin text)) s fun _ t => t.WellFormed N ∧
      t.manager.nodes = s.manager.nodes ∧ t.atoms = s.atoms :=
  fun _ => ⟨(), _, rfl, ⟨Manager.Extends.refl s.manager, fun _ _ h => h⟩, wf.withJournal _, rfl,
    rfl⟩

theorem noteAll_spec (wf : s.WellFormed N) (level : Level) (origin : Origin)
    (texts : Thunk (List String)) :
    Step.Yields (onManager (Manager.noteAll level origin texts)) s fun _ t => t.WellFormed N ∧
      t.manager.nodes = s.manager.nodes ∧ t.atoms = s.atoms :=
  fun _ => ⟨(), _, rfl, ⟨Manager.Extends.refl s.manager, fun _ _ h => h⟩, wf.withJournal _, rfl,
    rfl⟩

/-! ### Examining a path -/

/-- What the examination of literals says of them: values under which all of them hold, with names
of `N`, or that there are no such values. -/
def Settled (N : String → Prop) (atoms : AtomTable) (ls : List Literal) :
    Linear.Feasibility → Prop
  | .feasible values => Literal.allHold ls (atoms.truth (values.getD · 0)) = true ∧
    ∀ x, (values.get? x).isSome → N x
  | .infeasible => ∀ v, Literal.allHold ls (atoms.truth v) = false

/-- Literals of atoms are settled by elimination. -/
theorem settled_of_examined (wf : s.WellFormed N) {ls : List Literal}
    (hls : ∀ l ∈ ls, 0 < l.var ∧ l.var ≤ s.atoms.size) {verdict : Linear.Feasibility}
    (h : s.atoms.examined ls = .ok verdict) : Settled N s.atoms ls verdict := by
  obtain ⟨cs, hcs, hreduced, hnames, hholds⟩ :=
    AtomTable.constraints_spec wf.reduced wf.names hls
  have hverdict : Linear.check cs = verdict := by
    rw [AtomTable.examined, hcs] at h
    exact Except.ok.inj h
  have hsettles := Linear.Elimination.settles_ofConstraints hreduced
  have refuted : (∀ v, ¬ Constraint.AllHold cs v) →
      ∀ v, Literal.allHold ls (s.atoms.truth v) = false := by
    intro h v
    rw [← Bool.not_eq_true, ← hholds]
    exact h v
  rw [← hverdict, Linear.check]
  cases helimination : Linear.Elimination.ofConstraints cs with
  | solved stages =>
    rw [helimination] at hsettles
    refine ⟨(hholds _).1 hsettles, fun x hx => ?_⟩
    obtain ⟨c, hc, hxc⟩ := (Linear.Elimination.isSome_solution_of_solved helimination).1 hx
    exact hnames c hc x hxc
  | violated c =>
    rw [helimination] at hsettles
    exact refuted hsettles
  | contradiction x =>
    rw [helimination] at hsettles
    exact refuted hsettles

/-- The contract of examining the literals of a path: the constraints that they stand for are put
to elimination, and nothing but the journal changes. -/
theorem examine_spec (wf : s.WellFormed N) {ls : List Literal}
    (hls : ∀ l ∈ ls, 0 < l.var ∧ l.var ≤ s.atoms.size) :
    Step.Yields (examine ls) s fun verdict t => t.WellFormed N ∧
      s.atoms.examined ls = .ok verdict ∧ t.manager.nodes = s.manager.nodes ∧
      t.atoms = s.atoms := by
  obtain ⟨cs, hcs, -⟩ := AtomTable.constraints_spec wf.reduced wf.names hls
  refine Step.Yields.after_query hcs ?_
  refine (noteAll_spec wf _ _ _).bind (fun _ => Step.Grows.pure _)
    fun _ t _ ⟨wft, hnodes, hatoms⟩ => Step.Yields.pure ⟨wft, ?_, hnodes, hatoms⟩
  rw [AtomTable.examined, hcs]
  rfl

/-! ### The search -/

/-- The rounds of a search of `r` in the skeleton `s`, when `spent` paths have been examined before
and `budget` more may be, down to its result: there is no path left, or no budget; the path has a
solution; or it has none, and the search goes on with the function without this path, in a skeleton
that extends the first one. -/
inductive Searched (N : String → Prop) :
    Skeleton → Ref → (spent budget : Nat) → SearchResult → Prop where
  | exhausted {s : Skeleton} {spent budget : Nat} (wf : s.WellFormed N) :
      Searched N s .zero spent budget ⟨.unsat, none, spent⟩
  | stopped {s : Skeleton} {r : Ref} {ls : List Literal} {spent : Nat} (wf : s.WellFormed N)
      (hr : s.manager.Has r) (hpath : s.manager.Follows r ls) :
      Searched N s r spent 0 ⟨.unknown, none, spent⟩
  | found {s : Skeleton} {r : Ref} {ls : List Literal} {values : OrderedMap Rat}
      {spent budget : Nat} (wf : s.WellFormed N) (hr : s.manager.Has r)
      (hpath : s.manager.Follows r ls) (hexamined : s.atoms.examined ls = .ok (.feasible values)) :
      Searched N s r spent (budget + 1) ⟨.sat, some values, spent + 1⟩
  | blocked {s t : Skeleton} {r q : Ref} {ls : List Literal} {spent budget : Nat}
      {result : SearchResult} (wf : s.WellFormed N) (hr : s.manager.Has r)
      (hpath : s.manager.Follows r ls) (hexamined : s.atoms.examined ls = .ok .infeasible)
      (hext : t.Extends s) (hatoms : t.atoms = s.atoms)
      (hq : t.manager.Denotes q fun a => s.manager.holds a r && !Literal.allHold ls a)
      (hrest : Searched N t q (spent + 1) budget result) : Searched N s r spent (budget + 1) result

theorem Searched.wellFormed {r : Ref} {spent budget : Nat} {result : SearchResult}
    (h : Searched N s r spent budget result) : s.WellFormed N := by
  cases h with
  | exhausted wf => exact wf
  | stopped wf => exact wf
  | found wf => exact wf
  | blocked wf => exact wf

/-- The literals of the way from a reference are about atoms. -/
theorem WellFormed.isAtom_of_follows (wf : s.WellFormed N) {r : Ref} {ls : List Literal}
    (h : s.manager.Follows r ls) : ∀ l ∈ ls, 0 < l.var ∧ l.var ≤ s.atoms.size :=
  wf.isAtom (h.leadsToOne wf.manager).1

/-- The contract of a search: it has a result, which its rounds lead to, and the atoms stay as they
are.  By induction on the budget. -/
theorem search_spec (budget : Nat) {s : Skeleton} (wf : s.WellFormed N) {r : Ref} (spent : Nat)
    (hr : s.manager.Has r) :
    Step.Yields (search r spent budget) s fun result t => t.WellFormed N ∧ t.atoms = s.atoms ∧
      Searched N s r spent budget result := by
  induction budget generalizing s r spent with
  | zero =>
    refine Step.Yields.of_addressable (search_grows _ _ _) fun hfit => ?_
    rcases Manager.path_eq_ok wf.manager (wf.narrow hfit) hr with ⟨rfl, hrun⟩ | ⟨ls, hrun, hpath⟩
    · exact Step.Yields.after_query hrun (Step.Yields.pure ⟨wf, rfl, .exhausted wf⟩)
    · refine Step.Yields.after_query hrun ?_
      exact (note_spec wf _ _ _).bind (fun _ => Step.Grows.pure _) fun _ t _ ⟨wft, _, hatoms⟩ =>
        Step.Yields.pure ⟨wft, hatoms, .stopped wf hr hpath⟩
  | succ budget ih =>
    refine Step.Yields.of_addressable (search_grows _ _ _) fun hfit => ?_
    rcases Manager.path_eq_ok wf.manager (wf.narrow hfit) hr with ⟨rfl, hrun⟩ | ⟨ls, hrun, hpath⟩
    · exact Step.Yields.after_query hrun (Step.Yields.pure ⟨wf, rfl, .exhausted wf⟩)
    · refine Step.Yields.after_query hrun ?_
      have hgrows := after_examine_grows r ls fun q => search_grows budget q (spent + 1)
      refine (note_spec wf _ _ _).bind (fun _ => (examine_grows _).bind hgrows)
        fun _ t ht ⟨wft, _, hatomst⟩ => ?_
      have hls : ∀ l ∈ ls, 0 < l.var ∧ l.var ≤ t.atoms.size := by
        rw [hatomst]
        exact wf.isAtom_of_follows hpath
      refine (examine_spec wft hls).bind hgrows
        fun verdict u hu ⟨wfu, hexamined, _, hatomsu⟩ => ?_
      rw [hatomst] at hexamined hatomsu
      have hext : u.Extends s := hu.trans ht
      cases verdict with
      | feasible values =>
        exact Step.Yields.pure ⟨wfu, hatomsu, .found wf hr hpath hexamined⟩
      | infeasible =>
        have hleads := ((hpath.leadsToOne wf.manager).1).mono wf.manager hext.manager hr
        have hkeeps := Manager.block_keeps (Manager.kept_within u.atoms.size)
          (fun l hl => (wfu.isAtom hleads l hl).2) r
        refine (onManager_yields wfu hkeeps (Manager.block_spec wfu.manager
          (hr.mono hext.manager) hleads)).bind (fun _ => search_grows _ _ _)
          fun q w hw ⟨wfw, hatomsw, hq⟩ => ?_
        refine (ih wfw (spent + 1) hq.has).imp fun result x _ ⟨wfx, hatomsx, hrest⟩ => ?_
        rw [hatomsu] at hatomsw
        refine ⟨wfx, hatomsx.trans hatomsw, .blocked wf hr hpath hexamined (hw.trans hext) hatomsw
          ⟨hq.has, fun a => ?_⟩ hrest⟩
        rw [hq.meaning, Manager.holds_of_extends wf.manager hext.manager a hr]

/-! ### What the answer says -/

/-- A function without a path stands for a property that no values have. -/
theorem justified_of_zero (wf : s.WellFormed N) {r : Ref} {f : (String → Rat) → Bool}
    (hr : s.Denotes r f) (hzero : r = .zero) (spent : Nat) :
    SearchResult.Justified N f ⟨.unsat, none, spent⟩ where
  unsat _ v := by rw [← hr.meaning, hzero, wf.denotes_zero.meaning]
  sat h := by cases h
  none _ := rfl

/-- The result of a search is justified for the property that the function stands for; the function
without a path whose constraints have no solution stands for the same property. -/
theorem Searched.justified {r : Ref} {spent budget : Nat} {result : SearchResult}
    (h : Searched N s r spent budget result) {f : (String → Rat) → Bool} (hr : s.Denotes r f) :
    result.Justified N f := by
  induction h with
  | exhausted wf => exact justified_of_zero wf hr rfl _
  | stopped wf _ _ => exact ⟨by simp, by simp, by simp⟩
  | found wf _ hpath hexamined =>
    -- the function holds wherever all literals of its path do
    have hsettled := settled_of_examined wf (wf.isAtom_of_follows hpath) hexamined
    refine ⟨by simp, fun _ => ⟨_, rfl, ?_, hsettled.2⟩, by simp⟩
    rw [← hr.meaning]
    exact (hpath.leadsToOne wf.manager).1.sound _ hsettled.1
  | @blocked s t r q ls _ _ _ wf _ hpath hexamined _ hatoms hq _ ih =>
    -- no values follow the path
    have hsettled := settled_of_examined wf (wf.isAtom_of_follows hpath) hexamined
    refine ih ⟨hq.has, fun v => ?_⟩
    rw [holds, hatoms, hq.meaning, hsettled v, Bool.not_false, Bool.and_true]
    exact hr.meaning v

end Skeleton

end BrakeCheck
