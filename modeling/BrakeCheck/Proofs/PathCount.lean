import BrakeCheck.Proofs.Canonical
import BrakeCheck.Proofs.Soundness

/-!
# A check ends within the number of paths of its root

Blocking a path changes the shape of the diagram: nodes are merged, variables drop out, and the
other paths run elsewhere.  The number of paths falls all the same.  A function has at most as many
paths as its two cofactors together, because where it does not branch it is both of them; so the
function without a path is compared with the function level by level along this path: beside it the
cofactors are equal, and at its end one path is gone.

## Main definitions

* `Manager.pathCount` — the number of paths from a reference to the constant true.

## Main statements

* `Manager.pathCount_congr` — the number of paths is that of the function.
* `Manager.Cofactors.pathCount_le` — paths are counted by the cofactors of any variable.
* `Manager.Follows.pathCount_lt` — the function without a path has fewer of them.
* `Skeleton.Searched.theoryChecks_le` — a search examines no more paths than its function has.
* `Solver.check_within_paths` — a check that gives up had a budget below the paths of its root.
-/

namespace BrakeCheck

namespace Manager

/-! ### Counting paths -/

/-- The number of paths from a reference to the constant true: none from the constant false, one
from the constant true, and from a node those from both edges.  An edge that does not lead down
leads nowhere. -/
def pathCount (m : Manager) (r : Ref) : Nat :=
  if r = .zero then 0
  else if r = .one then 1
  else match m.low r, m.high r with
    | .ok low, .ok high =>
      if _h : low.height < r.height ∧ high.height < r.height then
        m.pathCount low + m.pathCount high
      else 0
    | _, _ => 0
termination_by r.height
decreasing_by
  · exact _h.1
  · exact _h.2

@[simp] theorem pathCount_zero (m : Manager) : m.pathCount .zero = 0 := by
  rw [pathCount, if_pos rfl]

@[simp] theorem pathCount_one (m : Manager) : m.pathCount .one = 1 := by
  rw [pathCount, if_neg (by decide), if_pos rfl]

/-- The paths from a node are those from its edges. -/
theorem pathCount_node {m : Manager} (wf : m.WellFormed) {r : Ref} {n : Node}
    (hterminal : r.index ≠ Ref.terminal) (hn : m.nodes.value? r.index = some n) :
    m.pathCount r =
      m.pathCount (n.low.flipIf r.negated) + m.pathCount (n.high.flipIf r.negated) := by
  have hzero : r ≠ .zero := fun h => hterminal ((eq_constant_iff r).1 (Or.inl h))
  have hone : r ≠ .one := fun h => hterminal ((eq_constant_iff r).1 (Or.inr h))
  obtain ⟨-, hlow, hhigh⟩ := Cofactors.edges wf hterminal hn
  rw [pathCount, if_neg hzero, if_neg hone, low_eq_ok hn, high_eq_ok hn]
  exact dif_pos ⟨hlow, hhigh⟩

variable {m : Manager}

/-- There are no more paths than two to the power of the height. -/
theorem pathCount_le_two_pow {r : Ref} (wf : m.WellFormed) (hr : m.Has r) :
    m.pathCount r ≤ 2 ^ r.height := by
  induction hk : r.height using Nat.strongRecOn generalizing r with
  | _ k ih =>
    by_cases hterminal : r.index = Ref.terminal
    · have hpos : 0 < 2 ^ k := Nat.two_pow_pos k
      rcases (eq_constant_iff r).2 hterminal with rfl | rfl
      · rw [pathCount_zero]
        omega
      · rw [pathCount_one]
        omega
    · obtain ⟨n, hn⟩ := Option.isSome_iff_exists.1 hr
      obtain ⟨hedges, hlow, hhigh⟩ := Cofactors.edges wf hterminal hn
      rw [hk] at hlow hhigh
      have hlowCount := ih _ hlow hedges.branch.has_low rfl
      have hhighCount := ih _ hhigh hedges.branch.has_high rfl
      -- both edges end at least one level lower
      have hlowPow := Nat.pow_le_pow_right Nat.two_pos (Nat.le_pred_of_lt hlow)
      have hhighPow := Nat.pow_le_pow_right Nat.two_pos (Nat.le_pred_of_lt hhigh)
      have hdouble : 2 ^ k = 2 ^ (k - 1) + 2 ^ (k - 1) := by
        rw [← Nat.two_mul, ← Nat.pow_succ', Nat.succ_eq_add_one, Nat.sub_add_cancel (by omega)]
      rw [pathCount_node wf hterminal hn]
      simp only [Nat.pred_eq_sub_one] at hlowPow hhighPow
      omega

/-- References to one function have equally many paths, in whatever stores. -/
theorem pathCount_congr {t : Manager} (wf : m.WellFormed) (wft : t.WellFormed) {r q : Ref}
    (hr : m.Has r) (hq : t.Has q) (hsame : ∀ a, t.holds a q = m.holds a r) :
    t.pathCount q = m.pathCount r := by
  induction hk : r.height using Nat.strongRecOn generalizing r q with
  | _ k ih =>
    subst hk
    by_cases hterminal : r.index = Ref.terminal
    · rcases (eq_constant_iff r).2 hterminal with rfl | rfl
      · obtain rfl : q = .zero := (eq_zero_iff wft hq).2 fun a => by rw [hsame, holds_zero]
        rw [pathCount_zero, pathCount_zero]
      · obtain rfl : q = .one := (eq_one_iff wft hq).2 fun a => by rw [hsame, holds_one]
        rw [pathCount_one, pathCount_one]
    · obtain ⟨n, hn⟩ := Option.isSome_iff_exists.1 hr
      obtain ⟨d, hterminal', hd, -, hsameLow, hsameHigh⟩ := edges_congr wf wft hterminal hn hq hsame
      obtain ⟨hedges, hlow, hhigh⟩ := Cofactors.edges wf hterminal hn
      obtain ⟨hedges', -, -⟩ := Cofactors.edges wft hterminal' hd
      rw [pathCount_node wft hterminal' hd, pathCount_node wf hterminal hn,
        ih _ hlow hedges.branch.has_low hedges'.branch.has_low hsameLow rfl,
        ih _ hhigh hedges.branch.has_high hedges'.branch.has_high hsameHigh rfl]

/-- More nodes do not change the number of paths. -/
theorem pathCount_of_extends {old : Manager} (wf : m.WellFormed) (wfold : old.WellFormed)
    (hext : m.Extends old) {r : Ref} (hr : old.Has r) : m.pathCount r = old.pathCount r :=
  pathCount_congr wfold wf hr (hr.mono hext) fun a => holds_of_extends wfold hext a hr

/-- So a function has a number of paths. -/
theorem exists_pathCount (f : (Nat → Bool) → Bool) :
    ∃ count, ∀ (m : Manager) (r : Ref), m.WellFormed → m.Denotes r f → m.pathCount r = count := by
  by_cases hsome : ∃ (m : Manager) (r : Ref), m.WellFormed ∧ m.Denotes r f
  · obtain ⟨m, r, wf, hr⟩ := hsome
    refine ⟨m.pathCount r, fun t q wft hq => pathCount_congr wf wft hr.has hq.has fun a => ?_⟩
    rw [hq.meaning, hr.meaning]
  · exact ⟨0, fun m r wf hr => absurd ⟨m, r, wf, hr⟩ hsome⟩

/-- A function has at most as many paths as its cofactors by a variable that it does not branch
above: if the cofactors differ they are its edges, and otherwise it is both of them. -/
theorem Cofactors.pathCount_le (wf : m.WellFormed) {v : Nat} {r low high : Ref} (hr : m.Has r)
    (h : m.Cofactors v r low high) : m.pathCount r ≤ m.pathCount low + m.pathCount high := by
  by_cases hne : low = high
  · have hsame : r = low := eq_of_holds_eq wf hr h.branch.has_low fun a => by
      rw [h.meaning, ← hne, Bool.cond_self]
    rw [← hne, hsame]
    exact Nat.le_add_left _ _
  · obtain ⟨n, hterminal, hn, -, hlow, hhigh⟩ := h.branch.edges_eq wf hne hr h.meaning
    rw [pathCount_node wf hterminal hn, hlow, hhigh]

/-- Where there is a way to the constant true there is a path. -/
theorem Follows.pathCount_pos (wf : m.WellFormed) {r : Ref} {ls : List Literal}
    (h : m.Follows r ls) : 0 < m.pathCount r := by
  induction h with
  | one => rw [pathCount_one]; exact Nat.one_pos
  | @edge r next n positive l ls hterminal hn _ hedge _ _ _ _ ih =>
    rw [pathCount_node wf hterminal hn]
    cases positive with
    | true =>
      rw [hedge] at ih
      exact Nat.lt_of_lt_of_le ih (Nat.le_add_left _ _)
    | false =>
      rw [hedge] at ih
      exact Nat.lt_of_lt_of_le ih (Nat.le_add_right _ _)

/-- A function with paths is not the constant false, and the other way around. -/
theorem pathCount_eq_zero_iff {r : Ref} (wf : m.WellFormed) (hnarrow : m.Narrow) (hr : m.Has r) :
    m.pathCount r = 0 ↔ r = .zero := by
  constructor
  · intro hcount
    by_contra hzero
    obtain ⟨ls, hls⟩ := exists_follows wf hnarrow hr hzero
    have hpos := hls.pathCount_pos wf
    omega
  · rintro rfl
    exact pathCount_zero m

/-! ### Blocking a path -/

/-- The cofactors of a function without a path, in terms of the edges of the node with which the path
begins: on the side of the first literal the rest of the path is taken away, on the other side
nothing is. -/
theorem exists_cofactors_without (wf : m.WellFormed) {r q : Ref} {n : Node}
    (hterminal : r.index ≠ Ref.terminal) (hn : m.nodes.value? r.index = some n) {l : Literal}
    (hvar : l.var = n.var) {ls : List Literal} (habove : ∀ k ∈ ls, n.var < k.var) (hq : m.Has q)
    (hmeaning : ∀ a, m.holds a q = (m.holds a r && !Literal.allHold (l :: ls) a)) :
    ∃ low high, m.Cofactors n.var q low high ∧
      (∀ a, m.holds a low = (m.holds a (n.low.flipIf r.negated) &&
        !((false == l.isPositive) && Literal.allHold ls a))) ∧
      ∀ a, m.holds a high = (m.holds a (n.high.flipIf r.negated) &&
        !((true == l.isPositive) && Literal.allHold ls a)) := by
  obtain ⟨hedges, -, -⟩ := Cofactors.edges wf hterminal hn
  have hbranch := hedges.branch
  -- the first literal asks for one value of the variable, and the others do not look at it
  have hfirst : ∀ (a : Nat → Bool) value,
      Literal.allHold (l :: ls) (Function.update a n.var value) =
        ((value == l.isPositive) && Literal.allHold ls a) := by
    intro a value
    have hlater : Literal.allHold ls (Function.update a n.var value) = Literal.allHold ls a :=
      Literal.allHold_congr fun k hk => Function.update_of_ne (Nat.ne_of_gt (habove k hk)) value a
    rw [Literal.allHold_cons, hlater, Literal.holds, hvar, Function.update_self]
  have hdepends : ∀ a b : Nat → Bool, (∀ u, n.var ≤ u → a u = b u) → m.holds a q = m.holds b q := by
    intro a b hab
    have hls : Literal.allHold (l :: ls) a = Literal.allHold (l :: ls) b := by
      refine Literal.allHold_congr fun k hk => hab _ ?_
      rcases List.mem_cons.1 hk with rfl | hk
      · exact Nat.le_of_eq hvar.symm
      · exact Nat.le_of_lt (habove k hk)
    rw [hmeaning, hmeaning, hbranch.holds_congr wf hedges.meaning hab, hls]
  obtain ⟨low, high, hcofactors⟩ := exists_cofactors wf hbranch.var_pos hq hdepends
  refine ⟨low, high, hcofactors, fun a => ?_, fun a => ?_⟩
  · rw [hcofactors.branch.holds_low wf hcofactors.meaning, hmeaning, hfirst,
      hbranch.holds_low wf hedges.meaning]
  · rw [hcofactors.branch.holds_high wf hcofactors.meaning, hmeaning, hfirst,
      hbranch.holds_high wf hedges.meaning]

/-- A function without the path of another one has fewer paths than it.  By induction along the path:
on the other side of the first variable the two functions agree. -/
theorem Follows.pathCount_lt (wf : m.WellFormed) {r : Ref} {ls : List Literal}
    (h : m.Follows r ls) {q : Ref} (hq : m.Has q)
    (hmeaning : ∀ a, m.holds a q = (m.holds a r && !Literal.allHold ls a)) :
    m.pathCount q < m.pathCount r := by
  induction h generalizing q with
  | one =>
    obtain rfl : q = .zero := (eq_zero_iff wf hq).2 fun a => by simp [hmeaning]
    rw [pathCount_zero, pathCount_one]
    exact Nat.one_pos
  | @edge r next n positive l ls hterminal hn hpositive hedge hvar hsign hl hnext ih =>
    obtain ⟨hedges, -, -⟩ := Cofactors.edges wf hterminal hn
    have hnone : m.Below n.var next := (taken_edge wf hterminal hn hpositive hedge).2.2.1
    have habove : ∀ k ∈ ls, n.var < k.var := (hnext.leadsToOne wf).2 n.var hnone
    obtain ⟨low, high, hcofactors, hlow, hhigh⟩ :=
      exists_cofactors_without wf hterminal hn hvar habove hq hmeaning
    rw [hsign] at hlow hhigh
    have hle := hcofactors.pathCount_le wf hq
    rw [pathCount_node wf hterminal hn]
    cases positive with
    | true =>
      obtain rfl : low = n.low.flipIf r.negated :=
        eq_of_holds_eq wf hcofactors.branch.has_low hedges.branch.has_low fun a => by simp [hlow]
      have hlt := ih hcofactors.branch.has_high fun a => by simp [hhigh, hedge]
      rw [hedge] at hlt
      simp only [if_true] at hlt
      omega
    | false =>
      obtain rfl : high = n.high.flipIf r.negated :=
        eq_of_holds_eq wf hcofactors.branch.has_high hedges.branch.has_high fun a => by simp [hhigh]
      have hlt := ih hcofactors.branch.has_low fun a => by simp [hlow, hedge]
      rw [hedge] at hlt
      simp only [Bool.false_eq_true, if_false] at hlt
      omega

/-- The same in a store that has grown in the meantime. -/
theorem Denotes.pathCount_lt {old : Manager} (wf : m.WellFormed) (wfold : old.WellFormed)
    (hext : m.Extends old) {r : Ref} (hr : old.Has r) {ls : List Literal}
    (hpath : old.Follows r ls) {q : Ref}
    (hq : m.Denotes q fun a => old.holds a r && !Literal.allHold ls a) :
    m.pathCount q < old.pathCount r := by
  rw [← pathCount_of_extends wf wfold hext hr]
  refine (hpath.mono hext).pathCount_lt wf hq.has fun a => ?_
  rw [hq.meaning, holds_of_extends wfold hext a hr]

/-- Blocking the path that is found leaves fewer paths. -/
theorem block_pathCount_lt (wf : m.WellFormed) (hnarrow : m.Narrow) {r : Ref} (hr : m.Has r)
    {ls : List Literal} (hls : m.path r = .ok (some ls)) :
    Step.Yields (block r ls) m fun q t => t.pathCount q < m.pathCount r := by
  rcases path_eq_ok wf hnarrow hr with ⟨-, hnone⟩ | ⟨ks, hks, hpath⟩
  · rw [hls] at hnone
    cases hnone
  · rw [hls] at hks
    cases hks
    exact (block_spec wf hr (hpath.leadsToOne wf).1).imp fun q t hext ⟨wft, hq⟩ =>
      hq.pathCount_lt wft wf hext hr hpath

end Manager

/-! ### Searches -/

namespace Skeleton

variable {N : String → Prop} {s : Skeleton} {r : Ref} {spent budget : Nat} {result : SearchResult}

/-- A search examines no more paths than its function has, and gives up only if it may not examine
that many: every round but the last leaves the next one a function with fewer paths. -/
theorem Searched.theoryChecks_le (h : Searched N s r spent budget result) :
    result.theoryChecks ≤ spent + s.manager.pathCount r ∧
      (result.answer = .unknown → budget < s.manager.pathCount r) := by
  induction h with
  | exhausted => simp
  | stopped wf _ hpath =>
    exact ⟨Nat.le_add_right _ _, fun _ => hpath.pathCount_pos wf.manager⟩
  | found wf _ hpath =>
    have hpos := hpath.pathCount_pos wf.manager
    exact ⟨by dsimp only; omega, by simp⟩
  | blocked wf hr hpath _ hext _ hq hrest ih =>
    have hlt := hq.pathCount_lt hrest.wellFormed.manager wf.manager hext.manager hr hpath
    exact ⟨by omega, fun hunknown => by have := ih.2 hunknown; omega⟩

end Skeleton

/-! ### Checks -/

namespace Solver

/-- The solver with another budget for its checks. -/
def withBudget (s : Solver) (budget : Nat) : Solver :=
  { s with config := { s.config with maxTheoryChecks := budget } }

/-- The budget has no part in what is known of a solver. -/
theorem Sound.withBudget {fs : List Formula} {s : Solver} (h : s.Sound fs) (budget : Nat) :
    (s.withBudget budget).Sound fs :=
  ⟨h.wf, h.root, h.names⟩

/-- In every run, blocking a path that is found leaves a function with fewer paths, and whatever the
budget is, a check comes to an end and has examined no more paths than the root has: it gives up
only if the budget is below their number. -/
theorem check_within_paths {config : SolverConfig} {fs : List Formula} {s : Solver}
    (h : Run config fs s) :
    (∀ r ls, s.skeleton.manager.Has r → s.skeleton.manager.path r = .ok (some ls) →
      ((Manager.block r ls).perform s.skeleton.manager).2.Addressable →
      ∃ q m, (Manager.block r ls).perform s.skeleton.manager = (.ok q, m) ∧
        m.pathCount q < s.skeleton.manager.pathCount r) ∧
    ∀ budget, (check.perform (s.withBudget budget)).2.skeleton.manager.Addressable →
      ∃ answer t, check.perform (s.withBudget budget) = (.ok answer, t) ∧
        t.theoryChecks ≤ s.skeleton.manager.pathCount s.root ∧
        (answer = .unknown → budget < s.skeleton.manager.pathCount s.root) := by
  constructor
  · intro r ls hr hls hfit
    have hfit' : s.skeleton.manager.Addressable := (Manager.block_grows r ls).addressable hfit
    have wf := (h.sound hfit').wf
    obtain ⟨q, m, hrun, -, hlt⟩ :=
      Manager.block_pathCount_lt wf.manager (wf.narrow hfit') hr hls hfit
    exact ⟨q, m, hrun, hlt⟩
  · intro budget hfit
    have hfit' : (s.withBudget budget).skeleton.manager.Addressable := check_grows.addressable hfit
    obtain ⟨answer, t, hrun, -, -, result, hsearched, rfl, -, heq⟩ :=
      check_searched ((h.sound hfit').withBudget budget) hfit
    obtain ⟨hle, hunknown⟩ := hsearched.theoryChecks_le
    refine ⟨result.answer, t, hrun, ?_, hunknown⟩
    rw [heq]
    rwa [Nat.zero_add] at hle

/-- The root of `|x| < 1` has a path along `x < 0` that is blocked, and a check that may not examine
any path gives up. -/
theorem check_within_paths_abs_lt_one :
    ∃ s q m t, Run { bucketBits := 0 } [(Term.abs (.var "x")).lt (.const 1)] s ∧
      (Manager.block s.root [⟨1⟩, ⟨3⟩]).perform s.skeleton.manager = (.ok q, m) ∧
      m.pathCount q < s.skeleton.manager.pathCount s.root ∧
      check.perform (s.withBudget 0) = (.ok .unknown, t) ∧
      0 < s.skeleton.manager.pathCount s.root := by
  have hrun := (Run.create create_smallest).add ((Term.abs (.var "x")).lt (.const 1))
  obtain ⟨hblock, hcheck⟩ := check_within_paths hrun
  have hsound := hrun.sound (of_decide_eq_true (by cbv))
  obtain ⟨q, m, hblocked, hlt⟩ := hblock _ [⟨1⟩, ⟨3⟩] hsound.root.has (by cbv)
    (of_decide_eq_true (by cbv))
  obtain ⟨answer, t, hperform, -, hunknown⟩ := hcheck 0 (of_decide_eq_true (by cbv))
  have hanswer : Except.ok answer = (.ok .unknown : Except Fault Satisfiability) := by
    refine (congrArg Prod.fst hperform).symm.trans ?_
    cbv
  cases hanswer
  exact ⟨_, q, m, t, hrun, hblocked, hlt, hperform, hunknown rfl⟩

end Solver

end BrakeCheck
