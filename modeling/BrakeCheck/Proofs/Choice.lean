import BrakeCheck.Diagram.Choice
import BrakeCheck.Proofs.Store

/-!
# A choice is the function that it describes

The operation on diagrams is followed through its stages: the answers and rewritings that need no
look at the nodes, the regular form, the split by the topmost variable.  Each of them keeps the
function of the choice; the recursion ends because the members of the two remaining choices stand
lower.

## Main definitions

* `Manager.SplitsInto` — a choice is one choice where a variable holds and another one elsewhere.

## Main statements

* `Manager.split_spec` — the split of a regular choice by its topmost variable.
* `Manager.ite_spec` — the contract of a choice; `Manager.conj_spec`, `Manager.conjAll_spec` and so
  on are those of the connectives.
-/

namespace BrakeCheck

/-! ### Stages that need no look at the nodes -/

namespace Choice

@[simp] theorem height_withRegularTest (c : Choice) : c.withRegularTest.height = c.height := by
  unfold withRegularTest
  split
  · simp only [height, Ref.height_neg]
    omega
  · rfl

@[simp] theorem height_regular (c : Choice) : c.regular.1.height = c.height := by
  rw [← height_withRegularTest c]
  unfold regular
  dsimp only
  split
  · simp only [height, Ref.height_neg]
  · rfl

/-- A choice that has to be split tests a function that is no constant. -/
theorem test_of_shortcut_split {c : Choice} (h : c.shortcut = .split) :
    c.test.index ≠ Ref.terminal := by
  obtain ⟨⟨i, negated⟩, yes, no⟩ := c
  intro hi
  subst hi
  cases negated with
  | false => simp [shortcut, Ref.one] at h
  | true => simp [shortcut, Ref.one, Ref.zero] at h

/-- The members of a regular form are members of the choice, up to complements. -/
theorem forall_regular {P : Ref → Prop} (hneg : ∀ r, P r → P (-r)) {c : Choice} (htest : P c.test)
    (hyes : P c.yes) (hno : P c.no) :
    P c.regular.1.test ∧ P c.regular.1.yes ∧ P c.regular.1.no := by
  have hregular : P c.withRegularTest.test ∧ P c.withRegularTest.yes ∧
      P c.withRegularTest.no := by
    unfold withRegularTest
    split
    · exact ⟨hneg _ htest, hno, hyes⟩
    · exact ⟨htest, hyes, hno⟩
  unfold regular
  dsimp only
  split
  · exact ⟨hregular.1, hneg _ hregular.2.1, hneg _ hregular.2.2⟩
  · exact hregular

theorem index_test_regular (c : Choice) : c.regular.1.test.index = c.test.index := by
  unfold regular withRegularTest
  dsimp only
  split <;> split <;> rfl

/-- A choice is lower if none of its members is higher and one of them is lower. -/
theorem height_lt {c d : Choice} (htest : d.test.height ≤ c.test.height)
    (hyes : d.yes.height ≤ c.yes.height) (hno : d.no.height ≤ c.no.height)
    (h : d.test.height < c.test.height ∨ d.yes.height < c.yes.height ∨
      d.no.height < c.no.height) : d.height < c.height := by
  unfold height
  omega

end Choice

namespace Manager

theorem chooses_withRegularTest (m : Manager) (a : Nat → Bool) (c : Choice) :
    m.chooses a c.withRegularTest = m.chooses a c := by
  unfold Choice.withRegularTest
  split
  · simp only [chooses, holds_neg]
    cases m.holds a c.test <;> rfl
  · rfl

/-- The regular form of a choice describes the same function, up to the complement. -/
theorem chooses_regular (m : Manager) (a : Nat → Bool) (c : Choice) :
    (c.regular.2 ^^ m.chooses a c.regular.1) = m.chooses a c := by
  rw [← chooses_withRegularTest m a c]
  unfold Choice.regular
  dsimp only
  split
  · simp only [chooses, holds_neg]
    cases m.holds a c.withRegularTest.test <;> simp
  · simp

theorem HasAll.regular {m : Manager} {c : Choice} (h : m.HasAll c) : m.HasAll c.regular.1 := by
  obtain ⟨htest, hyes, hno⟩ :=
    Choice.forall_regular (fun _ hr => has_neg.2 hr) h.test h.yes h.no
  exact ⟨htest, hyes, hno⟩

theorem AllBelow.regular {m : Manager} {v : Nat} {c : Choice} (h : m.AllBelow v c) :
    m.AllBelow v c.regular.1 := by
  obtain ⟨htest, hyes, hno⟩ :=
    Choice.forall_regular (fun _ hr => below_neg.2 hr) h.test h.yes h.no
  exact ⟨htest, hyes, hno⟩

/-- The result of the regular form, complemented if need be, is the result of the choice. -/
theorem Answers.of_regular {m : Manager} {c : Choice} {r : Ref} (h : m.Answers c.regular.1 r) :
    m.Answers c (r.flipIf c.regular.2) where
  has := has_flipIf.2 h.has
  below v hv := below_flipIf.2 (h.below v hv.regular)
  meaning a := by rw [holds_flipIf, h.meaning, chooses_regular]

/-- An answer that needs no look at the nodes is right. -/
theorem answers_of_shortcut {m : Manager} {c : Choice} {r : Ref} (hall : m.HasAll c)
    (h : c.shortcut = .answer r) : m.Answers c r := by
  obtain ⟨f, g, k⟩ := c
  obtain ⟨hf, hg, hk⟩ := hall
  unfold Choice.shortcut at h
  dsimp only at h hf hg hk
  split at h
  · next hone =>
    cases h
    refine ⟨hg, fun v hv => hv.yes, fun a => ?_⟩
    simp [chooses, hone]
  split at h
  · next hzero =>
    cases h
    refine ⟨hk, fun v hv => hv.no, fun a => ?_⟩
    simp [chooses, hzero]
  split at h
  · next hsame =>
    cases h
    refine ⟨hg, fun v hv => hv.yes, fun a => ?_⟩
    simp [chooses, hsame]
  split at h
  · next hconst =>
    cases h
    refine ⟨hf, fun v hv => hv.test, fun a => ?_⟩
    simp [chooses, hconst.1, hconst.2]
  split at h
  · next hconst =>
    cases h
    refine ⟨hf, fun v hv => hv.test, fun a => ?_⟩
    simp [chooses, hconst.1, hconst.2]
  -- the remaining cases are rewritings and the split
  repeat' split at h
  all_goals cases h

/-- A rewritten choice is made of the same functions and of constants, and describes the same
function. -/
theorem shortcut_rewrite {m : Manager} (wf : m.WellFormed) {c d : Choice} (hall : m.HasAll c)
    (h : c.shortcut = .rewrite d) :
    m.HasAll d ∧ (∀ v, m.AllBelow v c → m.AllBelow v d) ∧
      ∀ a, m.chooses a d = m.chooses a c := by
  obtain ⟨f, g, k⟩ := c
  obtain ⟨hf, hg, hk⟩ := hall
  unfold Choice.shortcut at h
  dsimp only at h hf hg hk
  -- the first five cases are answers
  iterate 5 (split at h; · cases h)
  split at h
  · next heq =>
    cases h
    refine ⟨⟨hf, wf.has_one, hk⟩, fun v hv => ⟨hv.test, below_one m v, hv.no⟩, fun a => ?_⟩
    rw [chooses, chooses, heq]
    cases m.holds a f <;> simp
  split at h
  · next heq =>
    cases h
    refine ⟨⟨hf, hg, wf.has_zero⟩, fun v hv => ⟨hv.test, hv.yes, below_zero m v⟩, fun a => ?_⟩
    rw [chooses, chooses, heq]
    cases m.holds a f <;> simp
  split at h
  · next heq =>
    cases h
    refine ⟨⟨hf, wf.has_zero, hk⟩, fun v hv => ⟨hv.test, below_zero m v, hv.no⟩, fun a => ?_⟩
    rw [chooses, chooses, heq, holds_neg]
    cases m.holds a f <;> simp
  split at h
  · next heq =>
    cases h
    refine ⟨⟨hf, hg, wf.has_one⟩, fun v hv => ⟨hv.test, hv.yes, below_one m v⟩, fun a => ?_⟩
    rw [chooses, chooses, heq, holds_neg]
    cases m.holds a f <;> simp
  · cases h

/-! ### Reading nodes -/

theorem node_eq_ok {m : Manager} {r : Ref} {n : Node} (h : m.nodes.value? r.index = some n) :
    m.node r = .ok n := HashCons.value_eq_ok h

theorem var_eq_ok {m : Manager} {r : Ref} {n : Node} (h : m.nodes.value? r.index = some n) :
    m.var r = .ok n.var := by
  rw [var, node_eq_ok h]
  rfl

theorem low_eq_ok {m : Manager} {r : Ref} {n : Node} (h : m.nodes.value? r.index = some n) :
    m.low r = .ok (n.low.flipIf r.negated) := by
  rw [low, node_eq_ok h]
  rfl

theorem high_eq_ok {m : Manager} {r : Ref} {n : Node} (h : m.nodes.value? r.index = some n) :
    m.high r = .ok (n.high.flipIf r.negated) := by
  rw [high, node_eq_ok h]
  rfl

/-- Only the node of the constants has no variable. -/
theorem WellFormed.var_eq_zero_iff {m : Manager} (wf : m.WellFormed) {i : Nat} {n : Node}
    (h : m.nodes.value? i = some n) : n.var = 0 ↔ i = Ref.terminal := by
  constructor
  · intro hvar
    by_cases hi : i = Ref.terminal
    · exact hi
    · exact absurd (wf.fits i n hi h).var_pos (by omega)
  · intro hi
    rw [hi, wf.terminal, Option.some.injEq] at h
    rw [← h]
    rfl

theorem eq_constant_iff (r : Ref) : r = .zero ∨ r = .one ↔ r.index = Ref.terminal := by
  obtain ⟨i, negated⟩ := r
  cases negated <;> simp [Ref.zero, Ref.one]

/-- The edges of a node that is not the terminal, as its cofactors. -/
theorem Fits.height_lt {m : Manager} {i : Nat} {n : Node} (h : m.Fits i n) {r : Ref}
    (hr : r.index = i) (hi : i ≠ Ref.terminal) :
    n.low.height < r.height ∧ n.high.height < r.height := by
  have hlow := h.low_lt
  have hhigh := h.high_lt
  unfold Ref.height
  constructor
  · split <;> split <;> omega
  · split <;> split <;> omega

/-! ### Cofactors -/

/-- The references `low` and `high` are the functions that `r` is where the variable `v` is false
and where it is true; both stand below `v`. -/
structure Cofactors (m : Manager) (v : Nat) (r low high : Ref) : Prop where
  branch : m.CanBranch v low high
  height_low : low.height ≤ r.height
  height_high : high.height ≤ r.height
  meaning : ∀ a, m.holds a r = bif a v then m.holds a high else m.holds a low

/-- A reference that stands below a variable is both of its own cofactors. -/
theorem Cofactors.self {m : Manager} {v : Nat} {r : Ref} (hv : 0 < v) (hr : m.Has r)
    (hbelow : m.Below v r) : m.Cofactors v r r r :=
  ⟨⟨hv, hr, hr, hbelow, hbelow⟩, Nat.le_refl _, Nat.le_refl _, fun _ => (Bool.cond_self _ _).symm⟩

/-- The two edges of a reference are its cofactors by its own variable. -/
theorem Cofactors.edges {m : Manager} (wf : m.WellFormed) {r : Ref} {n : Node}
    (hr : r.index ≠ Ref.terminal) (hn : m.nodes.value? r.index = some n) :
    m.Cofactors n.var r (n.low.flipIf r.negated) (n.high.flipIf r.negated) ∧
      (n.low.flipIf r.negated).height < r.height ∧
      (n.high.flipIf r.negated).height < r.height := by
  have hfits := wf.fits _ n hr hn
  have hle := (HashCons.isSome_value?_iff.1 (Option.isSome_of_eq_some hn)).2
  have height_flipIf : ∀ s : Ref, (s.flipIf r.negated).height = s.height := by
    intro s
    cases r.negated <;> rfl
  obtain ⟨hlow, hhigh⟩ := hfits.height_lt rfl hr
  rw [← height_flipIf] at hlow hhigh
  refine ⟨⟨⟨hfits.var_pos, ?_, ?_, ?_, ?_⟩, Nat.le_of_lt hlow, Nat.le_of_lt hhigh, fun a => ?_⟩,
    hlow, hhigh⟩
  · exact has_flipIf.2 (hfits.has_low (Nat.le_succ_of_le hle))
  · exact has_flipIf.2 (hfits.has_high (Nat.le_succ_of_le hle))
  · exact below_flipIf.2 hfits.var_lt_low
  · exact below_flipIf.2 hfits.var_lt_high
  · have hnode := holds_node hr hn hfits.low_lt hfits.high_lt a r.negated
    rw [holds_flipIf, holds_flipIf]
    refine hnode.trans ?_
    cases a n.var <;> rfl

/-- The two edges of a reference differ. -/
theorem edges_ne {m : Manager} (wf : m.WellFormed) {r : Ref} {n : Node}
    (hr : r.index ≠ Ref.terminal) (hn : m.nodes.value? r.index = some n) :
    n.low.flipIf r.negated ≠ n.high.flipIf r.negated :=
  fun h => (wf.fits _ n hr hn).low_ne_high (Ref.flipIf_inj.1 h)

/-- The cofactors of a reference by a variable that does not stand below its own. -/
theorem cofactors_spec {m : Manager} (wf : m.WellFormed) {v : Nat} (hv : 0 < v) {r : Ref}
    {n : Node} (hn : m.nodes.value? r.index = some n)
    (htop : r.index ≠ Ref.terminal → v ≤ n.var) :
    ∃ low high, m.cofactors r v = .ok (low, high) ∧ m.Cofactors v r low high ∧
      (n.var = v → low.height < r.height ∧ high.height < r.height) := by
  have hr : m.Has r := Option.isSome_of_eq_some hn
  have hne : v ≠ 0 := by omega
  by_cases hterminal : r.index = Ref.terminal
  · have hbelow : m.Below v r := fun _ h => absurd hterminal h
    refine ⟨r, r, ?_, Cofactors.self hv hr hbelow, fun hvar => ?_⟩
    · simp [cofactors, hne, (eq_constant_iff r).2 hterminal, pure, Except.pure]
    · exact absurd ((wf.var_eq_zero_iff hn).2 hterminal) (by omega)
  · have hconst : ¬(r = .zero ∨ r = .one) := fun h => hterminal ((eq_constant_iff r).1 h)
    rcases Nat.lt_or_eq_of_le (htop hterminal) with hlt | heq
    · have hbelow : m.Below v r := by
        intro d _ hd
        rw [hn, Option.some.injEq] at hd
        rw [← hd]
        exact hlt
      refine ⟨r, r, ?_, Cofactors.self hv hr hbelow, fun hvar => absurd hvar (by omega)⟩
      simp [cofactors, hne, hconst, var_eq_ok hn, hlt, bind, Except.bind, pure, Except.pure]
    · subst heq
      obtain ⟨hcofactors, hlow, hhigh⟩ := Cofactors.edges wf hterminal hn
      refine ⟨_, _, ?_, hcofactors, fun _ => ⟨hlow, hhigh⟩⟩
      simp [cofactors, hne, hconst, var_eq_ok hn, low_eq_ok hn, high_eq_ok hn, bind, Except.bind,
        pure, Except.pure]

/-! ### Splitting a choice -/

/-- A choice is the choice `no` where the variable `v` is false and the choice `yes` where it is
true; both stand below `v`, and lower than the choice. -/
structure SplitsInto (m : Manager) (c : Choice) (v : Nat) (no yes : Choice) : Prop where
  var_pos : 0 < v
  above : ∀ u, m.AllBelow u c → u < v
  has_no : m.HasAll no
  has_yes : m.HasAll yes
  below_no : m.AllBelow v no
  below_yes : m.AllBelow v yes
  height_no : no.height < c.height
  height_yes : yes.height < c.height
  meaning : ∀ a, m.chooses a c = bif a v then m.chooses a yes else m.chooses a no

/-- The topmost variable of a choice is the least one of its members. -/
theorem topVar_spec {m : Manager} {c : Choice} {f g k : Node}
    (hf : m.nodes.value? c.test.index = some f) (hg : m.nodes.value? c.yes.index = some g)
    (hk : m.nodes.value? c.no.index = some k) (hpos : 0 < f.var) :
    ∃ v, m.topVar c = .ok v ∧ 0 < v ∧ v ≤ f.var ∧ (g.var ≠ 0 → v ≤ g.var) ∧
      (k.var ≠ 0 → v ≤ k.var) ∧ (v = f.var ∨ v = g.var ∨ v = k.var) := by
  have hne : f.var ≠ 0 := by omega
  have htop : m.topVar c = .ok (if k.var = 0 then (if g.var = 0 then f.var else min f.var g.var)
      else min (if g.var = 0 then f.var else min f.var g.var) k.var) := by
    simp [topVar, var_eq_ok hf, var_eq_ok hg, var_eq_ok hk, hne, bind, Except.bind, pure,
      Except.pure]
  refine ⟨_, htop, ?_⟩
  split <;> split <;> omega

/-- The split of a choice whose test is no constant, by its topmost variable. -/
theorem split_spec {m : Manager} (wf : m.WellFormed) {c : Choice} (hall : m.HasAll c)
    (htest : c.test.index ≠ Ref.terminal) :
    ∃ v no yes, m.split c = .ok (v, no, yes) ∧ m.SplitsInto c v no yes := by
  obtain ⟨f, hf⟩ := Option.isSome_iff_exists.1 hall.test
  obtain ⟨g, hg⟩ := Option.isSome_iff_exists.1 hall.yes
  obtain ⟨k, hk⟩ := Option.isSome_iff_exists.1 hall.no
  have hpos := (wf.fits _ f htest hf).var_pos
  obtain ⟨v, htop, hv, hvf, hvg, hvk, hsome⟩ := topVar_spec hf hg hk hpos
  obtain ⟨f0, f1, hcf, cf, lf⟩ := cofactors_spec wf hv hf fun _ => hvf
  obtain ⟨g0, g1, hcg, cg, lg⟩ := cofactors_spec wf hv hg fun h =>
    hvg fun hzero => h ((wf.var_eq_zero_iff hg).1 hzero)
  obtain ⟨k0, k1, hck, ck, lk⟩ := cofactors_spec wf hv hk fun h =>
    hvk fun hzero => h ((wf.var_eq_zero_iff hk).1 hzero)
  refine ⟨v, ⟨f0, g0, k0⟩, ⟨f1, g1, k1⟩, ?_, {
    var_pos := hv
    above := ?_
    has_no := ⟨cf.branch.has_low, cg.branch.has_low, ck.branch.has_low⟩
    has_yes := ⟨cf.branch.has_high, cg.branch.has_high, ck.branch.has_high⟩
    below_no := ⟨cf.branch.below_low, cg.branch.below_low, ck.branch.below_low⟩
    below_yes := ⟨cf.branch.below_high, cg.branch.below_high, ck.branch.below_high⟩
    height_no := ?_
    height_yes := ?_
    meaning := ?_ }⟩
  · simp [split, htop, hcf, hcg, hck, bind, Except.bind, pure, Except.pure]
  · -- the topmost variable is that of some member
    intro u hu
    rcases hsome with rfl | rfl | rfl
    · exact hu.test f htest hf
    · exact hu.yes g (fun h => absurd ((wf.var_eq_zero_iff hg).2 h) (by omega)) hg
    · exact hu.no k (fun h => absurd ((wf.var_eq_zero_iff hk).2 h) (by omega)) hk
  · refine Choice.height_lt cf.height_low cg.height_low ck.height_low ?_
    rcases hsome with h | h | h
    · exact Or.inl (lf h.symm).1
    · exact Or.inr (Or.inl (lg h.symm).1)
    · exact Or.inr (Or.inr (lk h.symm).1)
  · refine Choice.height_lt cf.height_high cg.height_high ck.height_high ?_
    rcases hsome with h | h | h
    · exact Or.inl (lf h.symm).2
    · exact Or.inr (Or.inl (lg h.symm).2)
    · exact Or.inr (Or.inr (lk h.symm).2)
  · intro a
    rw [chooses, chooses, chooses, cf.meaning, cg.meaning, ck.meaning]
    cases a v <;> rfl

/-! ### Computed results -/

theorem known_grows (c : Choice) : Step.Grows (known c) := fun m => Extends.refl m

theorem remember_grows (c : Choice) (r : Ref) : Step.Grows (remember c r) :=
  fun m => Extends.refl m

/-- A result that is found is right. -/
theorem known_spec {m : Manager} (wf : m.WellFormed) (c : Choice) :
    ∃ found t, (known c).perform m = (.ok found, t) ∧ t.WellFormed ∧ t.nodes = m.nodes ∧
      ∀ r, found = some r → t.Answers c r := by
  let t : Manager := { m with computed := (m.computed.lookup c).2 }
  refine ⟨(m.computed.lookup c).1, t, rfl, wf.congr rfl ?_ fun d s hs => ?_, rfl, fun r hr => ?_⟩
  · rw [ComputedTable.slots_lookup]
    exact wf.slots_pos
  · exact wf.computed d s ((ComputedTable.find?_lookup _ _ _).symm.trans hs)
  · rw [ComputedTable.fst_lookup] at hr
    exact Answers.congr (m := m) (n := t) rfl (wf.computed c r hr).2

/-- A result that is right may be kept. -/
theorem remember_spec {m : Manager} (wf : m.WellFormed) {c : Choice} (hall : m.HasAll c) {r : Ref}
    (h : m.Answers c r) :
    ∃ t, (remember c r).perform m = (.ok (), t) ∧ t.WellFormed ∧ t.nodes = m.nodes := by
  refine ⟨{ m with computed := m.computed.insert c r }, rfl, wf.congr rfl ?_ fun d s hs => ?_, rfl⟩
  · rw [ComputedTable.size_slots_insert]
    exact wf.slots_pos
  · rcases ComputedTable.find?_of_insert wf.slots_pos hs with ⟨rfl, rfl⟩ | hold
    · exact ⟨hall, h⟩
    · exact wf.computed d s hold

/-! ### The stages of a choice -/

/-- A choice that is answered at once. -/
theorem ite_of_answer {c : Choice} {r : Ref} (h : c.shortcut = .answer r) :
    ite c = (do note .debug .diagram c.render; return r) := by
  rw [ite]
  split
  · next hr =>
    rw [h] at hr
    cases hr
    rfl
  · next hr => rw [h] at hr; cases hr
  · next hr => rw [h] at hr; cases hr

/-- A choice that is rewritten. -/
theorem ite_of_rewrite {c d : Choice} (h : c.shortcut = .rewrite d) :
    ite c = (do note .debug .diagram c.render; ite d) := by
  rw [ite]
  split
  · next hr => rw [h] at hr; cases hr
  · next hr =>
    rw [h] at hr
    cases hr
    rfl
  · next hr => rw [h] at hr; cases hr

/-- A choice that has to be split, as far as its result is not known. -/
def iteSplit (c : Choice) : Step Manager Ref := do
  let (v, no, yes) ← Step.query (·.split c.regular.1)
  if no.height < c.height ∧ yes.height < c.height then
    let low ← ite no
    let high ← ite yes
    let r ← mkNode v low high
    note .debug .diagram s!"computed: {c.regular.1.render} -> {r}"
    remember c.regular.1 r
    return r.flipIf c.regular.2
  else throw .childNotOlder

theorem ite_of_split {c : Choice} (h : c.shortcut = .split) :
    ite c = (do
      note .debug .diagram c.render
      match ← known c.regular.1 with
      | some r =>
        note .debug .diagram s!"cache: {c.regular.1.render} -> {r}"
        return r.flipIf c.regular.2
      | none => iteSplit c) := by
  rw [ite]
  split
  · next hr => rw [h] at hr; cases hr
  · next hr => rw [h] at hr; cases hr
  · rfl

/-! ### The choice -/

/-- A choice loses nothing of any store. -/
theorem ite_grows (c : Choice) : Step.Grows (ite c) := by
  induction hk : c.height using Nat.strongRecOn generalizing c with
  | _ k ih =>
    subst hk
    rw [ite]
    refine (note_grows _ _ _).bind fun _ => ?_
    split
    · exact Step.Grows.pure _
    · next d hd => exact ih d.height (Choice.height_lt_of_shortcut hd) d rfl
    · refine (known_grows _).bind fun found => ?_
      cases found with
      | some r => exact (note_grows _ _ _).bind fun _ => Step.Grows.pure _
      | none =>
        refine (Step.Grows.query _).bind fun choices => ?_
        obtain ⟨v, no, yes⟩ := choices
        dsimp only
        split
        · next hlt =>
          refine (ih _ hlt.1 no rfl).bind fun low => (ih _ hlt.2 yes rfl).bind fun high => ?_
          exact (mkNode_grows _ _ _).bind fun _ => (note_grows _ _ _).bind fun _ =>
            (remember_grows _ _).bind fun _ => Step.Grows.pure _
        · exact Step.Grows.throw _

/-- The node that joins the results of the two remaining choices is the result of the choice. -/
theorem SplitsInto.answers {m t : Manager} (wf : m.WellFormed) (hext : t.Extends m) {c : Choice}
    (hall : m.HasAll c) {v : Nat} {no yes : Choice} (h : m.SplitsInto c v no yes)
    {low high r : Ref} (hlow : t.Answers no low) (hhigh : t.Answers yes high)
    (hr : t.Joins v low high r) : t.Answers c r where
  has := hr.has
  below u hu := hr.below u (h.above u ((allBelow_iff_of_extends hext hall u).1 hu))
  meaning a := by
    rw [hr.meaning, hlow.meaning, hhigh.meaning, chooses_of_extends wf hext h.has_no,
      chooses_of_extends wf hext h.has_yes, chooses_of_extends wf hext hall, h.meaning]

/-- The results of the two remaining choices stand below the variable, so that a node can join
them. -/
theorem SplitsInto.canBranch {m t : Manager} (hext : t.Extends m) {c : Choice} {v : Nat}
    {no yes : Choice} (h : m.SplitsInto c v no yes) {low high : Ref} (hlow : t.Answers no low)
    (hhigh : t.Answers yes high) : t.CanBranch v low high where
  var_pos := h.var_pos
  has_low := hlow.has
  has_high := hhigh.has
  below_low := hlow.below v ((allBelow_iff_of_extends hext h.has_no v).2 h.below_no)
  below_high := hhigh.below v ((allBelow_iff_of_extends hext h.has_yes v).2 h.below_yes)

/-- The contract of a choice whose result is not known, from the contracts of the remaining
choices. -/
theorem iteSplit_spec {m : Manager} (wf : m.WellFormed) {c : Choice} (hall : m.HasAll c)
    (hsplit : c.shortcut = .split)
    (ih : ∀ d : Choice, d.height < c.height → ∀ t : Manager, t.WellFormed → t.HasAll d →
      Step.Yields (ite d) t fun r u => u.WellFormed ∧ u.Answers d r) :
    Step.Yields (iteSplit c) m fun r t => t.WellFormed ∧ t.Answers c r := by
  have htest : c.regular.1.test.index ≠ Ref.terminal := by
    rw [Choice.index_test_regular]
    exact Choice.test_of_shortcut_split hsplit
  obtain ⟨v, no, yes, hquery, hinto⟩ := split_spec wf hall.regular htest
  refine Step.Yields.after_query hquery ?_
  have hno : no.height < c.height := Choice.height_regular c ▸ hinto.height_no
  have hyes : yes.height < c.height := Choice.height_regular c ▸ hinto.height_yes
  dsimp only
  rw [if_pos ⟨hno, hyes⟩]
  -- first the function where the variable is false, then the one where it is true
  refine (ih no hno m wf hinto.has_no).bind (fun low => ?_) fun low m1 hext1 h1 => ?_
  · exact (ite_grows _).bind fun _ => (mkNode_grows _ _ _).bind fun _ =>
      (note_grows _ _ _).bind fun _ => (remember_grows _ _).bind fun _ => Step.Grows.pure _
  obtain ⟨wf1, hlow⟩ := h1
  have hno1 := hinto.has_no.mono hext1
  have hyes1 := hinto.has_yes.mono hext1
  refine (ih yes hyes m1 wf1 hyes1).bind (fun high => ?_) fun high m2 hext2 h2 => ?_
  · exact (mkNode_grows _ _ _).bind fun _ => (note_grows _ _ _).bind fun _ =>
      (remember_grows _ _).bind fun _ => Step.Grows.pure _
  obtain ⟨wf2, hhigh⟩ := h2
  have hext := Extends.trans hext2 hext1
  have hlow2 : m2.Answers no low := hlow.mono wf1 hext2 hno1
  have hbranch := hinto.canBranch hext hlow2 hhigh
  refine (mkNode_spec wf2 hbranch).bind (fun _ => ?_) fun r m3 hext3 h3 => ?_
  · exact (note_grows _ _ _).bind fun _ => (remember_grows _ _).bind fun _ => Step.Grows.pure _
  obtain ⟨wf3, hjoins⟩ := h3
  have hextm := Extends.trans hext3 hext
  have hanswers : m3.Answers c.regular.1 r :=
    hinto.answers wf hextm hall.regular (hlow2.mono wf2 hext3 (hno1.mono hext2))
      (hhigh.mono wf2 hext3 (hyes1.mono hext2)) hjoins
  -- the node is the result for the regular form, for which it is kept
  refine note_spec wf3 _ _ _ fun m4 wf4 hnodes4 => ?_
  obtain ⟨m5, hremember, wf5, hnodes5⟩ :=
    remember_spec wf4 ((hall.regular.mono hextm).congr hnodes4) (hanswers.congr hnodes4)
  refine Step.Yields.after hremember (extends_of_nodes_eq hnodes5) (Step.Yields.pure ⟨wf5, ?_⟩)
  exact ((hanswers.congr hnodes4).congr hnodes5).of_regular

/-- The contract of a choice: in a well-formed store it always has a result, which is the function
that it describes. -/
theorem ite_spec {m : Manager} (wf : m.WellFormed) {c : Choice} (hall : m.HasAll c) :
    Step.Yields (ite c) m fun r t => t.WellFormed ∧ t.Answers c r := by
  induction hk : c.height using Nat.strongRecOn generalizing c m with
  | _ k ih =>
    subst hk
    cases hshortcut : c.shortcut with
    | answer r =>
      rw [ite_of_answer hshortcut]
      exact note_spec wf _ _ _ fun t wft hnodes =>
        Step.Yields.pure ⟨wft, answers_of_shortcut (hall.congr hnodes) hshortcut⟩
    | rewrite d =>
      rw [ite_of_rewrite hshortcut]
      refine note_spec wf _ _ _ fun t wft hnodes => ?_
      replace hall := hall.congr hnodes
      obtain ⟨halld, hbelow, hmeaning⟩ := shortcut_rewrite wft hall hshortcut
      refine (ih d.height (Choice.height_lt_of_shortcut hshortcut) wft halld rfl).imp
        fun r u hu h => ?_
      obtain ⟨wfu, hanswers⟩ := h
      refine ⟨wfu, hanswers.has, fun v hv => ?_, fun a => ?_⟩
      · refine hanswers.below v ((allBelow_iff_of_extends hu halld v).2 (hbelow v ?_))
        exact (allBelow_iff_of_extends hu hall v).1 hv
      · rw [hanswers.meaning, chooses_of_extends wft hu halld, hmeaning,
          chooses_of_extends wft hu hall]
    | split =>
      rw [ite_of_split hshortcut]
      refine note_spec wf _ _ _ fun t wft hnodes => ?_
      -- the result is known, or it is computed from the two remaining choices
      obtain ⟨found, u, hknown, wfu, hnodes', hfound⟩ := known_spec wft c.regular.1
      refine Step.Yields.after hknown (extends_of_nodes_eq hnodes') ?_
      cases found with
      | some r =>
        refine note_spec wfu _ _ _ fun t wft hnodes => Step.Yields.pure ⟨wft, ?_⟩
        exact ((hfound r rfl).congr hnodes).of_regular
      | none =>
        exact iteSplit_spec wfu ((hall.congr hnodes).congr hnodes') hshortcut
          fun d hd t wft halld => ih d.height hd wft halld rfl

/-! ### Connectives -/

theorem conj_grows (a b : Ref) : Step.Grows (conj a b) := ite_grows _

theorem disj_grows (a b : Ref) : Step.Grows (disj a b) := ite_grows _

theorem imp_grows (a b : Ref) : Step.Grows (imp a b) := ite_grows _

/-- The reference `r` is stored, and stands for the function `f` of the variables. -/
structure Denotes (m : Manager) (r : Ref) (f : (Nat → Bool) → Bool) : Prop where
  has : m.Has r
  meaning : ∀ x, m.holds x r = f x

variable {m : Manager} {a b c : Ref}

/-- What a reference stands for lasts. -/
theorem Denotes.mono {old : Manager} (wf : old.WellFormed) (hext : m.Extends old) {r : Ref}
    {f : (Nat → Bool) → Bool} (h : old.Denotes r f) : m.Denotes r f :=
  ⟨h.has.mono hext, fun x => by rw [holds_of_extends wf hext x h.has, h.meaning]⟩

/-- A choice of three functions, in terms of the store in which it was made. -/
theorem ite_denotes (wf : m.WellFormed) (hc : m.Has c) (ha : m.Has a) (hb : m.Has b) :
    Step.Yields (ite ⟨c, a, b⟩) m fun r t => t.WellFormed ∧
      t.Denotes r fun x => bif m.holds x c then m.holds x a else m.holds x b := by
  have hall : m.HasAll ⟨c, a, b⟩ := ⟨hc, ha, hb⟩
  refine (ite_spec wf hall).imp fun r t hext ⟨wft, hr⟩ => ⟨wft, hr.has, fun x => ?_⟩
  rw [hr.meaning, chooses_of_extends wf hext hall, chooses]

theorem conj_spec (wf : m.WellFormed) (ha : m.Has a) (hb : m.Has b) :
    Step.Yields (conj a b) m fun r t => t.WellFormed ∧
      t.Denotes r fun x => m.holds x a && m.holds x b := by
  refine (ite_denotes wf ha hb wf.has_zero).imp fun r t _ ⟨wft, hr⟩ =>
    ⟨wft, hr.has, fun x => ?_⟩
  rw [hr.meaning, holds_zero]
  cases m.holds x a <;> rfl

theorem disj_spec (wf : m.WellFormed) (ha : m.Has a) (hb : m.Has b) :
    Step.Yields (disj a b) m fun r t => t.WellFormed ∧
      t.Denotes r fun x => m.holds x a || m.holds x b := by
  refine (ite_denotes wf ha wf.has_one hb).imp fun r t _ ⟨wft, hr⟩ => ⟨wft, hr.has, fun x => ?_⟩
  rw [hr.meaning, holds_one]
  cases m.holds x a <;> rfl

theorem imp_spec (wf : m.WellFormed) (ha : m.Has a) (hb : m.Has b) :
    Step.Yields (imp a b) m fun r t => t.WellFormed ∧
      t.Denotes r fun x => !m.holds x a || m.holds x b := by
  refine (ite_denotes wf ha hb wf.has_one).imp fun r t _ ⟨wft, hr⟩ => ⟨wft, hr.has, fun x => ?_⟩
  rw [hr.meaning, holds_one]
  cases m.holds x a <;> rfl

/-! ### Connectives of lists -/

theorem conjFrom_grows (rs : List Ref) : ∀ acc, Step.Grows (conjFrom acc rs) := by
  induction rs with
  | nil => exact fun acc => Step.Grows.pure acc
  | cons r rs ih =>
    intro acc
    exact (conj_grows _ _).bind fun acc => Step.Grows.ite (Step.Grows.pure _) (ih acc)

theorem disjFrom_grows (rs : List Ref) : ∀ acc, Step.Grows (disjFrom acc rs) := by
  induction rs with
  | nil => exact fun acc => Step.Grows.pure acc
  | cons r rs ih =>
    intro acc
    exact (disj_grows _ _).bind fun acc => Step.Grows.ite (Step.Grows.pure _) (ih acc)

/-- References keep their values in a store with more nodes, also as a list. -/
theorem map_holds_of_extends {t : Manager} (wf : m.WellFormed) (hext : t.Extends m)
    {rs : List Ref} (hrs : ∀ r ∈ rs, m.Has r) (x : Nat → Bool) :
    rs.map (t.holds x) = rs.map (m.holds x) :=
  List.map_congr_left fun r hr => holds_of_extends wf hext x (hrs r hr)

/-- Once the conjunction is false everywhere, the members that are left make no difference. -/
theorem conjFrom_spec (wf : m.WellFormed) (ha : m.Has a) {rs : List Ref}
    (hrs : ∀ r ∈ rs, m.Has r) :
    Step.Yields (conjFrom a rs) m fun r t => t.WellFormed ∧
      t.Denotes r fun x => m.holds x a && rs.all fun r => m.holds x r := by
  induction rs generalizing m a with
  | nil => exact Step.Yields.pure ⟨wf, ha, fun x => by simp⟩
  | cons r rs ih =>
    refine (conj_spec wf ha (hrs r List.mem_cons_self)).bind
      (fun acc => Step.Grows.ite (Step.Grows.pure _) (conjFrom_grows rs acc))
      fun acc t hext ⟨wft, hacc⟩ => ?_
    have hrest : ∀ s ∈ rs, m.Has s := fun s hs => hrs s (List.mem_cons_of_mem r hs)
    have hmeaning : ∀ x, t.holds x acc = (m.holds x a && m.holds x r) := hacc.meaning
    split
    · next hzero =>
      refine Step.Yields.pure ⟨wft, hacc.has, fun x => ?_⟩
      have hx := hmeaning x
      rw [hzero, holds_zero] at hx
      rw [hzero, holds_zero, List.all_cons, ← Bool.and_assoc, ← hx, Bool.false_and]
    · refine (ih wft hacc.has fun s hs => (hrest s hs).mono hext).imp
        fun q u _ ⟨wfu, hq⟩ => ⟨wfu, hq.has, fun x => ?_⟩
      have hall := congrArg (List.all · id) (map_holds_of_extends wf hext hrest x)
      simp only [List.all_map, Function.comp_def, id] at hall
      rw [hq.meaning, hmeaning, hall, List.all_cons, Bool.and_assoc]

/-- Once the disjunction is true everywhere, the members that are left make no difference. -/
theorem disjFrom_spec (wf : m.WellFormed) (ha : m.Has a) {rs : List Ref}
    (hrs : ∀ r ∈ rs, m.Has r) :
    Step.Yields (disjFrom a rs) m fun r t => t.WellFormed ∧
      t.Denotes r fun x => m.holds x a || rs.any fun r => m.holds x r := by
  induction rs generalizing m a with
  | nil => exact Step.Yields.pure ⟨wf, ha, fun x => by simp⟩
  | cons r rs ih =>
    refine (disj_spec wf ha (hrs r List.mem_cons_self)).bind
      (fun acc => Step.Grows.ite (Step.Grows.pure _) (disjFrom_grows rs acc))
      fun acc t hext ⟨wft, hacc⟩ => ?_
    have hrest : ∀ s ∈ rs, m.Has s := fun s hs => hrs s (List.mem_cons_of_mem r hs)
    have hmeaning : ∀ x, t.holds x acc = (m.holds x a || m.holds x r) := hacc.meaning
    split
    · next hone =>
      refine Step.Yields.pure ⟨wft, hacc.has, fun x => ?_⟩
      have hx := hmeaning x
      rw [hone, holds_one] at hx
      rw [hone, holds_one, List.any_cons, ← Bool.or_assoc, ← hx, Bool.true_or]
    · refine (ih wft hacc.has fun s hs => (hrest s hs).mono hext).imp
        fun q u _ ⟨wfu, hq⟩ => ⟨wfu, hq.has, fun x => ?_⟩
      have hany := congrArg (List.any · id) (map_holds_of_extends wf hext hrest x)
      simp only [List.any_map, Function.comp_def, id] at hany
      rw [hq.meaning, hmeaning, hany, List.any_cons, Bool.or_assoc]

theorem conjAll_spec (wf : m.WellFormed) {rs : List Ref} (hrs : ∀ r ∈ rs, m.Has r) :
    Step.Yields (conjAll rs) m fun r t => t.WellFormed ∧
      t.Denotes r fun x => rs.all fun r => m.holds x r := by
  refine (conjFrom_spec wf wf.has_one hrs).imp fun r t _ ⟨wft, hr⟩ => ⟨wft, hr.has, fun x => ?_⟩
  rw [hr.meaning, holds_one, Bool.true_and]

theorem disjAll_spec (wf : m.WellFormed) {rs : List Ref} (hrs : ∀ r ∈ rs, m.Has r) :
    Step.Yields (disjAll rs) m fun r t => t.WellFormed ∧
      t.Denotes r fun x => rs.any fun r => m.holds x r := by
  refine (disjFrom_spec wf wf.has_zero hrs).imp fun r t _ ⟨wft, hr⟩ => ⟨wft, hr.has, fun x => ?_⟩
  rw [hr.meaning, holds_zero, Bool.false_or]

end Manager

end BrakeCheck
