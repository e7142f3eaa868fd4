import BrakeCheck.Diagram.Cube
import BrakeCheck.Proofs.Choice

/-!
# Paths and cubes

A path from a reference to the constant true gives values to the variables on the way, and those
of the other variables make no difference any more.  The cube of a path is the function that is
true exactly where the path is followed, so that blocking a path takes these assignments away from
a function and no other ones.

## Main definitions

* `Literal.holds`, `Literal.allHold` — what literals say of the values of the variables.
* `Manager.Narrow` — all variables of a store fit the literals.
* `Manager.LeadsToOne` — the literals of a path: their variables grow, and where they hold, so does
  the function.
* `Manager.Follows` — the way that a path takes through the nodes.

## Main statements

* `Manager.path_spec` — every function but the constant false has a path.
* `Manager.mkCube_spec`, `Manager.block_spec` — the contracts of cubes and of blocking a path.
-/

namespace BrakeCheck

/-! ### Literals -/

namespace Literal

/-- Whether the variable of a literal has the value that the literal asks for. -/
def holds (l : Literal) (a : Nat → Bool) : Bool := a l.var == l.isPositive

/-- The number of variables that the literals can tell apart. -/
def varRange : Nat := 1 <<< 31

/-- Whether literals hold all together. -/
def allHold (ls : List Literal) (a : Nat → Bool) : Bool := ls.all (·.holds a)

@[simp] theorem allHold_nil (a : Nat → Bool) : allHold [] a = true := rfl

@[simp] theorem allHold_cons (l : Literal) (ls : List Literal) (a : Nat → Bool) :
    allHold (l :: ls) a = (l.holds a && allHold ls a) := rfl

/-- Literals look at their own variables alone. -/
theorem allHold_congr {ls : List Literal} {a b : Nat → Bool} (h : ∀ l ∈ ls, a l.var = b l.var) :
    allHold ls a = allHold ls b := by
  unfold allHold
  rw [Bool.eq_iff_iff, List.all_eq_true, List.all_eq_true]
  exact forall₂_congr fun l hl => by rw [holds, holds, h l hl]

/-- Whether literals hold all together does not depend on their order. -/
theorem allHold_perm {ls ks : List Literal} (h : ks.Perm ls) (a : Nat → Bool) :
    allHold ks a = allHold ls a := h.all_eq

/-- A variable that is neither the terminal's nor too large has both its literals. -/
theorem create_eq_ok {v : Nat} (hpos : 0 < v) (hlt : v < varRange) (positive : Bool) :
    ∃ l, create v positive = .ok l ∧ l.var = v ∧ l.isPositive = positive := by
  have hne : v ≠ 0 := by omega
  have hrange : varRange = 2147483648 := by decide
  have hcode : (pos v).code = v := by
    have hword : (1 <<< 32 : Nat) = 4294967296 := by decide
    unfold pos ofCode
    dsimp only
    rw [hword, Int.bmod_eq_of_le_mul_two]
    · omega
    · omega
  cases positive with
  | true =>
    refine ⟨pos v, by simp [create, hne], ?_, ?_⟩
    · rw [var, hcode, Int.natAbs_natCast]
    · simpa [isPositive, hcode] using hpos
  | false =>
    have hleast : (pos v).code ≠ leastCode := by
      rw [hcode, leastCode]
      omega
    refine ⟨⟨-(pos v).code⟩, by simp [create, hne, neg, complement, hleast], ?_, ?_⟩
    · rw [var, hcode, Int.natAbs_neg, Int.natAbs_natCast]
    · simp only [isPositive, hcode, decide_eq_false_iff_not]
      omega

/-- A literal is its variable and its sign. -/
theorem eq_of_var_eq {l k : Literal} (hvar : l.var = k.var)
    (hsign : l.isPositive = k.isPositive) : l = k := by
  obtain ⟨code⟩ := l
  obtain ⟨code'⟩ := k
  simp only [isPositive, decide_eq_decide] at hsign
  simp only [var] at hvar
  rw [mk.injEq]
  omega

/-- A literal is made again from its parts. -/
theorem create_var (l : Literal) (hpos : 0 < l.var) (hlt : l.var < varRange) :
    create l.var l.isPositive = .ok l := by
  obtain ⟨k, hk, hvar, hsign⟩ := create_eq_ok hpos hlt l.isPositive
  rw [hk, eq_of_var_eq hvar hsign]

end Literal

namespace Manager

/-! ### Paths -/

/-- All variables of a store fit the literals. -/
def Narrow (m : Manager) : Prop := ∀ i n, m.nodes.value? i = some n → n.var < Literal.varRange

/-- The literals of a path: their variables are positive and grow on the way, nodes of the store
branch on them, and the function holds wherever they do. -/
structure LeadsToOne (m : Manager) (r : Ref) (ls : List Literal) : Prop where
  ascending : ls.Pairwise fun l k => l.var < k.var
  branched : ∀ l ∈ ls, ∃ i n, i ≠ Ref.terminal ∧ m.nodes.value? i = some n ∧ n.var = l.var
  sound : ∀ a, Literal.allHold ls a → m.holds a r = true

/-- A path remains one when the store grows. -/
theorem LeadsToOne.mono {m old : Manager} (wf : old.WellFormed) (hext : m.Extends old) {r : Ref}
    (hr : old.Has r) {ls : List Literal} (h : old.LeadsToOne r ls) : m.LeadsToOne r ls where
  ascending := h.ascending
  branched l hl :=
    let ⟨i, n, hi, hn, hvar⟩ := h.branched l hl
    ⟨i, n, hi, hext i n hn, hvar⟩
  sound a ha := by
    rw [holds_of_extends wf hext a hr]
    exact h.sound a ha

/-- The variables of a path are those of nodes. -/
theorem LeadsToOne.var_pos {m : Manager} (wf : m.WellFormed) {r : Ref} {ls : List Literal}
    (h : m.LeadsToOne r ls) : ∀ l ∈ ls, 0 < l.var := by
  intro l hl
  obtain ⟨i, n, hi, hn, hvar⟩ := h.branched l hl
  rw [← hvar]
  exact (wf.fits i n hi hn).var_pos

/-- A path from the end of an edge, with the literal of the edge before it, is one from the node. -/
theorem LeadsToOne.cons {m : Manager} {r next : Ref} {n : Node} (hterminal : r.index ≠ Ref.terminal)
    (hn : m.nodes.value? r.index = some n) {l : Literal} {ls : List Literal} (hvar : l.var = n.var)
    (h : m.LeadsToOne next ls) (habove : ∀ k ∈ ls, n.var < k.var)
    (hedge : ∀ a, a n.var = l.isPositive → m.holds a r = m.holds a next) :
    m.LeadsToOne r (l :: ls) where
  ascending := by
    refine List.pairwise_cons.2 ⟨fun k hk => ?_, h.ascending⟩
    rw [hvar]
    exact habove k hk
  branched k hk := by
    rcases List.mem_cons.1 hk with rfl | hk
    · exact ⟨r.index, n, hterminal, hn, hvar.symm⟩
    · exact h.branched k hk
  sound a ha := by
    simp only [Literal.allHold_cons, Bool.and_eq_true] at ha
    have hown : a n.var = l.isPositive := by
      have hl := ha.1
      rw [Literal.holds, hvar, beq_iff_eq] at hl
      exact hl
    rw [hedge a hown]
    exact h.sound a ha.2

/-- The edge that a path takes from a node, the high one unless that is the constant false, is not
the constant false itself, since the two edges differ. -/
theorem taken_edge {m : Manager} (wf : m.WellFormed) {r next : Ref} {n : Node} {positive : Bool}
    (hterminal : r.index ≠ Ref.terminal) (hn : m.nodes.value? r.index = some n)
    (hpositive : positive = decide (n.high.flipIf r.negated ≠ .zero))
    (hedge : next = if positive then n.high.flipIf r.negated else n.low.flipIf r.negated) :
    next ≠ .zero ∧ m.Has next ∧ m.Below n.var next ∧ next.height < r.height := by
  obtain ⟨hcofactors, hlow, hhigh⟩ := Cofactors.edges wf hterminal hn
  have hbranch := hcofactors.branch
  by_cases hhz : n.high.flipIf r.negated = .zero
  · obtain rfl : next = n.low.flipIf r.negated := by simpa [hpositive, hhz] using hedge
    exact ⟨fun hlz => edges_ne wf hterminal hn (hlz.trans hhz.symm), hbranch.has_low,
      hbranch.below_low, hlow⟩
  · obtain rfl : next = n.high.flipIf r.negated := by simpa [hpositive, hhz] using hedge
    exact ⟨hhz, hbranch.has_high, hbranch.below_high, hhigh⟩

/-- The way of a path from a reference to the constant true, with the literals of its edges: from
a node it takes the high edge unless that is the constant false. -/
inductive Follows (m : Manager) : Ref → List Literal → Prop where
  | one : Follows m .one []
  | edge {r next : Ref} {n : Node} {positive : Bool} {l : Literal} {ls : List Literal}
      (hterminal : r.index ≠ Ref.terminal) (hn : m.nodes.value? r.index = some n)
      (hpositive : positive = decide (n.high.flipIf r.negated ≠ .zero))
      (hedge : next = if positive then n.high.flipIf r.negated else n.low.flipIf r.negated)
      (hvar : l.var = n.var) (hsign : l.isPositive = positive)
      (hl : Literal.create n.var positive = .ok l) (hnext : Follows m next ls) :
      Follows m r (l :: ls)

/-- The constant false has no path. -/
theorem Follows.ne_zero {m : Manager} {r : Ref} {ls : List Literal} (h : m.Follows r ls) :
    r ≠ .zero := by
  cases h with
  | one => decide
  | edge hterminal => exact fun hzero => hterminal ((eq_constant_iff r).1 (Or.inl hzero))

/-- The way is the same one when the store grows. -/
theorem Follows.mono {m old : Manager} (hext : m.Extends old) {r : Ref} {ls : List Literal}
    (h : old.Follows r ls) : m.Follows r ls := by
  induction h with
  | one => exact .one
  | edge hterminal hn hpositive hedge hvar hsign hl _ ih =>
    exact .edge hterminal (hext _ _ hn) hpositive hedge hvar hsign hl ih

/-- From every reference but the constant false there is a way to the constant true. -/
theorem exists_follows {m : Manager} (wf : m.WellFormed) (hnarrow : m.Narrow) {r : Ref}
    (hr : m.Has r) (hzero : r ≠ .zero) : ∃ ls, m.Follows r ls := by
  induction hk : r.height using Nat.strongRecOn generalizing r with
  | _ k ih =>
    subst hk
    by_cases hterminal : r.index = Ref.terminal
    · rcases (eq_constant_iff r).2 hterminal with h | rfl
      · exact absurd h hzero
      · exact ⟨[], .one⟩
    · obtain ⟨n, hn⟩ := Option.isSome_iff_exists.1 hr
      obtain ⟨hne, hhas, -, hlt⟩ := taken_edge wf hterminal hn rfl rfl
      obtain ⟨l, hl, hvar, hsign⟩ :=
        Literal.create_eq_ok (wf.fits _ n hterminal hn).var_pos (hnarrow _ n hn) _
      obtain ⟨ls, hls⟩ := ih _ hlt hhas hne rfl
      exact ⟨l :: ls, .edge hterminal hn rfl rfl hvar hsign hl hls⟩

/-- The way from a reference is the one that is found. -/
theorem Follows.pathFrom_eq {m : Manager} (wf : m.WellFormed) {r : Ref} {ls : List Literal}
    (h : m.Follows r ls) : m.pathFrom r = .ok ls := by
  induction h with
  | one => rw [pathFrom, if_pos rfl]
  | @edge r next n positive l ls hterminal hn hpositive hedge _ _ hl _ ih =>
    have hone : r ≠ .one := fun h => hterminal ((eq_constant_iff r).1 (Or.inr h))
    obtain ⟨-, -, -, hlt⟩ := taken_edge wf hterminal hn hpositive hedge
    rw [pathFrom, if_neg hone]
    simp only [var_eq_ok hn, high_eq_ok hn, low_eq_ok hn, bind, Except.bind, ← hpositive, hl]
    cases positive with
    | true =>
      simp only [if_true] at hedge ⊢
      rw [← hedge]
      simp [hlt, ih, pure, Except.pure]
    | false =>
      simp only [Bool.false_eq_true, if_false] at hedge ⊢
      rw [← hedge]
      simp [hlt, ih, pure, Except.pure]

/-- The edge taken is the cofactor by the value that its literal asks for. -/
theorem holds_edge {m : Manager} (wf : m.WellFormed) {r next : Ref} {n : Node} {positive : Bool}
    (hterminal : r.index ≠ Ref.terminal) (hn : m.nodes.value? r.index = some n)
    (hedge : next = if positive then n.high.flipIf r.negated else n.low.flipIf r.negated)
    {a : Nat → Bool} (ha : a n.var = positive) : m.holds a r = m.holds a next := by
  rw [(Cofactors.edges wf hterminal hn).1.meaning, ha, hedge]
  cases positive <;> rfl

/-- The way from a reference is a path, and it stands as low as the reference does. -/
theorem Follows.leadsToOne {m : Manager} (wf : m.WellFormed) {r : Ref} {ls : List Literal}
    (h : m.Follows r ls) :
    m.LeadsToOne r ls ∧ ∀ v, m.Below v r → ∀ l ∈ ls, v < l.var := by
  induction h with
  | one => exact ⟨⟨List.Pairwise.nil, by simp, fun a _ => holds_one m a⟩, by simp⟩
  | @edge r next n positive l ls hterminal hn hpositive hedge hvar hsign hl _ ih =>
    obtain ⟨hleads, habove⟩ := ih
    obtain ⟨-, -, hbelow, -⟩ := taken_edge wf hterminal hn hpositive hedge
    refine ⟨hleads.cons hterminal hn hvar (habove n.var hbelow) fun a ha =>
      holds_edge wf hterminal hn hedge (ha.trans hsign), fun v hv k hk => ?_⟩
    have hroot : v < n.var := hv n hterminal hn
    rcases List.mem_cons.1 hk with rfl | hk
    · rw [hvar]
      exact hroot
    · exact Nat.lt_trans hroot (habove n.var hbelow k hk)

/-- What is found is the way from the reference; there is none from the constant false only. -/
theorem path_eq_ok {m : Manager} (wf : m.WellFormed) (hnarrow : m.Narrow) {r : Ref}
    (hr : m.Has r) :
    (r = .zero ∧ m.path r = .ok none) ∨ ∃ ls, m.path r = .ok (some ls) ∧ m.Follows r ls := by
  by_cases hzero : r = .zero
  · exact Or.inl ⟨hzero, by rw [path, if_pos hzero]⟩
  · obtain ⟨ls, hls⟩ := exists_follows wf hnarrow hr hzero
    refine Or.inr ⟨ls, ?_, hls⟩
    rw [path, if_neg hzero, hls.pathFrom_eq wf]
    rfl

/-- A function has a path to the constant true unless it is the constant false. -/
theorem path_spec {m : Manager} (wf : m.WellFormed) (hnarrow : m.Narrow) {r : Ref}
    (hr : m.Has r) :
    (r = .zero ∧ m.path r = .ok none) ∨ ∃ ls, m.path r = .ok (some ls) ∧ m.LeadsToOne r ls := by
  rcases path_eq_ok wf hnarrow hr with h | ⟨ls, hrun, hls⟩
  · exact Or.inl h
  · exact Or.inr ⟨ls, hrun, (hls.leadsToOne wf).1⟩

/-! ### Cubes -/

theorem above_grows (l : Literal) (r : Ref) : Step.Grows (above l r) :=
  Step.Grows.ite (mkNode_grows _ _ _) (mkNode_grows _ _ _)

theorem stack_grows (ls : List Literal) : ∀ r, Step.Grows (stack r ls) := by
  induction ls with
  | nil => exact fun r => Step.Grows.pure r
  | cons l ls ih => exact fun r => (above_grows l r).bind fun q => ih q

theorem mkCube_grows (ls : List Literal) : Step.Grows (mkCube ls) :=
  (note_grows _ _ _).bind fun _ => stack_grows _ _

theorem block_grows (r : Ref) (ls : List Literal) : Step.Grows (block r ls) :=
  (mkCube_grows ls).bind fun _ => conj_grows _ _

/-- The conjunction of a function with a literal that stands above it. -/
theorem above_spec {m : Manager} (wf : m.WellFormed) {l : Literal} (hl : 0 < l.var) {r : Ref}
    (hr : m.Has r) (hbelow : m.Below l.var r) :
    Step.Yields (above l r) m fun q t => t.WellFormed ∧ (∀ u, u < l.var → t.Below u q) ∧
      t.Denotes q fun a => l.holds a && m.holds a r := by
  unfold above
  split
  · next hpositive =>
    refine (mkNode_spec wf ⟨hl, wf.has_zero, hr, below_zero m _, hbelow⟩).imp
      fun q t hext ⟨wft, hjoins⟩ => ⟨wft, hjoins.below, hjoins.has, fun a => ?_⟩
    rw [hjoins.meaning, holds_zero, holds_of_extends wf hext a hr, Literal.holds, hpositive]
    cases a l.var <;> simp
  · next hnegative =>
    refine (mkNode_spec wf ⟨hl, hr, wf.has_zero, hbelow, below_zero m _⟩).imp
      fun q t hext ⟨wft, hjoins⟩ => ⟨wft, hjoins.below, hjoins.has, fun a => ?_⟩
    rw [Bool.not_eq_true] at hnegative
    rw [hjoins.meaning, holds_zero, holds_of_extends wf hext a hr, Literal.holds, hnegative]
    cases a l.var <;> simp

/-- The literals are stacked from the lowest variable to the topmost, so that each of them stands
above what has been made before. -/
theorem stack_spec {m : Manager} (wf : m.WellFormed) {ls : List Literal}
    (hpos : ∀ l ∈ ls, 0 < l.var) (hdesc : ls.Pairwise fun l k => k.var < l.var) {r : Ref}
    (hr : m.Has r) (hbelow : ∀ l ∈ ls, m.Below l.var r) :
    Step.Yields (stack r ls) m fun q t => t.WellFormed ∧
      t.Denotes q fun a => Literal.allHold ls a && m.holds a r := by
  induction ls generalizing m r with
  | nil => exact Step.Yields.pure ⟨wf, hr, fun a => rfl⟩
  | cons l ls ih =>
    obtain ⟨hfirst, hrest⟩ := List.pairwise_cons.1 hdesc
    refine (above_spec wf (hpos l List.mem_cons_self) hr (hbelow l List.mem_cons_self)).bind
      (fun q => stack_grows ls q) fun q t hext ⟨wft, hq, hdenotes⟩ => ?_
    refine (ih wft (fun k hk => hpos k (List.mem_cons_of_mem l hk)) hrest hdenotes.has
      fun k hk => hq k.var (hfirst k hk)).imp fun p u _ ⟨wfu, hp⟩ => ⟨wfu, hp.has, fun a => ?_⟩
    rw [hp.meaning, hdenotes.meaning]
    rw [Literal.allHold_cons, Bool.and_left_comm, Bool.and_assoc]

theorem bottomUp_perm (ls : List Literal) : (bottomUp ls).Perm ls := List.mergeSort_perm ls _

/-- Literals over distinct variables are sorted strictly. -/
theorem bottomUp_descending {ls : List Literal} (hdistinct : ls.Pairwise fun l k => l.var ≠ k.var) :
    (bottomUp ls).Pairwise fun l k => k.var < l.var := by
  -- sorting alone leaves room for equal variables
  have hle : (bottomUp ls).Pairwise fun l k => k.var ≤ l.var := by
    refine (List.pairwise_mergeSort ?_ ?_ ls).imp fun h => of_decide_eq_true h
    · intro a b c hab hbc
      simp only [decide_eq_true_eq] at *
      omega
    · intro a b
      simp only [Bool.or_eq_true, decide_eq_true_eq]
      omega
  have hne : (bottomUp ls).Pairwise fun l k => l.var ≠ k.var :=
    (bottomUp_perm ls).symm.pairwise hdistinct fun h heq => h heq.symm
  exact hle.and hne |>.imp fun ⟨hle, hne⟩ => by omega

/-- The contract of making a cube. -/
theorem mkCube_spec {m : Manager} (wf : m.WellFormed) {ls : List Literal}
    (hpos : ∀ l ∈ ls, 0 < l.var) (hdistinct : ls.Pairwise fun l k => l.var ≠ k.var) :
    Step.Yields (mkCube ls) m fun q t => t.WellFormed ∧ t.Denotes q (Literal.allHold ls) := by
  have hperm := bottomUp_perm ls
  refine note_spec wf _ _ _ fun t wft _ => ?_
  refine (stack_spec wft (fun l hl => hpos l (hperm.mem_iff.1 hl)) (bottomUp_descending hdistinct)
    wft.has_one fun l _ => below_one t _).imp fun q u _ ⟨wfu, hq⟩ => ⟨wfu, hq.has, fun a => ?_⟩
  rw [hq.meaning, holds_one, Bool.and_true]
  exact Literal.allHold_perm hperm a

/-- The contract of blocking a path: exactly the assignments that follow it are taken away. -/
theorem block_spec {m : Manager} (wf : m.WellFormed) {r : Ref} (hr : m.Has r) {ls : List Literal}
    (hls : m.LeadsToOne r ls) :
    Step.Yields (block r ls) m fun q t => t.WellFormed ∧
      t.Denotes q fun a => m.holds a r && !Literal.allHold ls a := by
  have hdistinct := hls.ascending.imp fun {l k : Literal} (h : l.var < k.var) => Nat.ne_of_lt h
  refine (mkCube_spec wf (hls.var_pos wf) hdistinct).bind (fun _ => conj_grows _ _)
    fun cube t hext ⟨wft, hcube⟩ => ?_
  refine (conj_spec wft (hr.mono hext) (has_neg.2 hcube.has)).imp
    fun q u _ ⟨wfu, hq⟩ => ⟨wfu, hq.has, fun a => ?_⟩
  rw [hq.meaning, holds_neg, hcube.meaning, holds_of_extends wf hext a hr]

end Manager

end BrakeCheck
