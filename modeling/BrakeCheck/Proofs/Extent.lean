import BrakeCheck.Proofs.Canonical
import BrakeCheck.Proofs.Reach
import Mathlib.Data.Set.Card

/-!
# The extent of a function is a property of the function

The nodes that take part in a function stand for the functions that it becomes when the first
variables are given values.  A node stands for one of these and its complement for another, so they
are counted up to complements; and since a function has one reference, every node counts once.  The
number of nodes that take part in a function is therefore the same in all stores.

## Main definitions

* `fixing` — an assignment in which the first variables have values of another one.
* `Subfunction` — what is left of a function when the first variables have values.
* `regularForm` — a function or its complement, whichever is true where all variables are.
* `extentOf` — the number of subfunctions up to complements.

## Main statements

* `Manager.Denotes.extent_eq` — the extent of a reference is that of its function.
-/

namespace BrakeCheck

/-- The assignment that gives the variables up to `k` the values of `a`, and the others those of
`x`. -/
def fixing (k : Nat) (a x : Nat → Bool) : Nat → Bool := fun v => if v ≤ k then a v else x v

/-- The function `g` is what is left of `f` when the variables up to some number have certain
values. -/
def Subfunction (f g : (Nat → Bool) → Bool) : Prop := ∃ k a, ∀ x, g x = f (fixing k a x)

/-- A function or its complement, whichever is true where all variables are. -/
def regularForm (f : (Nat → Bool) → Bool) : (Nat → Bool) → Bool :=
  fun x => f x == f fun _ => true

/-- The number of subfunctions of a function up to complements; the constants count as one. -/
noncomputable def extentOf (f : (Nat → Bool) → Bool) : Nat :=
  (regularForm '' { g | Subfunction f g }).ncard

theorem fixing_of_le {k : Nat} {a x : Nat → Bool} {v : Nat} (h : v ≤ k) : fixing k a x v = a v :=
  if_pos h

theorem fixing_of_lt {k : Nat} {a x : Nat → Bool} {v : Nat} (h : k < v) : fixing k a x v = x v :=
  if_neg (Nat.not_le.2 h)

/-- Values given to the first variables are there when more variables are given values. -/
theorem fixing_fixing {j k : Nat} (hjk : j ≤ k) (a b x : Nat → Bool) :
    fixing j a (fixing k b x) = fixing k (fixing j a b) x := by
  funext v
  unfold fixing
  split
  · next h => rw [if_pos (Nat.le_trans h hjk)]
  · rfl

theorem fixing_self (k : Nat) (a : Nat → Bool) : fixing k a a = a := by
  funext v
  unfold fixing
  split <;> rfl

/-- What is left of a function that is left of another one, is left of that. -/
theorem Subfunction.trans {f g h : (Nat → Bool) → Bool} (hg : Subfunction f g)
    (hh : Subfunction g h) : Subfunction f h := by
  obtain ⟨j, a, hg⟩ := hg
  obtain ⟨k, b, hh⟩ := hh
  by_cases hjk : j ≤ k
  · exact ⟨k, fixing j a b, fun x => by rw [hh, hg, fixing_fixing hjk]⟩
  · refine ⟨j, a, fun x => ?_⟩
    -- the variables that are given values later have values already
    have hsame : fixing j a (fixing k b x) = fixing j a x := by
      funext v
      by_cases hv : v ≤ j
      · rw [fixing_of_le hv, fixing_of_le hv]
      · rw [fixing_of_lt (by omega), fixing_of_lt (by omega), fixing_of_lt (by omega)]
    rw [hh, hg, hsame]

namespace Manager

variable {m : Manager}

/-! ### Regular references -/

/-- Where all variables are true a reference is true exactly if it is regular, since the high edges
of nodes are. -/
theorem holds_true (wf : m.WellFormed) {r : Ref} (hr : m.Has r) :
    m.holds (fun _ => true) r = !r.negated := by
  obtain ⟨i, negated⟩ := r
  induction i using Nat.strongRecOn generalizing negated with
  | _ i ih =>
    by_cases hi : i = Ref.terminal
    · rw [holds]
      simp [hi]
    · obtain ⟨n, hn⟩ := Option.isSome_iff_exists.1 hr
      have hfits := wf.fits i n hi hn
      have hle : i ≤ m.nodes.size + 1 := Nat.le_succ_of_le hr.index_le
      have hhigh := ih n.high.index hfits.high_lt n.high.negated (hfits.has_high hle)
      rw [holds_node hi hn hfits.low_lt hfits.high_lt, cond_true, hhigh, hfits.high_regular,
        Bool.not_false, Bool.xor_true]

/-- The regular form of a function is that of the regular reference to its node. -/
theorem regularForm_holds (wf : m.WellFormed) {r : Ref} (hr : m.Has r) :
    regularForm (m.holds · r) = (m.holds · ⟨r.index, false⟩) := by
  funext x
  have hflip : r = (⟨r.index, false⟩ : Ref).flipIf r.negated := by
    obtain ⟨i, negated⟩ := r
    cases negated <;> rfl
  have hvalue : m.holds x r = (r.negated ^^ m.holds x ⟨r.index, false⟩) := by
    rw [← holds_flipIf, ← hflip]
  show (m.holds x r == m.holds (fun _ => true) r) = _
  rw [holds_true wf hr, hvalue]
  cases r.negated <;> cases m.holds x ⟨r.index, false⟩ <;> rfl

/-! ### Nodes and subfunctions -/

/-- A reference stands below the variables that have been given values in its function. -/
theorem below_of_fixing (wf : m.WellFormed) {f : (Nat → Bool) → Bool} {k : Nat} {a : Nat → Bool}
    {q : Ref} (hq : ∀ x, m.holds x q = f (fixing k a x)) : m.Below k q := by
  refine below_of_independent wf fun x y hxy => ?_
  have hsame : fixing k a x = fixing k a y := by
    funext v
    by_cases hv : v ≤ k
    · rw [fixing_of_le hv, fixing_of_le hv]
    · rw [fixing_of_lt (Nat.not_le.1 hv), fixing_of_lt (Nat.not_le.1 hv), hxy v (Nat.not_le.1 hv)]
  rw [hq, hq, hsame]

/-- Values of the variables up to `k` do not matter to what stands below `k`. -/
theorem holds_fixing (wf : m.WellFormed) {k : Nat} (a x : Nat → Bool) {q : Ref} (hq : m.Has q)
    (hbelow : m.Below k q) : m.holds (fixing k a x) q = m.holds x q :=
  holds_congr_of_below wf (fun _ hv => fixing_of_lt hv) hq hbelow

/-- There is no variable before the first one. -/
theorem holds_fixing_zero (wf : m.WellFormed) (a x : Nat → Bool) {q : Ref} (hq : m.Has q) :
    m.holds (fixing 0 a x) q = m.holds x q :=
  holds_fixing wf a x hq fun n hterminal hn => (wf.fits _ n hterminal hn).var_pos

/-- The edge of a reference that is taken if the variable of its node has a value. -/
def taken (q : Ref) (n : Node) (value : Bool) : Ref :=
  bif value then n.high.flipIf q.negated else n.low.flipIf q.negated

theorem index_taken (q : Ref) (n : Node) (value : Bool) :
    (taken q n value).index = (bif value then n.high else n.low).index := by
  cases value <;> exact Ref.index_flipIf _ _

theorem has_taken (wf : m.WellFormed) {q : Ref} (hterminal : q.index ≠ Ref.terminal) {n : Node}
    (hn : m.nodes.value? q.index = some n) (value : Bool) : m.Has (taken q n value) := by
  obtain ⟨hedges, -, -⟩ := Cofactors.edges wf hterminal hn
  cases value with
  | false => exact hedges.branch.has_low
  | true => exact hedges.branch.has_high

/-- The edges of a node that can be reached lead to nodes that can be reached. -/
theorem Reaches.taken {rs : List Ref} {q : Ref} (h : m.Reaches rs q.index)
    (hterminal : q.index ≠ Ref.terminal) {n : Node} (hn : m.nodes.value? q.index = some n)
    (value : Bool) : m.Reaches rs (taken q n value).index := by
  rw [index_taken]
  refine h.child (children_of_value? hterminal hn) ?_
  cases value <;> simp

/-- An edge of a node is what its function becomes when the variables down to its own have
values. -/
theorem holds_taken (wf : m.WellFormed) {q : Ref} {n : Node} (hterminal : q.index ≠ Ref.terminal)
    (hn : m.nodes.value? q.index = some n) (a x : Nat → Bool) :
    m.holds x (taken q n (a n.var)) = m.holds (fixing n.var a x) q := by
  obtain ⟨hedges, -, -⟩ := Cofactors.edges wf hterminal hn
  have hbranch := hedges.branch
  rw [hedges.meaning, fixing_of_le (Nat.le_refl n.var),
    holds_fixing wf a x hbranch.has_low hbranch.below_low,
    holds_fixing wf a x hbranch.has_high hbranch.below_high, taken]
  cases a n.var <;> rfl

/-- Both edges of a node of a subfunction are subfunctions. -/
theorem subfunction_taken (wf : m.WellFormed) {f : (Nat → Bool) → Bool} {q : Ref}
    (hq : Subfunction f (m.holds · q)) {n : Node} (hterminal : q.index ≠ Ref.terminal)
    (hn : m.nodes.value? q.index = some n) (value : Bool) :
    Subfunction f (m.holds · (taken q n value)) := by
  obtain ⟨k, a, hmeaning⟩ := hq
  have hlt : k < n.var := below_of_fixing wf hmeaning n hterminal hn
  refine ⟨n.var, fixing k a fun _ => value, fun x => ?_⟩
  rw [← fixing_fixing (Nat.le_of_lt hlt)]
  exact (holds_taken wf hterminal hn (fun _ => value) x).trans (hmeaning _)

/-- From the node of a subfunction the terminal stands for a subfunction. -/
theorem subfunction_terminal (wf : m.WellFormed) {f : (Nat → Bool) → Bool} {q : Ref} (hq : m.Has q)
    (h : Subfunction f (m.holds · q)) :
    ∃ r : Ref, r.index = Ref.terminal ∧ Subfunction f (m.holds · r) := by
  induction hk : q.height using Nat.strongRecOn generalizing q with
  | _ k ih =>
    subst hk
    by_cases hterminal : q.index = Ref.terminal
    · exact ⟨q, hterminal, h⟩
    · obtain ⟨n, hn⟩ := Option.isSome_iff_exists.1 hq
      obtain ⟨hedges, hlow, -⟩ := Cofactors.edges wf hterminal hn
      exact ih _ hlow hedges.branch.has_low (subfunction_taken wf h hterminal hn false) rfl

variable {f : (Nat → Bool) → Bool} {r : Ref}

/-- The nodes that can be reached from a function stand for subfunctions of it. -/
theorem Reaches.subfunction (wf : m.WellFormed) (hr : m.Denotes r f) {i : Nat}
    (h : m.Reaches [.one, r] i) : ∃ q : Ref, q.index = i ∧ Subfunction f (m.holds · q) := by
  have hself : Subfunction f (m.holds · r) := by
    refine ⟨0, fun _ => false, fun x => ?_⟩
    rw [← hr.meaning, holds_fixing_zero wf _ x hr.has]
  induction h with
  | root hq =>
    simp only [List.mem_cons, List.not_mem_nil, or_false] at hq
    rcases hq with rfl | rfl
    · exact subfunction_terminal wf hr.has hself
    · exact ⟨_, rfl, hself⟩
  | child _ hrs hc ih =>
    obtain ⟨q, rfl, hq⟩ := ih
    obtain ⟨hterminal, n, hn, rfl | rfl⟩ := mem_children hrs hc
    · exact ⟨_, index_taken q n false, subfunction_taken wf hq hterminal hn false⟩
    · exact ⟨_, index_taken q n true, subfunction_taken wf hq hterminal hn true⟩

/-- For every way to give values to the first variables there is a node that can be reached.  By
induction on the number of variables: the node for one less is left by the edge that the value of
the next variable takes, unless it does not branch on it. -/
theorem exists_reaches_of_fixing (wf : m.WellFormed) (hr : m.Denotes r f) (k : Nat)
    (a : Nat → Bool) :
    ∃ q : Ref, m.Reaches [.one, r] q.index ∧ m.Has q ∧ ∀ x, m.holds x q = f (fixing k a x) := by
  induction k with
  | zero =>
    refine ⟨r, .root (by simp), hr.has, fun x => ?_⟩
    rw [← hr.meaning, holds_fixing_zero wf a x hr.has]
  | succ k ih =>
    obtain ⟨q, hreach, hq, hmeaning⟩ := ih
    have hbelow := below_of_fixing wf hmeaning
    have hnext : ∀ x, m.holds (fixing (k + 1) a x) q = f (fixing (k + 1) a x) := by
      intro x
      rw [hmeaning, fixing_fixing (Nat.le_succ k), fixing_self]
    obtain ⟨n, hn⟩ := Option.isSome_iff_exists.1 hq
    by_cases hbranches : q.index ≠ Ref.terminal ∧ n.var = k + 1
    · obtain ⟨hterminal, hvar⟩ := hbranches
      refine ⟨taken q n (a n.var), hreach.taken hterminal hn _, has_taken wf hterminal hn _,
        fun x => ?_⟩
      rw [holds_taken wf hterminal hn, hvar, hnext]
    · -- the node does not look at the next variable
      have hbelow' : m.Below (k + 1) q := by
        intro d hterminal hd
        cases hn.symm.trans hd
        have hlt := hbelow n hterminal hn
        have hne : n.var ≠ k + 1 := fun h => hbranches ⟨hterminal, h⟩
        omega
      refine ⟨q, hreach, hq, fun x => ?_⟩
      rw [← hnext, holds_fixing wf a x hq hbelow']

/-- The functions of the nodes that can be reached are the regular forms of the subfunctions. -/
theorem image_reaches (wf : m.WellFormed) (hr : m.Denotes r f) :
    (fun (i : Nat) (x : Nat → Bool) => m.holds x ⟨i, false⟩) '' { i | m.Reaches [.one, r] i } =
      regularForm '' { g | Subfunction f g } := by
  have hroots : ∀ q ∈ [Ref.one, r], m.Has q := by simpa using ⟨wf.has_one, hr.has⟩
  ext g
  constructor
  · rintro ⟨i, hi, rfl⟩
    obtain ⟨q, rfl, hq⟩ := Reaches.subfunction wf hr hi
    exact ⟨_, hq, regularForm_holds wf (hi.isSome wf hroots)⟩
  · rintro ⟨h, ⟨k, a, hmeaning⟩, rfl⟩
    obtain ⟨q, hreach, hq, hqmeaning⟩ := exists_reaches_of_fixing wf hr k a
    have heq : h = (m.holds · q) := funext fun x => by rw [hmeaning, hqmeaning]
    exact ⟨q.index, hreach, by rw [heq, regularForm_holds wf hq]⟩

/-- Different nodes stand for different functions. -/
theorem injOn_reaches (wf : m.WellFormed) (hr : m.Has r) :
    Set.InjOn (fun (i : Nat) (x : Nat → Bool) => m.holds x ⟨i, false⟩)
      { i | m.Reaches [.one, r] i } := by
  have hroots : ∀ q ∈ [Ref.one, r], m.Has q := by simpa using ⟨wf.has_one, hr⟩
  intro i hi j hj hij
  have heq : (⟨i, false⟩ : Ref) = ⟨j, false⟩ :=
    eq_of_holds_eq wf (hi.isSome wf hroots) (hj.isSome wf hroots) fun x => congrFun hij x
  exact congrArg Ref.index heq

/-- The extent of a reference is that of the function it stands for, whatever else is stored. -/
theorem Denotes.extent_eq (wf : m.WellFormed) (hr : m.Denotes r f) :
    m.extent r = .ok (extentOf f) := by
  obtain ⟨is, his, hascending, hmem⟩ := descendants_spec wf (List.forall_mem_singleton.2 hr.has)
  have hset : { i | m.Reaches [.one, r] i } = ↑is.toFinset := by
    ext i
    simp [← hmem]
  have hnodup : is.Nodup := hascending.imp Nat.ne_of_lt
  have hcount : extentOf f = is.length := by
    rw [extentOf, ← image_reaches wf hr, (injOn_reaches wf hr.has).ncard_image, hset,
      Set.ncard_coe_finset, List.toFinset_card_of_nodup hnodup]
  rw [extent, his, hcount]
  rfl

end Manager

end BrakeCheck
