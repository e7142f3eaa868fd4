import BrakeCheck.Proofs.Outline

/-!
# The cases of a term are a partition

Where the symbolic constants have values, exactly one case of a term is meant.  More than that is
true: whatever truth values the atoms are given, also if no values of the symbolic constants lead
to them, exactly one guard holds.  The reason is in the outlines alone, where the guards that hold
can be counted: a sum has one piece for each pair of pieces, an absolute value has two for each
piece of which one holds, and a conditional has those of one branch or those of the other.

## Main definitions

* `Plan.Gives` — a plan comes to something with a property, whatever the atoms are.
* `Plan.Tally` — how many of the guards of a list of pieces hold.
* `Skeleton.Attained` — the skeletons of a run, also those in the middle of an encoding.

## Main statements

* `Term.outline_tally` — of the pieces of a term exactly one guard holds.
* `Skeleton.Attained.caseSplit_partition` — the cases of a term are a partition, with exact values.
-/

namespace BrakeCheck

/-! ### Counting -/

section
variable {α X : Type}

/-- What is counted once for each member that a test picks is the number of the members picked. -/
theorem sum_picked (as : List α) (test : α → Bool) (c : Nat) :
    (as.map fun a => if test a then c else 0).sum = as.countP test * c := by
  induction as with
  | nil => simp
  | cons a as ih =>
    rw [List.map_cons, List.sum_cons, ih, List.countP_cons, Nat.add_mul, Nat.add_comm]
    split <;> simp

/-- If no more than one member ever passes a test, no two members pass it together. -/
theorem pairwise_of_countP_le_one {test : X → α → Bool} {as : List α}
    (h : ∀ x, as.countP (test x) ≤ 1) :
    as.Pairwise fun a b => ∀ x, (test x a && test x b) = false := by
  induction as with
  | nil => exact List.Pairwise.nil
  | cons a as ih =>
    refine List.pairwise_cons.2 ⟨fun b hb x => ?_, ih fun x => ?_⟩
    · by_contra hboth
      rw [Bool.not_eq_false, Bool.and_eq_true] at hboth
      have hlater : 0 < as.countP (test x) := List.countP_pos_iff.2 ⟨b, hb, hboth.2⟩
      have hcount := h x
      rw [List.countP_cons, if_pos hboth.1] at hcount
      omega
    · have hcount := h x
      rw [List.countP_cons] at hcount
      omega

/-- A member of a list that alone passes a test. -/
theorem exists_filter_eq_singleton {test : α → Bool} {as : List α} (h : as.countP test = 1) :
    ∃ a, as.filter test = [a] := by
  rw [List.countP_eq_length_filter] at h
  exact List.length_eq_one_iff.1 h

end

/-! ### Pieces and the guards that hold -/

namespace Plan

variable {α β : Type}

/-- Whatever atoms there are, the plan comes to something with the property. -/
def Gives (Q : α → Prop) (plan : Plan α) : Prop := ∀ atoms, Q (plan atoms).value

theorem Gives.pure {Q : α → Prop} {a : α} (h : Q a) : Gives Q (Pure.pure a : Plan α) := fun _ => h

theorem Gives.bind {Q : α → Prop} {R : β → Prop} {plan : Plan α} {next : α → Plan β}
    (h : plan.Gives Q) (hnext : ∀ a, Q a → (next a).Gives R) : (plan >>= next).Gives R :=
  fun atoms => hnext _ (h atoms) _

theorem Gives.imp {Q R : α → Prop} {plan : Plan α} (h : plan.Gives Q) (hQR : ∀ a, Q a → R a) :
    plan.Gives R := fun atoms => hQR _ (h atoms)

/-- Pieces with reduced expressions, none of which is never meant; when the variables have the
values `x`, as many of the guards hold as `count` says. -/
structure Tally (count : (Nat → Bool) → Nat) (ps : List Piece) : Prop where
  possible : ∀ p ∈ ps, ∃ x, p.guard x = true
  reduced : ∀ p ∈ ps, p.value.Reduced
  count_eq : ∀ x, ps.countP (fun p => p.guard x) = count x

variable {k l : (Nat → Bool) → Nat} {f g : Condition} {e : LinExpr} {ps qs : List Piece}

theorem Tally.congr (h : Tally k ps) (hkl : ∀ x, k x = l x) : Tally l ps :=
  { h with count_eq := fun x => (h.count_eq x).trans (hkl x) }

theorem Tally.nil : Tally (fun _ => 0) [] := ⟨by simp, by simp, fun _ => rfl⟩

theorem Tally.append (h : Tally k ps) (h' : Tally l qs) :
    Tally (fun x => k x + l x) (ps ++ qs) where
  possible := List.forall_mem_append.2 ⟨h.possible, h'.possible⟩
  reduced := List.forall_mem_append.2 ⟨h.reduced, h'.reduced⟩
  count_eq x := by rw [List.countP_append, h.count_eq, h'.count_eq]

/-- The pieces under one guard that holds somewhere. -/
theorem Tally.single (he : e.Reduced) (hf : ∃ x, f x = true) :
    Tally (fun x => if f x then 1 else 0) [⟨f, e⟩] where
  possible := by simpa using hf
  reduced := by simpa using he
  count_eq x := by rw [List.countP_singleton]

/-- A function that changes the expressions alone. -/
theorem Tally.map {op : LinExpr → LinExpr} (hop : ∀ e, e.Reduced → (op e).Reduced)
    (h : Tally k ps) : Tally k (ps.map fun p => ⟨p.guard, op p.value⟩) where
  possible := List.forall_mem_map.2 h.possible
  reduced := List.forall_mem_map.2 fun p hp => hop _ (h.reduced p hp)
  count_eq x := by
    rw [List.countP_map]
    exact h.count_eq x

theorem pieceUnder_tally (he : e.Reduced) :
    (pieceUnder f g e).Gives (Tally fun x => if f x && g x then 1 else 0) := by
  refine Gives.bind (Q := fun h => h = fun x => f x && g x) (fun _ => rfl) fun h hh => ?_
  subst hh
  refine Gives.pure ?_
  split
  · next hnever =>
    exact Tally.nil.congr fun x => by simp [show (f x && g x) = false from hnever x]
  · next hsome =>
    refine Tally.single he ?_
    obtain ⟨x, hx⟩ := not_forall.1 hsome
    exact ⟨x, Bool.eq_true_of_not_eq_false hx⟩

/-- The guards that hold are counted along the list. -/
theorem collect_tally {as : List α} {plan : α → Plan (List Piece)} {k : α → (Nat → Bool) → Nat}
    (h : ∀ a ∈ as, (plan a).Gives (Tally (k a))) :
    (collect plan as).Gives (Tally fun x => (as.map fun a => k a x).sum) := by
  induction as with
  | nil => exact Gives.pure Tally.nil
  | cons a as ih =>
    refine Gives.bind (h a List.mem_cons_self) fun here hhere => ?_
    refine Gives.bind (ih fun b hb => h b (List.mem_cons_of_mem a hb)) fun rest hrest => ?_
    exact Gives.pure (hhere.append hrest)

theorem restrict_tally (h : Tally k ps) :
    (restrict f ps).Gives (Tally fun x => if f x then k x else 0) := by
  refine (collect_tally fun p hp => pieceUnder_tally (h.reduced p hp)).imp fun qs hqs =>
    hqs.congr fun x => ?_
  cases f x with
  | true =>
    simp only [Bool.and_true]
    rw [sum_picked ps (fun p => p.guard x), h.count_eq, Nat.mul_one]
    rfl
  | false => simp

/-- Two guards hold together as often as there are pairs of them. -/
theorem combine_tally {op : LinExpr → LinExpr → LinExpr}
    (hop : ∀ a b : LinExpr, a.Reduced → (op a b).Reduced) (h : Tally k ps) (h' : Tally l qs) :
    (combine op ps qs).Gives (Tally fun x => k x * l x) := by
  have hinner : ∀ p ∈ ps, Gives (Tally fun x => if p.guard x then l x else 0)
      (collect (fun q => pieceUnder p.guard q.guard (op p.value q.value)) qs) := by
    intro p hp
    refine (collect_tally fun q _ => pieceUnder_tally (hop _ _ (h.reduced p hp))).imp
      fun rs hrs => hrs.congr fun x => ?_
    cases p.guard x with
    | true =>
      simp only [Bool.true_and]
      rw [sum_picked qs (fun q => q.guard x), h'.count_eq, Nat.mul_one]
      rfl
    | false => simp
  refine (collect_tally hinner).imp fun rs hrs => hrs.congr fun x => ?_
  rw [sum_picked ps (fun p => p.guard x), h.count_eq]

/-- Of the two pieces that one is split into, one holds where it does. -/
theorem splitSigns_tally (h : Tally k ps) : (splitSigns ps).Gives (Tally k) := by
  have hsplit : ∀ p ∈ ps, Gives (Tally fun x => if p.guard x then 1 else 0) (do
      let negative ← belowZero p.value
      let kept ← pieceUnder p.guard (fun a => !negative a) p.value
      let turned ← pieceUnder p.guard negative (-p.value)
      return kept ++ turned) := by
    intro p hp
    have he := h.reduced p hp
    refine Gives.bind (Q := fun _ => True) (fun _ => trivial) fun negative _ => ?_
    refine Gives.bind (pieceUnder_tally he) fun kept hkept => ?_
    refine Gives.bind (pieceUnder_tally he.neg) fun turned hturned => ?_
    refine Gives.pure ((hkept.append hturned).congr fun x => ?_)
    cases p.guard x <;> cases negative x <;> rfl
  refine (collect_tally hsplit).imp fun qs hqs => hqs.congr fun x => ?_
  rw [sum_picked ps (fun p => p.guard x), h.count_eq, Nat.mul_one]

end Plan

open Plan

/-- Of the pieces of a term exactly one is meant, whatever values the variables have. -/
theorem Term.outline_tally (a : Term) : a.outline.Gives (Tally fun _ => 1) := by
  cases a with
  | var x =>
    exact Gives.pure ((Tally.single (LinExpr.reduced_var x) ⟨fun _ => true, rfl⟩).congr
      fun _ => rfl)
  | const c =>
    exact Gives.pure ((Tally.single (LinExpr.reduced_const c) ⟨fun _ => true, rfl⟩).congr
      fun _ => rfl)
  | add a b =>
    refine Gives.bind a.outline_tally fun ps hps => Gives.bind b.outline_tally fun qs hqs => ?_
    exact combine_tally (fun d e hd => hd.add e) hps hqs
  | sub a b =>
    refine Gives.bind a.outline_tally fun ps hps => Gives.bind b.outline_tally fun qs hqs => ?_
    exact combine_tally (fun d e hd => hd.sub e) hps hqs
  | neg a =>
    exact Gives.bind a.outline_tally fun ps hps => Gives.pure (hps.map fun e he => he.neg)
  | scale factor a =>
    exact Gives.bind a.outline_tally fun ps hps => Gives.pure (hps.map fun e he => he.scaled factor)
  | abs a => exact Gives.bind a.outline_tally fun ps hps => splitSigns_tally hps
  | ite c a b =>
    refine Gives.bind (Q := fun _ => True) (fun _ => trivial) fun test _ => ?_
    refine Gives.bind a.outline_tally fun ps hps => ?_
    refine Gives.bind (restrict_tally hps) fun yes hyes => ?_
    refine Gives.bind b.outline_tally fun qs hqs => ?_
    refine Gives.bind (restrict_tally hqs) fun no hno => ?_
    refine Gives.pure ((hyes.append hno).congr fun x => ?_)
    cases test x <;> rfl

/-! ### Cases of terms -/

namespace Skeleton

variable {N : String → Prop} {s : Skeleton}

/-- The guards of cases hold as those of the pieces do. -/
theorem countP_of_matches {cs : List Case} {ps : List Piece}
    (h : List.Forall₂ (s.Matches N) cs ps) (x : Nat → Bool) :
    cs.countP (fun c => s.manager.holds x c.guard) = ps.countP fun p => p.guard x := by
  induction h with
  | nil => rfl
  | cons hcp _ ih => rw [List.countP_cons, List.countP_cons, ih, hcp.guard.meaning]

/-- No case stands under the constant false. -/
theorem guard_ne_zero_of_matches (wf : s.WellFormed N) {cs : List Case} {ps : List Piece}
    (h : List.Forall₂ (s.Matches N) cs ps) (hps : ∀ p ∈ ps, ∃ x, p.guard x = true) :
    ∀ c ∈ cs, c.guard ≠ .zero := by
  induction h with
  | nil => simp
  | cons hcp _ ih =>
    obtain ⟨hp, hps⟩ := List.forall_mem_cons.1 hps
    refine List.forall_mem_cons.2 ⟨fun hzero => ?_, ih hps⟩
    obtain ⟨x, hx⟩ := hp
    rw [(hcp.guard.eq_zero_iff wf).1 hzero x] at hx
    cases hx

/-- What the guards of the cases of a term are: none of them is the constant false, and exactly one
holds under all values of the variables. -/
theorem caseSplit_guards (wf : s.WellFormed N) (a : Term) (hN : ∀ x ∈ a.names, N x) :
    Step.Yields a.caseSplit s fun cs t => (∀ c ∈ cs, c.guard ≠ .zero) ∧
      ∀ x, cs.countP (fun c => t.manager.holds x c.guard) = 1 := by
  refine (a.caseSplit_realizes wf hN).yields.imp fun cs t _ ⟨wft, _, hmatches, _⟩ => ?_
  have htally := a.outline_tally s.atoms
  refine ⟨guard_ne_zero_of_matches wft hmatches htally.possible, fun x => ?_⟩
  rw [countP_of_matches hmatches, htally.count_eq]

section Guards

variable {m : Manager} {cs : List Case}

/-- Of guards of which never two hold the conjunctions are the constant false. -/
theorem conj_guards (wf : m.WellFormed) (hhas : ∀ c ∈ cs, m.Has c.guard)
    (hone : ∀ x, cs.countP (fun c => m.holds x c.guard) = 1) :
    cs.Pairwise fun c d => Step.Yields (Manager.conj c.guard d.guard) m fun q _ => q = .zero :=
  (pairwise_of_countP_le_one fun x => Nat.le_of_eq (hone x)).imp_of_mem fun hc hd hnever =>
    Manager.conj_yields_zero wf (hhas _ hc) (hhas _ hd) hnever

/-- Of guards of which always one holds the disjunction is the constant true. -/
theorem disjAll_guards (wf : m.WellFormed) (hhas : ∀ c ∈ cs, m.Has c.guard)
    (hone : ∀ x, cs.countP (fun c => m.holds x c.guard) = 1) :
    Step.Yields (Manager.disjAll (cs.map Case.guard)) m fun q _ => q = .one := by
  refine Manager.disjAll_yields_eq wf (List.forall_mem_map.2 hhas) wf.has_one fun x => ?_
  obtain ⟨c, hc, hholds⟩ : ∃ c ∈ cs, m.holds x c.guard = true :=
    List.countP_pos_iff.1 (by rw [hone]; exact Nat.one_pos)
  rw [Manager.holds_one, List.any_map]
  exact (List.any_eq_true.2 ⟨c, hc, hholds⟩).symm

end Guards

/-- The skeletons that a run leads to, also those in the middle of the encoding of a formula, where
a term has been divided into cases, or such cases have been restricted. -/
inductive Attained : Skeleton → Prop where
  | reached {s : Skeleton} (h : Reached s) : Attained s
  | encode {s : Skeleton} (h : Attained s) (f : Formula) : Attained (f.encode.perform s).2
  | caseSplit {s : Skeleton} (h : Attained s) (a : Term) : Attained (a.caseSplit.perform s).2
  | choose {s : Skeleton} (h : Attained s) {c : Choice} (hc : s.manager.HasAll c) :
    Attained ((onManager (Manager.ite c)).perform s).2

theorem Attained.wellFormed (h : s.Attained) (hfit : s.manager.Addressable) :
    s.WellFormed fun _ => True := by
  induction h with
  | reached h => exact h.wellFormed hfit
  | encode h f ih =>
    have wf := ih (f.encode_grows.addressable hfit)
    obtain ⟨r, t, hrun, -, wft, -⟩ := f.encode_spec wf (fun _ _ => trivial) hfit
    rw [hrun]
    exact wft
  | caseSplit h a ih =>
    have wf := ih (a.caseSplit_grows.addressable hfit)
    obtain ⟨cs, t, hrun, -, wft, -⟩ := a.caseSplit_spec wf (fun _ _ => trivial) hfit
    rw [hrun]
    exact wft
  | choose h hc ih =>
    have wf := ih ((onManager_grows (Manager.ite_grows _)).addressable hfit)
    obtain ⟨r, t, hrun, -, wft, -⟩ :=
      ite_spec wf ⟨hc.test, fun _ => rfl⟩ ⟨hc.yes, fun _ => rfl⟩ ⟨hc.no, fun _ => rfl⟩ hfit
    rw [hrun]
    exact wft

/-- The cases of a term are a partition, in every skeleton that a run leads to: no guard is the
constant false, any two of them have the constant false as their conjunction, and their disjunction
is the constant true, now and in every later store.  Under all truth values of the atoms, whether
they can come from values of the symbolic constants or not, exactly one guard holds; and when the
symbolic constants have values, the expression of the case whose guard holds has the value of the
term. -/
theorem Attained.caseSplit_partition (h : s.Attained) (a : Term)
    (hfit : (a.caseSplit.perform s).2.manager.Addressable) :
    ∃ cs t, a.caseSplit.perform s = (.ok cs, t) ∧ (∀ c ∈ cs, c.guard ≠ .zero) ∧
      (∀ m : Manager, m.WellFormed → m.Extends t.manager →
        (cs.Pairwise fun c d => Step.Yields (Manager.conj c.guard d.guard) m fun q _ => q = .zero) ∧
        Step.Yields (Manager.disjAll (cs.map Case.guard)) m fun q _ => q = .one) ∧
      (∀ x, ∃ c, cs.filter (fun c => t.manager.holds x c.guard) = [c]) ∧
      ∀ v, ∃ c, cs.filter (fun c => t.holds v c.guard) = [c] ∧ c.value.eval v = a.eval v := by
  have wf := h.wellFormed (a.caseSplit_grows.addressable hfit)
  obtain ⟨cs, t, hrun, -, ⟨hpossible, hone⟩, wft, hresolves⟩ :=
    ((caseSplit_guards wf a fun _ _ => trivial).and
      (a.caseSplit_spec wf fun _ _ => trivial)) hfit
  have hhas := hresolves.cases.has
  refine ⟨cs, t, hrun, hpossible, fun m wfm hext => ?_,
    fun x => exists_filter_eq_singleton (hone x), fun v => ?_⟩
  · have hhas' : ∀ c ∈ cs, m.Has c.guard := fun c hc => (hhas c hc).mono hext
    have hone' : ∀ x, cs.countP (fun c => m.holds x c.guard) = 1 := fun x => by
      rw [← hone x]
      refine List.countP_congr fun c hc => ?_
      rw [Manager.holds_of_extends wft.manager hext x (hhas c hc)]
    exact ⟨conj_guards wfm hhas' hone', disjAll_guards wfm hhas' hone'⟩
  · obtain ⟨e, he, hvalue⟩ := hresolves.meaning v
    obtain ⟨c, hc, rfl⟩ := List.map_eq_singleton_iff.1 he
    exact ⟨c, hc, hvalue⟩

/-- The absolute value of a conditional whose condition has an absolute value in it, in a skeleton
that has encoded a formula before: four cases, one for each branch and sign. -/
theorem caseSplit_partition_nested :
    ∃ (s : Skeleton) (cs : List Case) (t : Skeleton), create 0 .closed = .ok s ∧
      (Term.abs (.ite ((Term.abs (.var "x")).lt (.const 1)) (.var "x") (.var "y"))).caseSplit.perform
        (((Term.var "x").lt (.var "y")).encode.perform s).2 = (.ok cs, t) ∧ cs.length = 4 ∧
      ∀ x, ∃ c, cs.filter (fun c => t.manager.holds x c.guard) = [c] := by
  have hcreate : create 0 .closed = .ok
      ⟨⟨((HashCons.empty 0).add Node.terminal).2, ComputedTable.empty 0, .closed⟩, .empty⟩ := rfl
  obtain ⟨cs, t, hrun, -, -, hone, -⟩ := (Attained.reached ((Reached.create hcreate).encode
    ((Term.var "x").lt (.var "y")))).caseSplit_partition
    (.abs (.ite ((Term.abs (.var "x")).lt (.const 1)) (.var "x") (.var "y"))) (by decide +kernel)
  have hlength : some cs.length = some 4 := by
    refine (congrArg (fun run => run.1.toOption.map List.length) hrun).symm.trans ?_
    decide +kernel
  exact ⟨_, cs, t, hcreate, hrun, Option.some.inj hlength, hone⟩

end Skeleton

end BrakeCheck
