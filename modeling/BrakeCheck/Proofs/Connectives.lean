import BrakeCheck.Proofs.Canonical
import BrakeCheck.Proofs.Requests

/-!
# Choices and connectives in every store

In every store that orderly requests lead to, a choice is answered with the function that it
describes, and the connectives that are made from choices are answered with theirs, whichever of the
results computed so far the table still holds.  A function that has been made once keeps its
reference, so that connectives of lists do not depend on the order of their members.

## Main definitions

* `Manager.Right` — a table of computed results that are right for a store.

## Main statements

* `Manager.connectives_of_reached` — choices and connectives are what they are called.
-/

namespace BrakeCheck.Manager

variable {m : Manager}

/-! ### Tables of computed results -/

/-- The store with another table of computed results. -/
def withTable (m : Manager) (table : ComputedTable Choice Ref) : Manager :=
  { m with computed := table }

/-- The table has slots, and whatever it holds is a choice of functions of the store with the
function that the choice describes. -/
structure Right (m : Manager) (table : ComputedTable Choice Ref) : Prop where
  slots_pos : 0 < table.slots.size
  result : ∀ c r, table.find? c = some r →
    m.HasAll c ∧ m.Has r ∧ ∀ a, m.holds a r = m.chooses a c

/-- The table that a store has is right. -/
theorem WellFormed.right (wf : m.WellFormed) : m.Right m.computed where
  slots_pos := wf.slots_pos
  result c r hc :=
    let ⟨hall, hanswers⟩ := wf.computed c r hc
    ⟨hall, hanswers.has, hanswers.meaning⟩

/-- A table without results is right for every store. -/
theorem right_empty (m : Manager) (bits : Nat) : m.Right (ComputedTable.empty bits) where
  slots_pos := by
    rw [ComputedTable.empty, Array.size_replicate, Nat.one_shiftLeft]
    exact Nat.two_pow_pos bits
  result c r hc := by simp at hc

/-- With any right table a store is well-formed. -/
theorem Right.wellFormed {table : ComputedTable Choice Ref} (h : m.Right table)
    (wf : m.WellFormed) : (m.withTable table).WellFormed := by
  refine wf.congr rfl h.slots_pos fun c r hc => ?_
  obtain ⟨hall, hr, hmeaning⟩ := h.result c r hc
  exact ⟨hall, answers_of_meaning wf hall hr hmeaning⟩

/-! ### Lists in any order -/

/-- The members of a list in another order, in a store that has grown. -/
theorem all_perm_of_extends {old : Manager} (wf : old.WellFormed) (hext : m.Extends old)
    {rs qs : List Ref} (hrs : ∀ r ∈ rs, old.Has r) (hperm : qs.Perm rs) (a : Nat → Bool) :
    (qs.all fun r => m.holds a r) = rs.all fun r => old.holds a r := by
  have hmap := map_holds_of_extends wf hext hrs a
  have hall := congrArg (List.all · id) hmap
  simp only [List.all_map, Function.comp_def, id] at hall
  rw [hperm.all_eq, hall]

theorem any_perm_of_extends {old : Manager} (wf : old.WellFormed) (hext : m.Extends old)
    {rs qs : List Ref} (hrs : ∀ r ∈ rs, old.Has r) (hperm : qs.Perm rs) (a : Nat → Bool) :
    (qs.any fun r => m.holds a r) = rs.any fun r => old.holds a r := by
  have hmap := map_holds_of_extends wf hext hrs a
  have hany := congrArg (List.any · id) hmap
  simp only [List.any_map, Function.comp_def, id] at hany
  rw [hperm.any_eq, hany]

/-- The conjunction of a list, and of the same list in another order in any later store. -/
theorem conjAll_perm (wf : m.WellFormed) {rs qs : List Ref} (hrs : ∀ r ∈ rs, m.Has r)
    (hperm : qs.Perm rs) :
    Step.Yields (conjAll rs) m fun r t => t.WellFormed ∧
      (∀ a, t.holds a r = rs.all fun q => m.holds a q) ∧
      ∀ u, u.WellFormed → u.Extends t → Step.Yields (conjAll qs) u fun q _ => q = r := by
  refine (conjAll_spec wf hrs).imp fun r t hext ⟨wft, hr⟩ =>
    ⟨wft, hr.meaning, fun u wfu hu => ?_⟩
  have hext' := Extends.trans hu hext
  refine hr.yields_eq wft hu ((conjAll_spec wfu fun q hq =>
    (hrs q (hperm.mem_iff.1 hq)).mono hext').imp fun q w _ ⟨wfw, hq⟩ =>
      ⟨wfw, hq.has, fun a => ?_⟩)
  rw [hq.meaning, all_perm_of_extends wf hext' hrs hperm]

/-- The disjunction of a list, and of the same list in another order in any later store. -/
theorem disjAll_perm (wf : m.WellFormed) {rs qs : List Ref} (hrs : ∀ r ∈ rs, m.Has r)
    (hperm : qs.Perm rs) :
    Step.Yields (disjAll rs) m fun r t => t.WellFormed ∧
      (∀ a, t.holds a r = rs.any fun q => m.holds a q) ∧
      ∀ u, u.WellFormed → u.Extends t → Step.Yields (disjAll qs) u fun q _ => q = r := by
  refine (disjAll_spec wf hrs).imp fun r t hext ⟨wft, hr⟩ =>
    ⟨wft, hr.meaning, fun u wfu hu => ?_⟩
  have hext' := Extends.trans hu hext
  refine hr.yields_eq wft hu ((disjAll_spec wfu fun q hq =>
    (hrs q (hperm.mem_iff.1 hq)).mono hext').imp fun q w _ ⟨wfw, hq⟩ =>
      ⟨wfw, hq.has, fun a => ?_⟩)
  rw [hq.meaning, any_perm_of_extends wf hext' hrs hperm]

/-! ### Choices and connectives -/

/-- In every store that orderly requests lead to, with whatever right table of computed results,
choices and connectives of its references are always answered: a choice with the function that is
the one where the test holds and the other one elsewhere, all places looked at being inside the
tables; the connectives of two functions and of lists with theirs; and a list in another order with
the same reference, also in any later store. -/
theorem connectives_of_reached (h : m.Reached) {table : ComputedTable Choice Ref}
    (htable : m.Right table) :
    (∀ f g k, m.Has f → m.Has g → m.Has k →
      Step.Yields (ite ⟨f, g, k⟩) (m.withTable table) fun r t => t.InBounds ∧
        ∀ a, t.holds a r = (m.holds a f && m.holds a g || !m.holds a f && m.holds a k)) ∧
    (∀ f g, m.Has f → m.Has g →
      (Step.Yields (conj f g) (m.withTable table) fun r t =>
        ∀ a, t.holds a r = (m.holds a f && m.holds a g)) ∧
      (Step.Yields (disj f g) (m.withTable table) fun r t =>
        ∀ a, t.holds a r = (m.holds a f || m.holds a g)) ∧
      Step.Yields (imp f g) (m.withTable table) fun r t =>
        ∀ a, t.holds a r = (!m.holds a f || m.holds a g)) ∧
    ∀ rs qs, (∀ r ∈ rs, m.Has r) → qs.Perm rs →
      (Step.Yields (conjAll rs) (m.withTable table) fun r t => t.WellFormed ∧
        (∀ a, t.holds a r = rs.all fun q => m.holds a q) ∧
        ∀ u, u.WellFormed → u.Extends t → Step.Yields (conjAll qs) u fun q _ => q = r) ∧
      Step.Yields (disjAll rs) (m.withTable table) fun r t => t.WellFormed ∧
        (∀ a, t.holds a r = rs.any fun q => m.holds a q) ∧
        ∀ u, u.WellFormed → u.Extends t → Step.Yields (disjAll qs) u fun q _ => q = r := by
  -- a store that can be addressed after an operation was so before, and is then well-formed
  have start : ∀ {step : Step Manager Ref} {P : Ref → Manager → Prop}, Step.Grows step →
      ((m.withTable table).WellFormed → Step.Yields step (m.withTable table) P) →
      Step.Yields step (m.withTable table) P :=
    fun hgrows hstep => Step.Yields.of_addressable hgrows fun hfit =>
      hstep (htable.wellFormed (h.wellFormed hfit))
  have hsame : ∀ a r, (m.withTable table).holds a r = m.holds a r := holds_congr rfl
  refine ⟨fun f g k hf hg hk => ?_, fun f g hf hg => ⟨?_, ?_, ?_⟩, fun rs qs hrs hperm => ⟨?_, ?_⟩⟩
  · refine start (ite_grows _) fun wf => ?_
    refine (ite_denotes wf hf hg hk).imp fun r t _ ⟨wft, hr⟩ => ⟨wft.inBounds, fun a => ?_⟩
    rw [hr.meaning, hsame, hsame, hsame]
    cases m.holds a f <;> simp
  · refine start (conj_grows f g) fun wf => (conj_spec wf hf hg).imp fun r t _ ⟨_, hr⟩ a => ?_
    rw [hr.meaning, hsame, hsame]
  · refine start (disj_grows f g) fun wf => (disj_spec wf hf hg).imp fun r t _ ⟨_, hr⟩ a => ?_
    rw [hr.meaning, hsame, hsame]
  · refine start (imp_grows f g) fun wf => (imp_spec wf hf hg).imp fun r t _ ⟨_, hr⟩ a => ?_
    rw [hr.meaning, hsame, hsame]
  · refine start (conjFrom_grows rs _) fun wf => (conjAll_perm wf hrs hperm).imp
      fun r t _ ⟨wft, hr, hagain⟩ => ⟨wft, fun a => ?_, hagain⟩
    rw [hr]
    simp only [hsame]
  · refine start (disjFrom_grows rs _) fun wf => (disjAll_perm wf hrs hperm).imp
      fun r t _ ⟨wft, hr, hagain⟩ => ⟨wft, fun a => ?_, hagain⟩
    rw [hr]
    simp only [hsame]

/-- A choice between three variables, and their conjunction in two orders, in a store whose results
have been forgotten. -/
theorem connectives_of_reached_three_vars :
    ∃ (m : Manager) (r : Ref) (t : Manager) (s : Ref) (u : Manager), m.Reached ∧
      (ite ⟨⟨2, false⟩, ⟨3, false⟩, ⟨4, false⟩⟩).perform (m.withTable (.empty 0)) = (.ok r, t) ∧
      (∀ a, t.holds a r = (m.holds a ⟨2, false⟩ && m.holds a ⟨3, false⟩ ||
        !m.holds a ⟨2, false⟩ && m.holds a ⟨4, false⟩)) ∧
      (conjAll [⟨2, false⟩, ⟨3, false⟩, ⟨4, false⟩]).perform (m.withTable (.empty 0)) =
        (.ok s, u) ∧
      ((conjAll [⟨4, false⟩, ⟨2, false⟩, ⟨3, false⟩]).perform u).1 = .ok s := by
  obtain ⟨m, hcreate⟩ := exists_create (Nat.zero_le 24) .closed
  obtain rfl := eq_of_create hcreate
  have hreached := (((Reached.create hcreate).serve (q := .var 1) (by decide +kernel)).serve
    (q := .var 2) (by decide +kernel)).serve (q := .var 3) (by decide +kernel)
  obtain ⟨hite, -, hlists⟩ := connectives_of_reached hreached (right_empty _ 0)
  obtain ⟨r, t, hrun, -, -, hmeaning⟩ := hite ⟨2, false⟩ ⟨3, false⟩ ⟨4, false⟩
    (by decide +kernel) (by decide +kernel) (by decide +kernel)
    (show Addressable _ by decide +kernel)
  obtain ⟨s, u, hconj, -, wfu, -, hagain⟩ := (hlists [⟨2, false⟩, ⟨3, false⟩, ⟨4, false⟩]
    [⟨4, false⟩, ⟨2, false⟩, ⟨3, false⟩] (by decide +kernel) (by decide)).1
    (show Addressable _ by decide +kernel)
  have hfit : ((conjAll [⟨4, false⟩, ⟨2, false⟩, ⟨3, false⟩]).perform u).2.Addressable := by
    refine (congrArg (fun run : _ × Manager =>
      ((conjAll [⟨4, false⟩, ⟨2, false⟩, ⟨3, false⟩]).perform run.2).2.Addressable) hconj).mp ?_
    decide +kernel
  obtain ⟨q, w, hconj', -, rfl⟩ := hagain u wfu (Extends.refl u) hfit
  exact ⟨_, r, t, q, u, hreached, hrun, hmeaning, hconj, by rw [hconj']⟩

end BrakeCheck.Manager
