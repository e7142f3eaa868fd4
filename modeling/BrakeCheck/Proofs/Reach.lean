import BrakeCheck.Diagram.Reach
import BrakeCheck.Proofs.Store

/-!
# What a walk over the nodes finds

Only what can be reached is ever queued, so the walk reads nodes only under indices that can be
reached, and not under that of the terminal, which has been marked before it starts.  The edges of
a node that has been marked lead to what is marked or queued, so that nothing is missing when the
queue is empty.

## Main definitions

* `Manager.Reaches` — the indices that can be reached from references.
* `Manager.Visiting` — the invariant of the walk.

## Main statements

* `Manager.visit_spec` — the walk ends, and what it has marked is what can be reached.
* `Manager.descendants_of_stored`, `Manager.descendants_spec` — the descendants are the indices that
  can be reached, ascending; it is enough that the nodes among them are stored.
* `Manager.extent_eq_ok` — the number of nodes that take part in a stored function.
-/

namespace BrakeCheck

namespace Manager

/-- The references on the edges of the node with an index; the terminal has none. -/
def children (m : Manager) (i : Nat) : Except Fault (List Ref) :=
  if i = Ref.terminal then .ok []
  else (m.nodes.value i).map fun n => [n.low, n.high]

/-- The indices that can be reached from references along the edges of nodes. -/
inductive Reaches (m : Manager) (roots : List Ref) : Nat → Prop where
  | root {r : Ref} (hr : r ∈ roots) : Reaches m roots r.index
  | child {i : Nat} {rs : List Ref} {r : Ref} (h : Reaches m roots i)
      (hrs : m.children i = .ok rs) (hr : r ∈ rs) : Reaches m roots r.index

/-- What can be reached from something that can be reached can be reached. -/
theorem Reaches.trans {m : Manager} {roots rs : List Ref}
    (h : ∀ r ∈ rs, m.Reaches roots r.index) {i : Nat} (hi : m.Reaches rs i) :
    m.Reaches roots i := by
  induction hi with
  | root hr => exact h _ hr
  | child _ hrs hr ih => exact ih.child hrs hr

/-! ### Edges -/

/-- The children of an index are the edges of its node. -/
theorem children_of_value? {m : Manager} {i : Nat} {n : Node} (hi : i ≠ Ref.terminal)
    (hn : m.nodes.value? i = some n) : m.children i = .ok [n.low, n.high] := by
  rw [children, if_neg hi, HashCons.value_eq_ok hn]
  rfl

theorem mem_children {m : Manager} {i : Nat} {rs : List Ref} (hrs : m.children i = .ok rs) {r : Ref}
    (hr : r ∈ rs) :
    i ≠ Ref.terminal ∧ ∃ n, m.nodes.value? i = some n ∧ (r = n.low ∨ r = n.high) := by
  unfold children at hrs
  split at hrs
  · cases hrs
    cases hr
  · next hterminal =>
    refine ⟨hterminal, ?_⟩
    unfold HashCons.value at hrs
    split at hrs
    · cases hrs
    · cases hn : m.nodes.value? i with
      | none => simp [hn, Except.map] at hrs
      | some n =>
        rw [hn] at hrs
        cases hrs
        exact ⟨n, rfl, by simpa using hr⟩

/-- The children of a stored node are stored, and they are older. -/
theorem children_eq_ok {m : Manager} (wf : m.WellFormed) {i : Nat}
    (hi : (m.nodes.value? i).isSome) :
    ∃ rs, m.children i = .ok rs ∧ ∀ r ∈ rs, m.Has r ∧ r.index < i := by
  by_cases hterminal : i = Ref.terminal
  · exact ⟨[], by rw [children, if_pos hterminal], by simp⟩
  · obtain ⟨n, hn⟩ := Option.isSome_iff_exists.1 hi
    have hle := (HashCons.isSome_value?_iff.1 hi).2
    have hfits := wf.fits i n hterminal hn
    refine ⟨_, children_of_value? hterminal hn, ?_⟩
    intro r hr
    simp only [List.mem_cons, List.not_mem_nil, or_false] at hr
    rcases hr with rfl | rfl
    · exact ⟨hfits.has_low (by omega), hfits.low_lt⟩
    · exact ⟨hfits.has_high (by omega), hfits.high_lt⟩

/-- What can be reached from stored references is stored. -/
theorem Reaches.isSome {m : Manager} (wf : m.WellFormed) {roots : List Ref}
    (hroots : ∀ r ∈ roots, m.Has r) {i : Nat} (h : m.Reaches roots i) :
    (m.nodes.value? i).isSome := by
  induction h with
  | root hr => exact hroots _ hr
  | child _ hrs hr ih =>
    obtain ⟨rs, hrs', hhas⟩ := children_eq_ok wf ih
    cases hrs.symm.trans hrs'
    exact (hhas _ hr).1

/-! ### The walk -/

/-- The store has a node under every index that can be reached, except that of the terminal. -/
def AllStored (m : Manager) (roots : List Ref) : Prop :=
  ∀ i, m.Reaches roots i → i ≠ Ref.terminal → (m.nodes.value? i).isSome

/-- An index has been marked, or it is in the queue. -/
def Noticed (seen : Array Bool) (queue : List Nat) (i : Nat) : Prop :=
  seen.getD i false = true ∨ i ∈ queue

/-- The invariant of a walk: there are marks for all indices of the store, and the terminal is
marked; what is marked or queued can be reached; and the roots and the ends of the edges of what is
marked are noticed. -/
structure Visiting (m : Manager) (roots : List Ref) (seen : Array Bool) (queue : List Nat) :
    Prop where
  size : seen.size = m.nodes.size + 2
  terminal : seen.getD Ref.terminal false = true
  marked : ∀ i, seen.getD i false = true → m.Reaches roots i
  queued : ∀ i ∈ queue, m.Reaches roots i
  roots : ∀ r ∈ roots, Noticed seen queue r.index
  closed : ∀ i, seen.getD i false = true → ∀ rs, m.children i = .ok rs → ∀ r ∈ rs,
    Noticed seen queue r.index

theorem getD_set_true {seen : Array Bool} {i : Nat} (hi : i < seen.size) {j : Nat} :
    (seen.set i true).getD j false = true ↔ j = i ∨ seen.getD j false = true := by
  rw [Array.getD_eq_getD_getElem?, Array.getD_eq_getD_getElem?, Array.getElem?_set hi]
  by_cases h : i = j
  · simp [h]
  · simp [h, Ne.symm h]

theorem getD_eq_getElem {seen : Array Bool} {i : Nat} (hi : i < seen.size) :
    seen.getD i false = seen[i] := by
  rw [Array.getD_eq_getD_getElem?, Array.getElem?_eq_getElem hi, Option.getD_some]

variable {m : Manager} {roots : List Ref} {seen : Array Bool} {queue : List Nat} {i : Nat}

/-- An index that is marked already is passed by. -/
theorem Visiting.skip (h : m.Visiting roots seen (i :: queue))
    (hi : seen.getD i false = true) : m.Visiting roots seen queue := by
  have noticed : ∀ {j}, Noticed seen (i :: queue) j → Noticed seen queue j := by
    rintro j (hj | hj)
    · exact Or.inl hj
    · rcases List.mem_cons.1 hj with rfl | hj
      · exact Or.inl hi
      · exact Or.inr hj
  exact { h with
    queued := fun j hj => h.queued j (List.mem_cons_of_mem i hj)
    roots := fun r hr => noticed (h.roots r hr)
    closed := fun j hj rs hrs r hr => noticed (h.closed j hj rs hrs r hr) }

/-- An index that comes up for the first time is marked, and the ends of its edges are queued. -/
theorem Visiting.mark (h : m.Visiting roots seen (i :: queue)) (hlt : i < seen.size)
    (hterminal : i ≠ Ref.terminal) {n : Node} (hn : m.nodes.value? i = some n) :
    m.Visiting roots (seen.set i true) (queue ++ [n.low.index, n.high.index]) := by
  have hchildren := children_of_value? hterminal hn
  have hreach := h.queued i List.mem_cons_self
  have noticed : ∀ {j}, Noticed seen (i :: queue) j →
      Noticed (seen.set i true) (queue ++ [n.low.index, n.high.index]) j := by
    rintro j (hj | hj)
    · exact Or.inl ((getD_set_true hlt).2 (Or.inr hj))
    · rcases List.mem_cons.1 hj with rfl | hj
      · exact Or.inl ((getD_set_true hlt).2 (Or.inl rfl))
      · exact Or.inr (List.mem_append_left _ hj)
  exact {
    size := by rw [Array.size_set, h.size]
    terminal := (getD_set_true hlt).2 (Or.inr h.terminal)
    marked := by
      intro j hj
      rcases (getD_set_true hlt).1 hj with rfl | hj
      · exact hreach
      · exact h.marked j hj
    queued := by
      intro j hj
      rcases List.mem_append.1 hj with hj | hj
      · exact h.queued j (List.mem_cons_of_mem i hj)
      · simp only [List.mem_cons, List.not_mem_nil, or_false] at hj
        rcases hj with rfl | rfl
        · exact hreach.child hchildren (by simp)
        · exact hreach.child hchildren (by simp)
    roots := fun r hr => noticed (h.roots r hr)
    closed := by
      intro j hj rs hrs r hr
      rcases (getD_set_true hlt).1 hj with rfl | hj
      · cases hchildren.symm.trans hrs
        refine Or.inr (List.mem_append_right _ ?_)
        simp only [List.mem_cons, List.not_mem_nil, or_false] at hr ⊢
        exact hr.imp (congrArg Ref.index) (congrArg Ref.index)
      · exact noticed (h.closed j hj rs hrs r hr) }

/-- The walk ends without a fault, and what it has marked is what can be reached.  By induction on
the walk: an index that it takes out of the queue can be reached, and the terminal is marked, so
there is a node to be read wherever one is read. -/
theorem visit_spec (hstored : m.AllStored roots) (later : List Nat)
    (h : m.Visiting roots seen (queue ++ later.reverse)) :
    ∃ marks, m.visit seen queue later = .ok marks ∧
      ∀ j, marks.getD j false = true ↔ m.Reaches roots j := by
  fun_induction visit m seen queue later with
  | case1 seen =>
    have marked_of_noticed : ∀ {j}, Noticed seen [] j → seen.getD j false = true := fun hj =>
      hj.resolve_right List.not_mem_nil
    refine ⟨seen, rfl, fun j => ⟨h.marked j, fun hj => ?_⟩⟩
    induction hj with
    | root hr => exact marked_of_noticed (h.roots _ hr)
    | child _ hrs hr ih => exact marked_of_noticed (h.closed _ ih _ hrs _ hr)
  | case2 seen i later ih => exact ih (by simpa using h)
  | case3 seen i queue later hi hseen ih =>
    exact ih (h.skip (by rw [getD_eq_getElem hi, hseen]))
  | case4 seen i queue later hi hseen ih =>
    have hterminal : i ≠ Ref.terminal := by
      rintro rfl
      exact hseen (by rw [← getD_eq_getElem hi, h.terminal])
    obtain ⟨n, hn⟩ := Option.isSome_iff_exists.1
      (hstored i (h.queued i List.mem_cons_self) hterminal)
    rw [HashCons.value_eq_ok hn]
    refine ih n ?_
    simpa using h.mark hi hterminal hn
  | case5 seen i queue later hi =>
    have hsize := h.size
    have hterminal : i ≠ Ref.terminal := by
      rintro rfl
      rw [Ref.terminal] at hi
      omega
    have hle := (HashCons.isSome_value?_iff.1
      (hstored i (h.queued i List.mem_cons_self) hterminal)).2
    omega

theorem size_freshMarks (m : Manager) : m.freshMarks.size = m.nodes.size + 2 := by
  rw [freshMarks, Array.size_set, Array.size_replicate]

/-- Before the walk the terminal is marked, and nothing else. -/
theorem getD_freshMarks : m.freshMarks.getD i false = true ↔ i = Ref.terminal := by
  rw [freshMarks, getD_set_true, Array.getD_eq_getD_getElem?, Array.getElem?_replicate]
  constructor
  · rintro (h | h)
    · exact h
    · split at h <;> cases h
  · exact Or.inl

theorem visiting_freshMarks (m : Manager) (rs : List Ref) :
    m.Visiting (.one :: rs) m.freshMarks (rs.map Ref.index) where
  size := m.size_freshMarks
  terminal := getD_freshMarks.2 rfl
  marked i hi := getD_freshMarks.1 hi ▸ .root (r := .one) List.mem_cons_self
  queued i hi := by
    obtain ⟨r, hr, rfl⟩ := List.mem_map.1 hi
    exact .root (List.mem_cons_of_mem _ hr)
  roots := List.forall_mem_cons.2
    ⟨Or.inl (getD_freshMarks.2 rfl), fun r hr => Or.inr (List.mem_map_of_mem hr)⟩
  closed i hi rs hrs r hr := by
    -- the terminal has no edges
    obtain rfl := getD_freshMarks.1 hi
    exact absurd rfl (mem_children hrs hr).1

/-- The descendants of references are the terminal and the indices that can be reached from them,
each once, ascending; a node has to be stored under each of the others, and nowhere else. -/
theorem descendants_of_stored {rs : List Ref} (hstored : m.AllStored (.one :: rs)) :
    ∃ is, m.descendants rs = .ok is ∧ is.Pairwise (· < ·) ∧
      ∀ i, i ∈ is ↔ m.Reaches (.one :: rs) i := by
  obtain ⟨marks, hvisit, hmarks⟩ := visit_spec hstored []
    (by simpa using visiting_freshMarks m rs)
  refine ⟨(List.range marks.size).filter (marks.getD · false), ?_,
    List.pairwise_lt_range.filter _, fun i => ?_⟩
  · rw [descendants, hvisit]
    rfl
  · rw [List.mem_filter, List.mem_range, hmarks]
    refine and_iff_right_of_imp fun hi => Nat.lt_of_not_le fun hle => ?_
    -- there are no marks from there on
    have hmark := (hmarks i).2 hi
    rw [Array.getD_eq_getD_getElem?, Array.getElem?_eq_none hle] at hmark
    cases hmark

theorem WellFormed.allStored (wf : m.WellFormed) {rs : List Ref} (hrs : ∀ r ∈ rs, m.Has r) :
    m.AllStored (.one :: rs) :=
  fun _ hi _ => hi.isSome wf (List.forall_mem_cons.2 ⟨wf.has_one, hrs⟩)

/-- The walk lists the indices of the terminal and of all nodes that can be reached from stored
references, each once, ascending. -/
theorem descendants_spec (wf : m.WellFormed) {rs : List Ref} (hrs : ∀ r ∈ rs, m.Has r) :
    ∃ is, m.descendants rs = .ok is ∧ is.Pairwise (· < ·) ∧
      ∀ i, i ∈ is ↔ m.Reaches (.one :: rs) i :=
  descendants_of_stored (wf.allStored hrs)

theorem extent_eq_ok (wf : m.WellFormed) {r : Ref} (hr : m.Has r) :
    ∃ size, m.extent r = .ok size := by
  obtain ⟨is, his, -⟩ := descendants_spec wf (List.forall_mem_singleton.2 hr)
  exact ⟨is.length, by rw [extent, his]; rfl⟩

end Manager

end BrakeCheck
