import BrakeCheck.Diagram.Manager

/-!
# The meaning of diagrams

A reference stands for a Boolean function of the variables.  In a well-formed store nodes branch
in the order of their variables, no two of them are equal, and no node could be spared; a store
that grows keeps the functions of its references.

## Main definitions

* `Manager.holds` — the truth value of a reference under given values of the variables.
* `Manager.WellFormed` — what is true of every store made by the operations.
* `Manager.Extends` — a store has all nodes of another one, under the same indices.

## Main statements

* `Manager.holds_node` — the value of a node is that of the edge that is taken.
* `Manager.holds_of_extends` — more nodes do not change the function of a reference.
* `Manager.wellFormed_of_create` — the store that holds the terminal alone is well-formed.
-/

namespace BrakeCheck

namespace Manager

/-- The truth value of a reference when the variables have the values `a`: the terminal is true, a
node has the value of the edge that is taken, and a complement has the opposite value.  An edge
that does not lead down leads nowhere, and counts as false. -/
def holds (m : Manager) (a : Nat → Bool) (r : Ref) : Bool :=
  r.negated ^^
    if r.index = Ref.terminal then true
    else match m.nodes.value? r.index with
      | none => false
      | some n =>
        let next := if a n.var then n.high else n.low
        if next.height < r.height then m.holds a next else false
termination_by r.height

/-- The truth value of a choice when the variables have the values `a`. -/
def chooses (m : Manager) (a : Nat → Bool) (c : Choice) : Bool :=
  bif m.holds a c.test then m.holds a c.yes else m.holds a c.no

/-- A node that may stand under the index `i`: its edges lead to older nodes that branch on later
variables, they differ, and the high one is regular. -/
structure Fits (m : Manager) (i : Nat) (n : Node) : Prop where
  var_pos : 0 < n.var
  low_pos : 0 < n.low.index
  low_lt : n.low.index < i
  high_pos : 0 < n.high.index
  high_lt : n.high.index < i
  low_ne_high : n.low ≠ n.high
  high_regular : n.high.negated = false
  var_lt_low :
    ∀ d, n.low.index ≠ Ref.terminal → m.nodes.value? n.low.index = some d → n.var < d.var
  var_lt_high :
    ∀ d, n.high.index ≠ Ref.terminal → m.nodes.value? n.high.index = some d → n.var < d.var

/-- The store has the node that a reference names. -/
def Has (m : Manager) (r : Ref) : Prop := (m.nodes.value? r.index).isSome

/-- The store has the nodes of all members of a choice. -/
structure HasAll (m : Manager) (c : Choice) : Prop where
  test : m.Has c.test
  yes : m.Has c.yes
  no : m.Has c.no

/-- A reference stands below a variable: it is a constant, or it branches on a later variable. -/
def Below (m : Manager) (v : Nat) (r : Ref) : Prop :=
  ∀ d, r.index ≠ Ref.terminal → m.nodes.value? r.index = some d → v < d.var

/-- All members of a choice stand below a variable. -/
structure AllBelow (m : Manager) (v : Nat) (c : Choice) : Prop where
  test : m.Below v c.test
  yes : m.Below v c.yes
  no : m.Below v c.no

/-- A reference is the result of a choice: it has the value that the choice describes, and it
stands as low as the members of the choice do. -/
structure Answers (m : Manager) (c : Choice) (r : Ref) : Prop where
  has : m.Has r
  below : ∀ v, m.AllBelow v c → m.Below v r
  meaning : ∀ a, m.holds a r = m.chooses a c

/-- What is true of every store made by the operations: the terminal stands under its index and all
other nodes fit theirs, each of them is found again under its own index, the buckets hold indices of
nodes alone, and the computed results are right. -/
structure WellFormed (m : Manager) : Prop where
  terminal : m.nodes.value? Ref.terminal = some Node.terminal
  fits : ∀ i n, i ≠ Ref.terminal → m.nodes.value? i = some n → m.Fits i n
  found : ∀ i n, i ≠ Ref.terminal → m.nodes.value? i = some n → m.nodes.find? n = some i
  linked : m.nodes.Linked
  buckets_pos : 0 < m.nodes.buckets.size
  slots_pos : 0 < m.computed.slots.size
  computed : ∀ c r, m.computed.find? c = some r → m.HasAll c ∧ m.Answers c r

/-- The store `m` has all nodes of `old`, under the same indices. -/
def Extends (m old : Manager) : Prop :=
  ∀ i n, old.nodes.value? i = some n → m.nodes.value? i = some n

/-! ### Constants and complements -/

@[simp] theorem holds_one (m : Manager) (a : Nat → Bool) : m.holds a .one = true := by
  rw [holds]
  rfl

@[simp] theorem holds_zero (m : Manager) (a : Nat → Bool) : m.holds a .zero = false := by
  rw [holds]
  rfl

@[simp] theorem holds_neg (m : Manager) (a : Nat → Bool) (r : Ref) :
    m.holds a (-r) = !m.holds a r := by
  rw [holds, holds, Ref.neg_index, Ref.neg_negated, Ref.height_neg, Bool.not_xor]

@[simp] theorem holds_flipIf (m : Manager) (a : Nat → Bool) (r : Ref) (flip : Bool) :
    m.holds a (r.flipIf flip) = (flip ^^ m.holds a r) := by
  cases flip <;> simp [Ref.flipIf]

/-! ### Nodes -/

/-- The value of a node whose edges lead to older nodes is that of the edge that is taken. -/
theorem holds_node {m : Manager} {i : Nat} {n : Node} (hi : i ≠ Ref.terminal)
    (h : m.nodes.value? i = some n) (hlow : n.low.index < i) (hhigh : n.high.index < i)
    (a : Nat → Bool) (negated : Bool) :
    m.holds a ⟨i, negated⟩ =
      (negated ^^ bif a n.var then m.holds a n.high else m.holds a n.low) := by
  have height_lt : ∀ r : Ref, r.index < i → r.height < (⟨i, negated⟩ : Ref).height := by
    intro r hr
    unfold Ref.height
    simp only [hi, if_false]
    split <;> omega
  have hlow' := height_lt n.low hlow
  have hhigh' := height_lt n.high hhigh
  rw [holds]
  simp only [hi, if_false, h]
  cases a n.var with
  | false => simp [hlow']
  | true => simp [hhigh']

/-! ### Growing stores -/

theorem Extends.refl (m : Manager) : m.Extends m := fun _ _ h => h

theorem Extends.trans {k m n : Manager} (hkm : k.Extends m) (hmn : m.Extends n) : k.Extends n :=
  fun i d h => hkm i d (hmn i d h)

/-- More nodes do not change the function of a reference. -/
theorem holds_of_extends {m old : Manager} (wf : old.WellFormed) (h : m.Extends old)
    (a : Nat → Bool) {r : Ref} (hr : (old.nodes.value? r.index).isSome) :
    m.holds a r = old.holds a r := by
  obtain ⟨i, negated⟩ := r
  induction i using Nat.strongRecOn generalizing negated with
  | _ i ih =>
    by_cases hi : i = Ref.terminal
    · rw [holds, holds]
      simp [hi]
    · obtain ⟨n, hn⟩ := Option.isSome_iff_exists.1 hr
      have fits := wf.fits i n hi hn
      have stored : ∀ j, 0 < j → j < i → (old.nodes.value? j).isSome := by
        intro j hpos hlt
        have hle := (HashCons.isSome_value?_iff.1 hr).2
        exact HashCons.isSome_value?_iff.2 ⟨hpos, Nat.le_trans (Nat.le_of_lt hlt) hle⟩
      rw [holds_node hi (h i n hn) fits.low_lt fits.high_lt,
        holds_node hi hn fits.low_lt fits.high_lt]
      have hlow := ih n.low.index fits.low_lt n.low.negated
        (stored _ fits.low_pos fits.low_lt)
      have hhigh := ih n.high.index fits.high_lt n.high.negated
        (stored _ fits.high_pos fits.high_lt)
      rw [hlow, hhigh]

/-! ### The first store -/

/-- What a new store is made of. -/
theorem eq_of_create {bits : Nat} {journal : Journal} {m : Manager}
    (h : create bits journal = .ok m) :
    m = ⟨((HashCons.empty bits).add Node.terminal).2, ComputedTable.empty (min bits computedBits),
      journal⟩ := by
  have hbits : bits ≤ 24 := by
    by_cases hle : bits ≤ 24
    · exact hle
    · simp [create, HashCons.create, hle, bind, Except.bind] at h
  have hmin : min bits computedBits ≤ 24 := Nat.le_trans (Nat.min_le_left _ _) hbits
  simpa [create, HashCons.create, ComputedTable.create, hbits, hmin, bind, Except.bind, pure,
    Except.pure, eq_comm] using h

/-- There is a store for every size of its tables up to the largest one. -/
theorem exists_create {bits : Nat} (hbits : bits ≤ 24) (journal : Journal) :
    ∃ m, create bits journal = .ok m := by
  have hmin : min bits computedBits ≤ 24 := Nat.le_trans (Nat.min_le_left _ _) hbits
  exact ⟨_, by
    simp only [create, HashCons.create, ComputedTable.create, hbits, hmin, if_true]
    rfl⟩

/-- The store that holds the terminal alone is well-formed. -/
theorem wellFormed_of_create {bits : Nat} {journal : Journal} {m : Manager}
    (h : create bits journal = .ok m) : m.WellFormed := by
  rw [eq_of_create h]
  have only : ∀ i n, ((HashCons.empty bits).add Node.terminal).2.value? i = some n →
      i = Ref.terminal := by
    intro i n hn
    rw [HashCons.value?_add, HashCons.value?_empty] at hn
    split at hn
    · next heq => exact heq
    · simp at hn
  have hpos : ∀ k : Nat, 0 < 1 <<< k := by
    intro k
    rw [Nat.one_shiftLeft]
    exact Nat.two_pow_pos k
  exact {
    terminal := rfl
    fits := fun i n hi hn => absurd (only i n hn) hi
    found := fun i n hi hn => absurd (only i n hn) hi
    linked := (HashCons.linked_empty bits).add Node.terminal
    buckets_pos := by simpa only [HashCons.empty, HashCons.add, Array.size_replicate] using hpos _
    slots_pos := by simpa only [ComputedTable.empty, Array.size_replicate] using hpos _
    computed := fun c r hc => by simp at hc }

end Manager

end BrakeCheck
