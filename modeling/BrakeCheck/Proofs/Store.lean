import BrakeCheck.Diagram.Meaning
import BrakeCheck.Proofs.Growth

/-!
# Stores of diagrams grow and stay well-formed

What the operations that touch the store itself do to it: a value that is put into the table of
nodes is found there afterwards, all references keep their functions, and a node whose edges lead
down keeps the store well-formed.

## Main definitions

* `Manager.Addressable` — all nodes of a store fit the references.
* `Manager.InBounds` — no place outside its tables is looked at.
* `Manager.Joins` — a reference is one function where a variable holds and another one elsewhere.

## Main statements

* `HashCons.find?_put` — what can be found after a value has been put into a table.
* `Manager.WellFormed.put` — a store with one more node that fits is well-formed.
* `Manager.mkNode_spec` — the contract of making a node.
-/

namespace BrakeCheck

/-! ### Finding values again -/

namespace HashCons

variable {α : Type} [Hashed α]

section
variable [BEq α]

theorem fst_put_of_find?_none {t : HashCons α} {v : α} (h : t.find? v = none) :
    (t.put v).1 = t.size + 1 := by
  simp [put, h]

/-- A value that cannot be found gets the next index; all others stay where they are. -/
theorem value?_put_eq_ite {t : HashCons α} {v : α} (h : t.find? v = none) (i : Nat) :
    (t.put v).2.value? i = if i = t.size + 1 then some v else t.value? i := by
  rw [value?_put_of_find? h, value?_add]

/-- What stands in a table with one more value is the new value or an old one. -/
theorem of_value?_put {t : HashCons α} {v w : α} {i : Nat} (h : (t.put v).2.value? i = some w) :
    (i = t.size + 1 ∧ w = v) ∨ t.value? i = some w := by
  cases hfind : t.find? v with
  | some j =>
    rw [put_of_find? hfind] at h
    exact Or.inr h
  | none =>
    rw [value?_put_eq_ite hfind] at h
    split at h
    · next hi => exact Or.inl ⟨hi, (Option.some.inj h).symm⟩
    · exact Or.inr h

@[simp] theorem buckets_size_put (t : HashCons α) (v : α) :
    (t.put v).2.buckets.size = t.buckets.size := by
  cases h : t.find? v with
  | some i => rw [put_of_find? h]
  | none => simp [put, h, add]

/-- The bucket of a value after another value has been stored: only the bucket of the new value
has changed, and it begins with the new index. -/
theorem bucket_put {t : HashCons α} (hpos : 0 < t.buckets.size) {v : α} (h : t.find? v = none)
    (w : α) :
    (t.put v).2.buckets.getD ((t.put v).2.bucketOf w) [] =
      if t.bucketOf v = t.bucketOf w then (t.size + 1) :: t.buckets.getD (t.bucketOf w) []
      else t.buckets.getD (t.bucketOf w) [] := by
  have hbucket : (t.put v).2.bucketOf w = t.bucketOf w := by
    unfold bucketOf
    rw [buckets_size_put]
  have hlt : t.bucketOf w < t.buckets.size := Hashed.place_lt w hpos
  rw [hbucket, buckets_put_of_find? h]
  simp only [Array.getD_eq_getD_getElem?, Array.getElem?_modify]
  split <;> simp [hlt]

end

variable [DecidableEq α]

/-- Other values stand where they did after a value has been put into a table. -/
theorem value?_put_beq {t : HashCons α} {v w : α} (h : t.find? v = none) (hne : w ≠ v) (i : Nat) :
    ((t.put v).2.value? i == some w) = (t.value? i == some w) := by
  rw [value?_put_eq_ite h]
  split
  · next hi =>
    have hlast : t.value? i = none := by
      rw [← Option.not_isSome_iff_eq_none, isSome_value?_iff]
      omega
    rw [hlast, beq_eq_false_iff_ne.2 fun heq => hne (Option.some.inj heq).symm]
    rfl
  · rfl

/-- After a value has been put into a table it is found there, and so is whatever was found
before. -/
theorem find?_put {t : HashCons α} (hpos : 0 < t.buckets.size) (v w : α) :
    (t.put v).2.find? w = if w = v then some (t.put v).1 else t.find? w := by
  cases h : t.find? v with
  | some i =>
    rw [put_of_find? h]
    split
    · next heq => rw [heq, h]
    · rfl
  | none =>
    have hlast : t.value? (t.size + 1) = none := by
      rw [← Option.not_isSome_iff_eq_none, isSome_value?_iff]
      omega
    unfold find?
    rw [bucket_put hpos h]
    by_cases hw : w = v
    · -- the new index stands at the beginning of the bucket
      subst hw
      rw [if_pos rfl, if_pos rfl, fst_put_of_find?_none h, List.find?_cons_of_pos]
      rw [value?_put_eq_ite h, if_pos rfl, beq_self_eq_true]
    · -- the new index stands for another value, and the others stand for what they did
      simp only [hw, if_false, value?_put_beq h hw]
      split
      · simp [hlast]
      · rfl

/-- A value that stands under an index after another one has been put into the table is found there,
if it was found there before or was not there. -/
theorem find?_of_value?_put {t : HashCons α} (hpos : 0 < t.buckets.size) {v w : α} {i : Nat}
    (hfound : t.value? i = some w → t.find? w = some i) (hi : (t.put v).2.value? i = some w) :
    (t.put v).2.find? w = some i := by
  cases h : t.find? v with
  | some j =>
    rw [put_of_find? h] at hi ⊢
    exact hfound hi
  | none =>
    rw [find?_put hpos]
    rw [value?_put_eq_ite h] at hi
    split at hi
    · next hlast =>
      cases hi
      rw [if_pos rfl, fst_put_of_find?_none h, hlast]
    · have hw := hfound hi
      have hne : w ≠ v := by
        rintro rfl
        rw [h] at hw
        cases hw
      rw [if_neg hne, hw]

end HashCons

namespace Manager

/-! ### Growing stores -/

/-- All nodes of a store fit the references. -/
def Addressable (m : Manager) : Prop := m.nodes.size < Ref.indexRange

instance (m : Manager) : Decidable m.Addressable :=
  inferInstanceAs (Decidable (m.nodes.size < Ref.indexRange))

theorem size_le_of_extends {m old : Manager} (h : m.Extends old) :
    old.nodes.size ≤ m.nodes.size := by
  rcases Nat.eq_zero_or_pos old.nodes.size with hzero | hpos
  · omega
  · obtain ⟨n, hn⟩ := Option.isSome_iff_exists.1
      (HashCons.isSome_value?_iff.2 ⟨hpos, Nat.le_refl old.nodes.size⟩)
    have hsome : (m.nodes.value? old.nodes.size).isSome := by rw [h _ n hn]; rfl
    exact (HashCons.isSome_value?_iff.1 hsome).2

theorem Addressable.of_extends {m old : Manager} (h : m.Extends old) (hfit : m.Addressable) :
    old.Addressable :=
  Nat.lt_of_le_of_lt (size_le_of_extends h) hfit

instance : Growing Manager where
  Extends := Extends
  refl := Extends.refl
  trans := Extends.trans
  Addressable := Addressable
  addressable_of_extends := Addressable.of_extends

theorem Has.mono {m old : Manager} (h : m.Extends old) {r : Ref} (hr : old.Has r) : m.Has r := by
  obtain ⟨n, hn⟩ := Option.isSome_iff_exists.1 hr
  exact Option.isSome_iff_exists.2 ⟨n, h _ n hn⟩

theorem HasAll.mono {m old : Manager} (h : m.Extends old) {c : Choice} (hc : old.HasAll c) :
    m.HasAll c :=
  ⟨hc.test.mono h, hc.yes.mono h, hc.no.mono h⟩

theorem below_iff_of_extends {m old : Manager} (h : m.Extends old) {r : Ref} (hr : old.Has r)
    (v : Nat) : m.Below v r ↔ old.Below v r := by
  obtain ⟨n, hn⟩ := Option.isSome_iff_exists.1 hr
  simp only [Below, hn, h _ n hn]

theorem allBelow_iff_of_extends {m old : Manager} (h : m.Extends old) {c : Choice}
    (hc : old.HasAll c) (v : Nat) : m.AllBelow v c ↔ old.AllBelow v c := by
  constructor
  · intro hm
    exact ⟨(below_iff_of_extends h hc.test v).1 hm.test, (below_iff_of_extends h hc.yes v).1 hm.yes,
      (below_iff_of_extends h hc.no v).1 hm.no⟩
  · intro hm
    exact ⟨(below_iff_of_extends h hc.test v).2 hm.test, (below_iff_of_extends h hc.yes v).2 hm.yes,
      (below_iff_of_extends h hc.no v).2 hm.no⟩

theorem chooses_of_extends {m old : Manager} (wf : old.WellFormed) (h : m.Extends old)
    {c : Choice} (hc : old.HasAll c) (a : Nat → Bool) : m.chooses a c = old.chooses a c := by
  unfold chooses
  rw [holds_of_extends wf h a hc.test, holds_of_extends wf h a hc.yes,
    holds_of_extends wf h a hc.no]

/-- The result of a choice stays its result. -/
theorem Answers.mono {m old : Manager} (wf : old.WellFormed) (h : m.Extends old) {c : Choice}
    (hc : old.HasAll c) {r : Ref} (hr : old.Answers c r) : m.Answers c r where
  has := hr.has.mono h
  below v hv := (below_iff_of_extends h hr.has v).2
    (hr.below v ((allBelow_iff_of_extends h hc v).1 hv))
  meaning a := by
    rw [holds_of_extends wf h a hr.has, chooses_of_extends wf h hc, hr.meaning]

/-! ### Stores with the same nodes -/

/-- The functions of references depend on the nodes alone. -/
theorem holds_congr {m n : Manager} (h : n.nodes = m.nodes) (a : Nat → Bool) (r : Ref) :
    n.holds a r = m.holds a r := by
  induction hk : r.height using Nat.strongRecOn generalizing r with
  | _ k ih =>
    subst hk
    rw [holds, holds, h]
    congr 1
    split
    · rfl
    · cases m.nodes.value? r.index with
      | none => rfl
      | some d =>
        by_cases hlt : (if a d.var then d.high else d.low).height < r.height
        · simp only [hlt, if_true, ih _ hlt _ rfl]
        · simp only [hlt, if_false]

theorem chooses_congr {m n : Manager} (h : n.nodes = m.nodes) (a : Nat → Bool) (c : Choice) :
    n.chooses a c = m.chooses a c := by
  simp only [chooses, holds_congr h]

theorem Has.congr {m n : Manager} (h : n.nodes = m.nodes) {r : Ref} (hr : m.Has r) : n.Has r := by
  unfold Has
  rw [h]
  exact hr

theorem Below.congr {m n : Manager} (h : n.nodes = m.nodes) {v : Nat} {r : Ref}
    (hr : m.Below v r) : n.Below v r := by
  unfold Below
  rw [h]
  exact hr

theorem AllBelow.congr {m n : Manager} (h : n.nodes = m.nodes) {v : Nat} {c : Choice}
    (hc : m.AllBelow v c) : n.AllBelow v c :=
  ⟨hc.test.congr h, hc.yes.congr h, hc.no.congr h⟩

theorem HasAll.congr {m n : Manager} (h : n.nodes = m.nodes) {c : Choice} (hc : m.HasAll c) :
    n.HasAll c :=
  ⟨hc.test.congr h, hc.yes.congr h, hc.no.congr h⟩

theorem Answers.congr {m n : Manager} (h : n.nodes = m.nodes) {c : Choice} {r : Ref}
    (hr : m.Answers c r) : n.Answers c r where
  has := hr.has.congr h
  below v hv := (hr.below v (hv.congr h.symm)).congr h
  meaning a := by rw [holds_congr h, chooses_congr h, hr.meaning]

theorem Fits.congr {m n : Manager} (h : n.nodes = m.nodes) {i : Nat} {d : Node}
    (hd : m.Fits i d) : n.Fits i d :=
  { hd with
    var_lt_low := Below.congr h hd.var_lt_low
    var_lt_high := Below.congr h hd.var_lt_high }

theorem extends_of_nodes_eq {m n : Manager} (h : n.nodes = m.nodes) : n.Extends m := by
  intro i d hd
  rw [h]
  exact hd

/-- Of the computed results only what is found matters; the journal, and the numbers of hits and
misses, have no part in what a store stands for. -/
theorem WellFormed.congr {m n : Manager} (wf : m.WellFormed) (hnodes : n.nodes = m.nodes)
    (hslots : 0 < n.computed.slots.size)
    (hcomputed : ∀ c r, n.computed.find? c = some r → m.HasAll c ∧ m.Answers c r) :
    n.WellFormed where
  terminal := by rw [hnodes]; exact wf.terminal
  fits i d hi hd := by
    rw [hnodes] at hd
    exact (wf.fits i d hi hd).congr hnodes
  found i d hi hd := by
    rw [hnodes] at hd ⊢
    exact wf.found i d hi hd
  linked := by rw [hnodes]; exact wf.linked
  buckets_pos := by rw [hnodes]; exact wf.buckets_pos
  slots_pos := hslots
  computed c r hc := by
    obtain ⟨hall, hanswers⟩ := hcomputed c r hc
    exact ⟨hall.congr hnodes, hanswers.congr hnodes⟩

/-- A store with another journal. -/
theorem WellFormed.withJournal {m : Manager} (wf : m.WellFormed) (journal : Journal) :
    ({ m with journal } : Manager).WellFormed :=
  wf.congr rfl wf.slots_pos wf.computed

theorem note_grows (level : Level) (origin : Origin) (text : Thunk String) :
    Step.Grows (note level origin text) := fun m => Extends.refl m

theorem noteAll_grows (level : Level) (origin : Origin) (texts : Thunk (List String)) :
    Step.Grows (noteAll level origin texts) := fun m => Extends.refl m

/-- A report leaves everything but the journal as it is. -/
theorem note_spec {α : Type} {m : Manager} (wf : m.WellFormed) (level : Level) (origin : Origin)
    (text : Thunk String) {next : Unit → Step Manager α} {Q : α → Manager → Prop}
    (h : ∀ t : Manager, t.WellFormed → t.nodes = m.nodes → Step.Yields (next ()) t Q) :
    Step.Yields (note level origin text >>= next) m Q :=
  Step.Yields.after rfl (Extends.refl m) (h _ (wf.withJournal _) rfl)

/-! ### References of a well-formed store -/

theorem WellFormed.has_one {m : Manager} (wf : m.WellFormed) : m.Has .one := by
  show (m.nodes.value? Ref.terminal).isSome
  rw [wf.terminal]
  rfl

theorem WellFormed.has_zero {m : Manager} (wf : m.WellFormed) : m.Has .zero := wf.has_one

theorem below_one (m : Manager) (v : Nat) : m.Below v .one := fun _ h => absurd rfl h

theorem below_zero (m : Manager) (v : Nat) : m.Below v .zero := fun _ h => absurd rfl h

@[simp] theorem has_neg {m : Manager} {r : Ref} : m.Has (-r) ↔ m.Has r := Iff.rfl

@[simp] theorem below_neg {m : Manager} {v : Nat} {r : Ref} : m.Below v (-r) ↔ m.Below v r :=
  Iff.rfl

@[simp] theorem has_flipIf {m : Manager} {r : Ref} {flip : Bool} :
    m.Has (r.flipIf flip) ↔ m.Has r := by
  cases flip <;> rfl

@[simp] theorem below_flipIf {m : Manager} {v : Nat} {r : Ref} {flip : Bool} :
    m.Below v (r.flipIf flip) ↔ m.Below v r := by
  cases flip <;> rfl

theorem Below.of_le {m : Manager} {u v : Nat} {r : Ref} (h : m.Below v r) (huv : u ≤ v) :
    m.Below u r :=
  fun d hr hd => Nat.lt_of_le_of_lt huv (h d hr hd)

/-- The places of a store are inside its tables: nodes have buckets, choices have slots, and what a
bucket holds are indices of nodes. -/
structure InBounds (m : Manager) : Prop where
  bucket_lt : ∀ n, m.nodes.bucketOf n < m.nodes.bucketCount
  linked : m.nodes.Linked
  slot_lt : ∀ c, m.computed.slotOf c < m.computed.slots.size

theorem WellFormed.inBounds {m : Manager} (wf : m.WellFormed) : m.InBounds where
  bucket_lt n := Hashed.place_lt n wf.buckets_pos
  linked := wf.linked
  slot_lt c := Hashed.place_lt c wf.slots_pos

/-- No two nodes of a store are equal. -/
theorem WellFormed.distinct {m : Manager} (wf : m.WellFormed) {i j : Nat} {n : Node}
    (hi : m.nodes.value? i = some n) (hj : m.nodes.value? j = some n) : i = j := by
  -- only the node of the constants has no variable, so it is no other node
  have terminal_eq : ∀ k, m.nodes.value? k = some Node.terminal → k = Ref.terminal := by
    intro k hk
    by_cases hterminal : k = Ref.terminal
    · exact hterminal
    · exact absurd (wf.fits k _ hterminal hk).var_pos (Nat.lt_irrefl 0)
  by_cases hti : i = Ref.terminal
  · rw [hti, wf.terminal, Option.some.injEq] at hi
    rw [hti, terminal_eq j (by rw [hj, hi])]
  · by_cases htj : j = Ref.terminal
    · rw [htj, wf.terminal, Option.some.injEq] at hj
      exact absurd (terminal_eq i (by rw [hi, hj])) hti
    · have heq := (wf.found i n hti hi).symm.trans (wf.found j n htj hj)
      exact Option.some.inj heq

/-! ### One more node -/

/-- What a node needs in a store to fit the next index of it. -/
structure CanBranch (m : Manager) (v : Nat) (low high : Ref) : Prop where
  var_pos : 0 < v
  has_low : m.Has low
  has_high : m.Has high
  below_low : m.Below v low
  below_high : m.Below v high

/-- The reference `r` is the function that is `high` where the variable `v` is true and `low`
where it is false, and it stands as low as such a function can. -/
structure Joins (m : Manager) (v : Nat) (low high r : Ref) : Prop where
  has : m.Has r
  below : ∀ u, u < v → m.Below u r
  meaning : ∀ a, m.holds a r = bif a v then m.holds a high else m.holds a low

theorem CanBranch.neg {m : Manager} {v : Nat} {low high : Ref} (h : m.CanBranch v low high) :
    m.CanBranch v (-low) (-high) :=
  ⟨h.var_pos, h.has_low, h.has_high, h.below_low, h.below_high⟩

theorem CanBranch.congr {m n : Manager} (hnodes : n.nodes = m.nodes) {v : Nat} {low high : Ref}
    (h : m.CanBranch v low high) : n.CanBranch v low high :=
  ⟨h.var_pos, h.has_low.congr hnodes, h.has_high.congr hnodes, h.below_low.congr hnodes,
    h.below_high.congr hnodes⟩

theorem Joins.neg {m : Manager} {v : Nat} {low high r : Ref} (h : m.Joins v (-low) (-high) r) :
    m.Joins v low high (-r) where
  has := h.has
  below := h.below
  meaning a := by
    rw [holds_neg, h.meaning]
    cases a v <;> simp

theorem Has.index_pos {m : Manager} {r : Ref} (h : m.Has r) : 0 < r.index :=
  (HashCons.isSome_value?_iff.1 h).1

theorem Has.index_le {m : Manager} {r : Ref} (h : m.Has r) : r.index ≤ m.nodes.size :=
  (HashCons.isSome_value?_iff.1 h).2

/-- The edges of a node that fits lead to nodes of the store. -/
theorem Fits.has_low {m : Manager} {i : Nat} {n : Node} (h : m.Fits i n)
    (hi : i ≤ m.nodes.size + 1) : m.Has n.low := by
  have hlt := h.low_lt
  exact HashCons.isSome_value?_iff.2 ⟨h.low_pos, by omega⟩

theorem Fits.has_high {m : Manager} {i : Nat} {n : Node} (h : m.Fits i n)
    (hi : i ≤ m.nodes.size + 1) : m.Has n.high := by
  have hlt := h.high_lt
  exact HashCons.isSome_value?_iff.2 ⟨h.high_pos, by omega⟩

/-- A node that fits an index still fits it in a store with more nodes. -/
theorem Fits.mono {m old : Manager} (hext : m.Extends old) {i : Nat} {n : Node}
    (h : old.Fits i n) (hi : i ≤ old.nodes.size + 1) : m.Fits i n :=
  { h with
    var_lt_low := (below_iff_of_extends hext (h.has_low hi) n.var).2 h.var_lt_low
    var_lt_high := (below_iff_of_extends hext (h.has_high hi) n.var).2 h.var_lt_high }

/-- The store with one more value in the table of its nodes. -/
def put (m : Manager) (n : Node) : Manager := { m with nodes := (m.nodes.put n).2 }

theorem put_extends (m : Manager) (n : Node) : (m.put n).Extends m :=
  fun _ _ h => HashCons.value?_put_of_value? h n

/-- A store with one more node that fits is well-formed. -/
theorem WellFormed.put {m : Manager} (wf : m.WellFormed) {n : Node}
    (hn : m.Fits (m.nodes.size + 1) n) : (m.put n).WellFormed where
  terminal := put_extends m n _ _ wf.terminal
  fits := by
    intro i d hi hd
    rcases HashCons.of_value?_put hd with ⟨rfl, rfl⟩ | hold
    · exact hn.mono (put_extends m d) (Nat.le_refl _)
    · have hle := (HashCons.isSome_value?_iff.1 (Option.isSome_of_eq_some hold)).2
      exact (wf.fits i d hi hold).mono (put_extends m n) (Nat.le_succ_of_le hle)
  found i d hi hd := HashCons.find?_of_value?_put wf.buckets_pos (wf.found i d hi) hd
  linked := wf.linked.put n
  buckets_pos := by
    show 0 < (m.nodes.put n).2.buckets.size
    rw [HashCons.buckets_size_put]
    exact wf.buckets_pos
  slots_pos := wf.slots_pos
  computed := by
    intro c r hc
    obtain ⟨hall, hanswers⟩ := wf.computed c r hc
    exact ⟨hall.mono (put_extends m n), hanswers.mono wf (put_extends m n) hall⟩

/-- A node that can be made fits the next index. -/
theorem CanBranch.fits {m : Manager} {v : Nat} {low high : Ref} (h : m.CanBranch v low high)
    (hregular : high.negated = false) (hne : low ≠ high) :
    m.Fits (m.nodes.size + 1) ⟨v, low, high⟩ where
  var_pos := h.var_pos
  low_pos := h.has_low.index_pos
  low_lt := Nat.lt_succ_of_le h.has_low.index_le
  high_pos := h.has_high.index_pos
  high_lt := Nat.lt_succ_of_le h.has_high.index_le
  low_ne_high := hne
  high_regular := hregular
  var_lt_low := h.below_low
  var_lt_high := h.below_high

/-- A node that is found is not made again. -/
theorem perform_share_of_find? {m : Manager} {v : Nat} {low high : Ref} (hne : low ≠ high) {i : Nat}
    (h : m.nodes.find? ⟨v, low, high⟩ = some i) :
    (share v low high).perform m = (.ok (Ref.of i false), m) := by
  unfold share
  rw [if_neg hne, Step.perform_modifyGet, HashCons.put_of_find? h]

theorem share_grows (v : Nat) (low high : Ref) : Step.Grows (share v low high) :=
  Step.Grows.ite (Step.Grows.pure _) fun m => put_extends m ⟨v, low, high⟩

/-- The contract of sharing a node. -/
theorem share_spec {m : Manager} (wf : m.WellFormed) {v : Nat} {low high : Ref}
    (h : m.CanBranch v low high) (hregular : high.negated = false) :
    Step.Yields (share v low high) m fun r t => t.WellFormed ∧ t.Joins v low high r := by
  unfold share
  split
  · next heq =>
    refine Step.Yields.pure ⟨wf, h.has_low, fun u hu => h.below_low.of_le (Nat.le_of_lt hu), ?_⟩
    intro a
    rw [heq, Bool.cond_self]
  · next hne =>
    intro hfit
    let n : Node := ⟨v, low, high⟩
    have hfits : m.Fits (m.nodes.size + 1) n := h.fits hregular hne
    have wf' := wf.put hfits
    have hvalue : (m.put n).nodes.value? (m.nodes.put n).1 = some n :=
      HashCons.value?_put_self m.nodes n
    -- the index is small enough for a reference, since the store can be addressed
    have hle := (HashCons.isSome_value?_iff.1 (Option.isSome_of_eq_some hvalue)).2
    have hlt : (m.nodes.put n).1 < Ref.indexRange := Nat.lt_of_le_of_lt hle hfit
    have href : Ref.of (m.nodes.put n).1 false = ⟨(m.nodes.put n).1, false⟩ := by
      rw [Ref.of, Nat.mod_eq_of_lt hlt]
    -- the terminal has no variable, so the node is another one
    have hterminal : (m.nodes.put n).1 ≠ Ref.terminal := by
      intro heq
      rw [heq, wf'.terminal, Option.some.injEq] at hvalue
      have hvar : 0 = v := congrArg Node.var hvalue
      exact absurd h.var_pos (by omega)
    have hnode := wf'.fits _ n hterminal hvalue
    refine ⟨⟨(m.nodes.put n).1, false⟩, m.put n, ?_, put_extends m n, wf', ?_, ?_, ?_⟩
    · rw [← href]
      rfl
    · exact Option.isSome_of_eq_some hvalue
    · intro u hu d _ hd
      have hd' : some n = some d := hvalue.symm.trans hd
      rw [← Option.some.inj hd']
      exact hu
    · intro a
      rw [holds_node hterminal hvalue hnode.low_lt hnode.high_lt, Bool.false_xor]

theorem mkNode_of_pos {v : Nat} (hv : 0 < v) (low high : Ref) :
    mkNode v low high = (do
      noteNode v low high
      if high.negated then
        noteNode v (-low) (-high)
        return -(← share v (-low) (-high))
      else share v low high) := by
  have hne : v ≠ 0 := by omega
  simp [mkNode, hne]

theorem mkNode_grows (v : Nat) (low high : Ref) : Step.Grows (mkNode v low high) := by
  by_cases hv : v = 0
  · subst hv
    exact (note_grows _ _ _).bind fun _ => (Step.Grows.throw _).bind fun _ => by
      dsimp only
      split
      · exact (note_grows _ _ _).bind fun _ => (share_grows _ _ _).bind fun _ =>
          Step.Grows.pure _
      · exact share_grows _ _ _
  · rw [mkNode_of_pos (Nat.pos_of_ne_zero hv)]
    refine (note_grows _ _ _).bind fun _ => Step.Grows.ite ?_ (share_grows _ _ _)
    exact (note_grows _ _ _).bind fun _ => (share_grows _ _ _).bind fun _ => Step.Grows.pure _

/-- The contract of making a node. -/
theorem mkNode_spec {m : Manager} (wf : m.WellFormed) {v : Nat} {low high : Ref}
    (h : m.CanBranch v low high) :
    Step.Yields (mkNode v low high) m fun r t => t.WellFormed ∧ t.Joins v low high r := by
  rw [mkNode_of_pos h.var_pos]
  refine note_spec wf _ _ _ fun t wft hnodes => ?_
  have ht := h.congr hnodes
  split
  · next hneg =>
    -- a complemented high edge: the complement of the function is stored
    refine note_spec wft _ _ _ fun u wfu hnodes' => ?_
    have hregular : (-high).negated = false := by rw [Ref.neg_negated, hneg]; rfl
    refine (share_spec wfu (ht.congr hnodes').neg hregular).bind
      (fun _ => Step.Grows.pure _) fun r w _ ⟨wfw, hjoins⟩ => ?_
    exact Step.Yields.pure ⟨wfw, hjoins.neg⟩
  · next hneg => exact share_spec wft ht (by simpa using hneg)

theorem mkVar_grows (v : Nat) : Step.Grows (mkVar v) := by
  by_cases hv : v = 0
  · subst hv
    exact (Step.Grows.throw _).bind fun _ => mkNode_grows _ _ _
  · simp only [mkVar, hv, if_false]
    exact mkNode_grows _ _ _

end Manager

end BrakeCheck
