import BrakeCheck.HashCons.Chained
import BrakeCheck.Proofs.Sharing

/-!
# Chains in one array

The buckets of a table, laid out as chains in one array, are the same buckets read from the other
end: a chain begins with the oldest index of its bucket and rises to the newest one.  So it does not
run in a circle, and a walk along it ends.  Different chains have no entry in common, because a
value belongs in one bucket, so that the link to a new entry lengthens one chain and leaves the
others as they are.  By induction on a run the table in one array hands out the same indices as the
table with lists for buckets, and it always does; at every moment it holds the same values.

## Main definitions

* `Chained.Chain` — the indices that links lead to, from an entry on.
* `Chained.Represents` — a table in one array has the values and the buckets of another table.

## Main statements

* `Chained.Chain.putFrom_eq` — where a walk along a chain ends.
* `Chained.Represents.put` — putting a value into a table in one array.
* `HashCons.answers_of_requests` — the law of hash consing over whole runs.
-/

namespace BrakeCheck

namespace Chained

variable {α : Type}

/-- From an index on, the links lead to the members of a list, one after the other, and end
there. -/
inductive Chain (t : Chained α) : Nat → List Nat → Prop where
  | nil : Chain t 0 []
  | cons {i : Nat} {e : Entry α} {is : List Nat} (entry : t.at? i = some e)
    (rest : Chain t e.next is) : Chain t i (i :: is)

variable {c d : Chained α} {i j k : Nat} {is : List Nat} {v : α}

/-! ### Entries -/

/-- The new entry stands under the next index. -/
theorem at?_add (c : Chained α) (v : α) (k : Nat) :
    (c.add v).2.at? k = if k = c.entries.size + 1 then some ⟨v, 0⟩ else c.at? k := by
  cases k with
  | zero => rfl
  | succ k => simp [add, at?, Array.getElem?_push]

/-- A link changes the entry from which it leads away, and no value. -/
theorem at?_link (c : Chained α) (hi : 0 < i) (j k : Nat) :
    (c.link i j).at? k =
      if k = i then (c.at? i).map fun e => { e with next := j } else c.at? k := by
  obtain ⟨i, rfl⟩ := Nat.exists_eq_succ_of_ne_zero (Nat.ne_of_gt hi)
  cases k with
  | zero => rfl
  | succ k =>
    simp only [link, at?, Nat.succ_eq_add_one, Nat.add_sub_cancel, Array.getElem?_modify,
      Nat.add_right_cancel_iff, eq_comm (a := i)]
    split
    · next heq => rw [heq]
    · rfl

/-! ### Chains -/

/-- A chain that begins nowhere is empty. -/
theorem Chain.eq_nil (h : c.Chain 0 is) : is = [] := by
  cases h with
  | nil => rfl
  | cons entry _ => cases entry

theorem Chain.eq_zero (h : c.Chain i []) : i = 0 := by
  cases h
  rfl

/-- A chain stays one as long as nothing happens to its entries. -/
theorem Chain.frame (h : c.Chain i is) (hsame : ∀ k ∈ is, d.at? k = c.at? k) :
    d.Chain i is := by
  induction h with
  | nil => exact .nil
  | cons entry _ ih =>
    exact .cons ((hsame _ List.mem_cons_self).trans entry)
      (ih fun k hk => hsame k (List.mem_cons_of_mem _ hk))

/-- A chain without repetitions is longer by one entry when a new one is linked to its end. -/
theorem Chain.snoc (h : c.Chain i is) (hnil : is ≠ []) (hnodup : is.Nodup) {n : Nat}
    (hn : d.at? n = some ⟨v, 0⟩)
    (hlast : d.at? (is.getLast hnil) =
      (c.at? (is.getLast hnil)).map fun e => { e with next := n })
    (hsame : ∀ k ∈ is, k ≠ is.getLast hnil → d.at? k = c.at? k) :
    d.Chain i (is ++ [n]) := by
  induction h with
  | nil => exact absurd rfl hnil
  | @cons i e is entry rest ih =>
    cases is with
    | nil =>
      have hd : d.at? i = some { e with next := n } := by
        rw [List.getLast_singleton, entry] at hlast
        exact hlast
      exact .cons hd (.cons hn .nil)
    | cons k is =>
      have hlast' : (i :: k :: is).getLast hnil = (k :: is).getLast (List.cons_ne_nil k is) :=
        List.getLast_cons (List.cons_ne_nil k is)
      rw [hlast'] at hlast
      simp only [hlast'] at hsame
      obtain ⟨hfresh, hnodup⟩ := List.nodup_cons.1 hnodup
      -- the end of the chain is not its beginning, which therefore stays as it is
      have hne : i ≠ (k :: is).getLast (List.cons_ne_nil k is) := fun heq =>
        hfresh (heq ▸ List.getLast_mem _)
      exact .cons ((hsame i List.mem_cons_self hne).trans entry)
        (ih _ hnodup hlast fun l hl => hsame l (List.mem_cons_of_mem i hl))

/-- The entry with an index has a value equal to `v`. -/
def agrees [BEq α] (c : Chained α) (v : α) (i : Nat) : Bool :=
  (c.at? i).any fun e => e.value == v

/-- A walk along a chain ends: at the first entry that agrees, or else behind the last one, where
a new entry is linked to it. -/
theorem Chain.putFrom_eq [BEq α] (h : c.Chain i is) (hnil : is ≠ []) :
    c.putFrom v i = match is.find? (c.agrees v) with
      | some j => pure (j, c)
      | none => pure (c.entries.size + 1,
          (c.add v).2.link (is.getLast hnil) (c.entries.size + 1)) := by
  induction h with
  | nil => exact absurd rfl hnil
  | @cons i e is entry rest ih =>
    have hagrees : c.agrees v i = (e.value == v) := by rw [agrees, entry, Option.any_some]
    have hstep : c.putStep v i = if e.value == v then .inl (.ok (i, c))
        else if e.next = 0 then .inl (.ok (c.entries.size + 1,
          (c.add v).2.link i (c.entries.size + 1))) else .inr e.next := by
      rw [putStep, entry]
      rfl
    rw [List.find?_cons, hagrees]
    cases heq : e.value == v with
    | true =>
      rw [heq, if_pos rfl] at hstep
      exact putFrom_of_inl hstep
    | false =>
      rw [heq, if_neg Bool.false_ne_true] at hstep
      cases is with
      | nil =>
        rw [if_pos rest.eq_zero] at hstep
        exact putFrom_of_inl hstep
      | cons k is =>
        have hnext : e.next ≠ 0 := fun hzero => List.cons_ne_nil k is (Chain.eq_nil (hzero ▸ rest))
        rw [if_neg hnext] at hstep
        dsimp only
        rw [putFrom_of_inr hstep, ih (List.cons_ne_nil k is),
          List.getLast_cons (List.cons_ne_nil k is)]

/-! ### The same table, laid out twice -/

/-- A table in one array has the values of another table, and its chains are the buckets of that
from the oldest index to the newest one. -/
structure Represents [Hashed α] (c : Chained α) (t : HashCons α) : Prop where
  size_eq : c.entries.size = t.size
  value?_eq : ∀ i, (c.at? i).map Entry.value = t.value? i
  bucketOf_eq : ∀ v, c.bucketOf v = t.bucketOf v
  chain : ∀ (b : Nat) is, t.buckets[b]? = some is → ∃ i, c.heads[b]? = some i ∧ c.Chain i is.reverse

variable [Hashed α]

theorem represents_empty {bits : Nat} (hbits : bits ≤ 24) :
    (empty bits : Chained α).Represents (HashCons.empty bits) where
  size_eq := rfl
  value?_eq i := by
    cases i with
    | zero => rfl
    | succ i => rfl
  bucketOf_eq v := by
    rw [HashCons.bucketOf, HashCons.empty, Array.size_replicate]
    exact Hashed.toNat_and_mask hbits v
  chain b is hb := by
    simp only [HashCons.empty, Array.getElem?_replicate] at hb
    split at hb
    · next hlt =>
      cases hb
      exact ⟨0, by rw [empty, Array.getElem?_replicate, if_pos hlt], .nil⟩
    · cases hb

variable {t : HashCons α}

/-- A value that is only added is on no chain. -/
theorem Represents.add (h : c.Represents t) (hlinked : t.Linked) (v : α) :
    (c.add v).2.Represents (t.add v).2 where
  size_eq := by
    rw [HashCons.size_add, ← h.size_eq]
    exact Array.size_push _
  value?_eq i := by
    rw [at?_add, HashCons.value?_add, h.size_eq]
    split
    · rfl
    · exact h.value?_eq i
  bucketOf_eq := h.bucketOf_eq
  chain b is hb := by
    obtain ⟨i, hi, hchain⟩ := h.chain b is hb
    refine ⟨i, hi, hchain.frame fun k hk => ?_⟩
    have hle := (hlinked.le_size ⟨b, is, hb, List.mem_reverse.1 hk⟩).2
    rw [at?_add, if_neg (by rw [h.size_eq]; omega)]

variable [BEq α]

theorem Represents.agrees_eq (h : c.Represents t) (v : α) (i : Nat) :
    c.agrees v i = (t.value? i == some v) := by
  rw [← h.value?_eq, agrees]
  cases c.at? i with
  | none => rfl
  | some e => rfl

/-- A new value has been filed at the end of the chain of its bucket `is`, and nothing has happened
to other chains. -/
theorem Represents.file (h : c.Represents t) (ht : t.Filed) {v : α} (hnone : t.find? v = none)
    (hb : t.buckets[t.bucketOf v]? = some is) (hsize : d.entries.size = t.size + 1)
    (hvalues : ∀ k, (d.at? k).map Entry.value = ((c.add v).2.at? k).map Entry.value)
    (hmask : d.mask = c.mask) (hheads : ∀ b, t.bucketOf v ≠ b → d.heads[b]? = c.heads[b]?)
    (hframe : ∀ k, t.Files k → k ∉ is → d.at? k = c.at? k)
    (hchain : ∃ i, d.heads[t.bucketOf v]? = some i ∧ d.Chain i (is.reverse ++ [t.size + 1])) :
    d.Represents (t.put v).2 where
  size_eq := by rw [hsize, HashCons.size_put_of_find? hnone]
  value?_eq i := by
    rw [hvalues, HashCons.value?_put_of_find? hnone]
    exact (h.add ht.linked v).value?_eq i
  bucketOf_eq w := by
    rw [HashCons.bucketOf_put, ← h.bucketOf_eq, bucketOf, bucketOf, hmask]
  chain b js hjs := by
    rw [HashCons.getElem?_buckets_put hnone] at hjs
    split at hjs
    · next hbucket =>
      obtain ⟨ks, hks, rfl⟩ := Option.map_eq_some_iff.1 hjs
      cases hbucket
      cases hb.symm.trans hks
      rw [List.reverse_cons]
      exact hchain
    · next hbucket =>
      obtain ⟨i, hi, hother⟩ := h.chain b js hjs
      refine ⟨i, (hheads b hbucket).trans hi, hother.frame fun k hk => ?_⟩
      have hk := List.mem_reverse.1 hk
      exact hframe k ⟨b, js, hjs, hk⟩ fun hmem => hbucket (ht.bucket_unique hb hmem hjs hk)

/-- A value whose bucket is empty begins a chain. -/
theorem Represents.put_first (h : c.Represents t) (ht : t.Filed) {v : α}
    (hb : t.buckets[t.bucketOf v]? = some []) (hnone : t.find? v = none) :
    { (c.add v).2 with
      heads := c.heads.setIfInBounds (t.bucketOf v) (c.entries.size + 1) }.Represents
        (t.put v).2 := by
  obtain ⟨i, hhead, -⟩ := h.chain _ [] hb
  have hlt : t.bucketOf v < c.heads.size := (Array.getElem?_eq_some_iff.1 hhead).1
  refine h.file ht hnone hb ?_ (fun _ => rfl) rfl (fun b hne => ?_) (fun k hk _ => ?_)
    ⟨c.entries.size + 1, ?_, ?_⟩
  · rw [← h.size_eq]
    exact Array.size_push _
  · exact Array.getElem?_setIfInBounds_ne hne
  · have hle := (ht.linked.le_size hk).2
    exact (at?_add c v k).trans (if_neg (by rw [h.size_eq]; omega))
  · exact Array.getElem?_setIfInBounds_self_of_lt hlt
  · rw [← h.size_eq]
    exact .cons ((at?_add c v _).trans (if_pos rfl)) .nil

/-- A value that is not on the chain of its bucket is linked to the end of it. -/
theorem Represents.put_last (h : c.Represents t) (ht : t.Filed) {v : α}
    (hb : t.buckets[t.bucketOf v]? = some is) (hnone : t.find? v = none)
    (hnil : is.reverse ≠ []) :
    ((c.add v).2.link (is.reverse.getLast hnil) (c.entries.size + 1)).Represents (t.put v).2 := by
  have hfiles : ∀ k ∈ is.reverse, 0 < k ∧ k ≤ t.size := fun k hk =>
    ht.linked.le_size ⟨_, is, hb, List.mem_reverse.1 hk⟩
  have hlast := hfiles _ (List.getLast_mem hnil)
  obtain ⟨i, hhead, hchain⟩ := h.chain _ is hb
  have hentry := at?_link (c.add v).2 hlast.1 (c.entries.size + 1)
  have hold : ∀ k, k ≤ t.size → (c.add v).2.at? k = c.at? k := fun k hk =>
    (at?_add c v k).trans (if_neg (by rw [h.size_eq]; omega))
  refine h.file ht hnone hb ?_ (fun k => ?_) rfl (fun _ _ => rfl) (fun k hk hother => ?_)
    ⟨i, hhead, ?_⟩
  · rw [← h.size_eq]
    exact (Array.size_modify).trans (Array.size_push _)
  · rw [hentry]
    split
    · next heq =>
      rw [heq, Option.map_map]
      rfl
    · rfl
  · have hne : k ≠ is.reverse.getLast hnil := by
      rintro rfl
      exact hother (List.mem_reverse.1 (List.getLast_mem hnil))
    rw [hentry, if_neg hne, hold k (ht.linked.le_size hk).2]
  · rw [← h.size_eq]
    have hnodup : is.reverse.Nodup := List.pairwise_reverse.2
      ((ht.falling _ is hb).imp fun hlt => Nat.ne_of_lt hlt)
    refine hchain.snoc (v := v) hnil hnodup ?_ ?_ fun k hk hne => ?_
    · rw [hentry, if_neg (by rw [h.size_eq]; omega), at?_add, if_pos rfl]
    · rw [hentry, if_pos rfl, hold _ hlast.2]
    · rw [hentry, if_neg hne, hold k (hfiles k hk).2]

section
variable [EquivBEq α] [LawfulHashed α]

/-- Read from either end, a bucket has the same index for a value, since it has at most one. -/
theorem Represents.find?_eq (h : c.Represents t) (ht : t.Filed) {v : α}
    (hb : t.buckets[t.bucketOf v]? = some is) : is.reverse.find? (c.agrees v) = t.find? v := by
  cases hfind : is.reverse.find? (c.agrees v) with
  | some j =>
    have hj := List.mem_reverse.1 (List.mem_of_find?_eq_some hfind)
    have hagrees := List.find?_some hfind
    rw [h.agrees_eq] at hagrees
    exact (ht.find?_eq_some_iff.2 ⟨⟨_, is, hb, hj⟩, HashCons.value?_beq_iff.1 hagrees⟩).symm
  | none =>
    rw [HashCons.find?_eq_of_bucket hb]
    refine (List.find?_eq_none.2 fun j hj => ?_).symm
    rw [← h.agrees_eq]
    exact List.find?_eq_none.1 hfind j (List.mem_reverse.2 hj)

/-- Putting a value into a table in one array comes to an end without a fault, and does what it does
in the other layout. -/
theorem Represents.put (h : c.Represents t) (ht : t.Filed) (v : α) :
    ∃ d, c.put v = pure ((t.put v).1, d) ∧ d.Represents (t.put v).2 := by
  obtain ⟨is, hb⟩ := HashCons.exists_bucket ht.buckets_pos v
  obtain ⟨i, hhead, hchain⟩ := h.chain _ is hb
  have hfind := h.find?_eq ht hb
  unfold Chained.put
  dsimp only
  rw [h.bucketOf_eq, hhead]
  cases i with
  | zero =>
    have hnil : is = [] := List.reverse_eq_nil_iff.1 hchain.eq_nil
    subst hnil
    have hnone : t.find? v = none := hfind.symm
    refine ⟨_, ?_, h.put_first ht hb hnone⟩
    rw [HashCons.fst_put_of_find?_none hnone, ← h.size_eq]
    rfl
  | succ i =>
    have hnil : is.reverse ≠ [] := fun heq => by
      rw [heq] at hchain
      exact absurd hchain.eq_zero (Nat.succ_ne_zero i)
    have hwalk := hchain.putFrom_eq (v := v) hnil
    rw [hfind] at hwalk
    cases hv : t.find? v with
    | some j =>
      rw [hv] at hwalk
      rw [HashCons.put_of_find? hv]
      exact ⟨c, hwalk, h⟩
    | none =>
      rw [hv] at hwalk
      refine ⟨_, ?_, h.put_last ht hb hv hnil⟩
      rw [HashCons.fst_put_of_find?_none hv, ← h.size_eq]
      exact hwalk

end

/-! ### Requests -/

/-- Serves a request; the answer is the index for its value. -/
def serve (c : Chained α) : HashCons.Request α → Walk (Nat × Chained α)
  | .put v => c.put v
  | .add v => pure (c.add v)

/-- Serves requests one after the other. -/
def serveAll (c : Chained α) : List (HashCons.Request α) → Walk (List Nat × Chained α)
  | [] => pure ([], c)
  | r :: rs => do
    let (i, c) ← c.serve r
    let (is, c) ← c.serveAll rs
    return (i :: is, c)

section
variable [EquivBEq α] [LawfulHashed α]

theorem Represents.serve (h : c.Represents t) (ht : t.Filed) (r : HashCons.Request α) :
    ∃ d, c.serve r = pure ((t.serve r).1, d) ∧ d.Represents (t.serve r).2 := by
  cases r with
  | put v => exact h.put ht v
  | add v =>
    refine ⟨(c.add v).2, ?_, h.add ht.linked v⟩
    rw [HashCons.serve_add, HashCons.fst_add, ← h.size_eq]
    rfl

/-- A run in one array comes to an end without a fault, with the indices of the other layout and with
a table that has the same values. -/
theorem Represents.serveAll (h : c.Represents t) (ht : t.Filed) (rs : List (HashCons.Request α)) :
    ∃ d, c.serveAll rs = pure ((t.serveAll rs).1, d) ∧ d.Represents (t.serveAll rs).2 := by
  induction rs generalizing c t with
  | nil => exact ⟨c, rfl, h⟩
  | cons r rs ih =>
    obtain ⟨d, hserve, hd⟩ := h.serve ht r
    obtain ⟨e, hrest, he⟩ := ih hd (ht.serve r)
    refine ⟨e, ?_, he⟩
    rw [Chained.serveAll, hserve, pure_bind]
    dsimp only
    rw [hrest, pure_bind]
    rfl

end

end Chained

namespace HashCons

variable {α : Type} [Hashed α] [BEq α] [EquivBEq α] [LawfulHashed α]

/-- The law of hash consing over whole runs.  Whatever values are put and added, in any order, they
are given the same indices whatever the number of buckets.  So it is in one array, where each walk
along a chain comes to an end: at every moment of the run the indices are the same, and the array
holds the same values under them.  Each answer is the next index, or else one that stands for an
equal value already, and is given to a value that is put.  What stands under an index is never
changed.  Two values that are put share an index exactly if they are equal, and none is given the
index of a value that was only added. -/
theorem answers_of_requests (rs : List (Request α)) :
    ∃ is : List Nat, ∀ bits, bits ≤ 24 →
      ∃ t, (create bits : Except Fault (HashCons α)) = .ok t ∧ t.size = 0 ∧
        (t.serveAll rs).1 = is ∧
        (∀ before after, rs = before ++ after →
          ∃ c, (Chained.empty bits : Chained α).serveAll before =
              pure (is.take before.length, c) ∧
            c.Represents (t.serveAll before).2) ∧
        (∀ before r after, rs = before ++ r :: after → ∃ i, is[before.length]? = some i ∧
          (t.serveAll before).2.Serves r i (t.serveAll (before ++ [r])).2) ∧
        (∀ before after, rs = before ++ after → ∀ i v, (t.serveAll before).2.value i = .ok v →
          (t.serveAll rs).2.value i = .ok v) ∧
        (∀ (j k : Nat) v w, rs[j]? = some (.put v) → rs[k]? = some (.put w) →
          (is[j]? = is[k]? ↔ (v == w) = true)) ∧
        ∀ (j k : Nat) v w, rs[j]? = some (.add v) → rs[k]? = some (.put w) → is[j]? ≠ is[k]? := by
  refine ⟨((empty 0).serveAll rs).1, fun bits hbits => ⟨empty bits, if_pos hbits, rfl, ?_⟩⟩
  have ht := filed_empty (α := α) bits
  have hanswers : ((empty bits).serveAll rs).1 = ((empty 0).serveAll rs).1 :=
    (like_empty 0 bits).serveAll (filed_empty 0) ht rs
  rw [← hanswers]
  refine ⟨rfl, ?_, ?_, ?_, ?_, ?_⟩
  · rintro before after rfl
    rw [serveAll_append, ← length_serveAll (empty bits) before, List.take_left]
    exact (Chained.represents_empty hbits).serveAll ht before
  · rintro before r after rfl
    refine ⟨_, ?_, serveAll_concat (empty bits) before r ▸ (ht.serveAll before).serves r⟩
    rw [serveAll_append, ← length_serveAll (empty bits) before,
      List.getElem?_append_right (Nat.le_refl _), Nat.sub_self]
    rfl
  · rintro before after rfl i v hv
    rw [serveAll_append]
    exact value_eq_ok (value?_serveAll_of_value? (value_eq_ok_iff.1 hv) after)
  · intro j k v w hj hk
    obtain ⟨i, hi, hnames⟩ := ht.answer rs hj
    obtain ⟨i', hi', hnames'⟩ := ht.answer rs hk
    rw [hi, hi', Option.some_inj]
    exact (ht.serveAll rs).eq_iff_of_names hnames hnames'
  · intro j k v w hj hk
    obtain ⟨i, hi, hadded, -⟩ := ht.answer rs hj
    obtain ⟨i', hi', hput, -⟩ := ht.answer rs hk
    rw [hi, hi', Ne, Option.some_inj]
    rintro rfl
    exact hadded hput

/-- Two values of one bucket, among one bucket and among sixteen, are told apart, and so is a value
that is only added; the first value is found again.  In the array they stand under their indices, and
the second value of the bucket does so as soon as it has been put. -/
theorem answers_of_requests_collision :
    ∃ c d : Chained (UInt64 × UInt64),
      (Chained.empty 0).serveAll [.put (1, 0), .add (1, 0), .put (1, 7), .put (1, 0)] =
        pure ([1, 2, 3, 1], c) ∧
      (∀ i, (c.at? (i + 1)).map Chained.Entry.value = [(1, 0), (1, 0), (1, 7)][i]?) ∧
      (Chained.empty 4).serveAll [.put (1, 0), .add (1, 0), .put (1, 7)] = pure ([1, 2, 3], d) ∧
      (d.at? 3).map Chained.Entry.value = some (1, 7) := by
  obtain ⟨is, h⟩ := answers_of_requests (α := UInt64 × UInt64)
    [.put (1, 0), .add (1, 0), .put (1, 7), .put (1, 0)]
  obtain ⟨t, hcreate, -, hanswers, hmoments, -⟩ := h 0 (by decide)
  obtain ⟨u, hcreate', -, -, hmoments', -⟩ := h 4 (by decide)
  cases hcreate
  cases hcreate'
  have his : is = [1, 2, 3, 1] := hanswers.symm.trans (by decide +kernel)
  subst his
  obtain ⟨c, hc, hall⟩ := hmoments _ [] (List.append_nil _).symm
  obtain ⟨d, hd, hlate⟩ := hmoments' [.put (1, 0), .add (1, 0), .put (1, 7)] [.put (1, 0)] rfl
  have hvalues : ((empty 0 : HashCons (UInt64 × UInt64)).serveAll
      [.put (1, 0), .add (1, 0), .put (1, 7), .put (1, 0)]).2.values =
        #[(1, 0), (1, 0), (1, 7)] := by decide +kernel
  refine ⟨c, d, hc, fun i => ?_, hd, ?_⟩
  · rw [hall.value?_eq, value?, hvalues, List.getElem?_toArray]
  · exact (hlate.value?_eq 3).trans (by decide +kernel)

end HashCons

end BrakeCheck
