import BrakeCheck.Proofs.Store

/-!
# Which values share an index

A table is asked to `put` values and to `add` values, in any order.  An index that `put` has handed
out is filed: it stands in the bucket of its value, and no two filed values are equal.  So `put`
finds a value exactly if it is equal to a filed one, whatever the buckets are, and the values that
are only added are never found.

Values are compared by an equality of their own.  All that is asked of it is that it is an
equivalence and that equal values have equal hash words.

## Main definitions

* `LawfulHashed` — equal values have equal hash words.
* `HashCons.Files` — an index that `put` can find.
* `HashCons.Filed` — filed indices stand in their buckets, and their values differ.
* `HashCons.Request`, `HashCons.serveAll` — requests to a table, and the indices they are given.
* `HashCons.Like` — two tables have the same values and the same filed indices.

## Main statements

* `HashCons.Filed.find?_eq_some_iff` — what is found in a table.
* `HashCons.Filed.serve` — what one request does.
* `HashCons.Filed.answer` — what the indices of a whole run stand for.
* `HashCons.Like.serveAll` — like tables hand out the same indices.
-/

namespace BrakeCheck

/-- Equal values have equal hash words. -/
class LawfulHashed (α : Type) [BEq α] [Hashed α] : Prop where
  hash_eq : ∀ v w : α, (v == w) = true → Hashed.hash v = Hashed.hash w

instance (priority := low) {α : Type} [BEq α] [LawfulBEq α] [Hashed α] : LawfulHashed α where
  hash_eq v w h := by rw [eq_of_beq h]

namespace HashCons

variable {α : Type}

/-- A bucket holds the index. -/
def Files (t : HashCons α) (i : Nat) : Prop :=
  ∃ (b : Nat) (is : List Nat), t.buckets[b]? = some is ∧ i ∈ is

/-- The filed indices are those of stored values and stand in the buckets of these, the newest ones
first; and the values of different ones are different. -/
structure Filed [Hashed α] [BEq α] (t : HashCons α) : Prop where
  buckets_pos : 0 < t.buckets.size
  linked : t.Linked
  placed : ∀ (b : Nat) is, t.buckets[b]? = some is → ∀ i ∈ is, ∀ v, t.value? i = some v →
    t.bucketOf v = b
  falling : ∀ (b : Nat) is, t.buckets[b]? = some is → is.Pairwise (· > ·)
  apart : ∀ i j v w, t.Files i → t.Files j → t.value? i = some v → t.value? j = some w →
    (v == w) = true → i = j

variable {t u : HashCons α} {i : Nat} {v w : α}

theorem not_files_empty (bits : Nat) : ¬ (empty bits : HashCons α).Files i := by
  rintro ⟨b, is, hb, hi⟩
  simp only [empty, Array.getElem?_replicate] at hb
  split at hb
  · cases hb
    cases hi
  · cases hb

theorem size_pos_of_empty (bits : Nat) : 0 < (empty bits : HashCons α).buckets.size := by
  rw [empty, Array.size_replicate, Nat.one_shiftLeft]
  exact Nat.two_pow_pos bits

/-- A filed index is one of those that have been handed out. -/
theorem Linked.le_size (h : t.Linked) (hi : t.Files i) : 0 < i ∧ i ≤ t.size := by
  obtain ⟨b, is, hb, hmem⟩ := hi
  exact isSome_value?_iff.1 (h b is hb i hmem)

/-- A value that is only added stands behind all others. -/
theorem value?_add_of_le (hi : i ≤ t.size) (v : α) : (t.add v).2.value? i = t.value? i := by
  rw [value?_add, if_neg (by omega)]

theorem value_eq_ok_iff : t.value i = .ok v ↔ t.value? i = some v := by
  refine ⟨fun h => ?_, value_eq_ok⟩
  unfold value at h
  split at h
  · cases h
  · split at h
    · next hv =>
      cases h
      exact hv
    · cases h

variable [Hashed α] [BEq α]

theorem filed_empty (bits : Nat) : (empty bits : HashCons α).Filed where
  buckets_pos := size_pos_of_empty bits
  linked := linked_empty bits
  placed b is hb i hi := absurd ⟨b, is, hb, hi⟩ (not_files_empty bits)
  falling b is hb := by
    simp only [empty, Array.getElem?_replicate] at hb
    split at hb
    · cases hb
      exact List.Pairwise.nil
    · cases hb
  apart i j v w hi := absurd hi (not_files_empty bits)

@[simp] theorem bucketOf_put (t : HashCons α) (v w : α) :
    (t.put v).2.bucketOf w = t.bucketOf w := by
  unfold bucketOf
  rw [buckets_size_put]

/-- The new index of a value stands at the beginning of the bucket of the value. -/
theorem getElem?_buckets_put (h : t.find? v = none) (b : Nat) :
    (t.put v).2.buckets[b]? =
      if t.bucketOf v = b then (t.buckets[b]?).map ((t.size + 1) :: ·) else t.buckets[b]? := by
  rw [buckets_put_of_find? h, Array.getElem?_modify]

/-- A bucket is as it was, but that the new index of a value stands at the beginning of its own. -/
theorem bucket_of_put (h : t.find? v = none) {b : Nat} {is : List Nat}
    (hb : (t.put v).2.buckets[b]? = some is) :
    ∃ js, t.buckets[b]? = some js ∧ (is = js ∨ t.bucketOf v = b ∧ is = (t.size + 1) :: js) := by
  rw [getElem?_buckets_put h] at hb
  split at hb
  · next hbucket =>
    obtain ⟨js, hjs, rfl⟩ := Option.map_eq_some_iff.1 hb
    exact ⟨js, hjs, Or.inr ⟨hbucket, rfl⟩⟩
  · exact ⟨is, hb, Or.inl rfl⟩

/-- The new index of a value is filed, and no other one is. -/
theorem files_put (hpos : 0 < t.buckets.size) (h : t.find? v = none) :
    (t.put v).2.Files i ↔ i = t.size + 1 ∨ t.Files i := by
  constructor
  · rintro ⟨b, is, hb, hi⟩
    obtain ⟨js, hjs, rfl | ⟨-, rfl⟩⟩ := bucket_of_put h hb
    · exact Or.inr ⟨b, is, hjs, hi⟩
    · exact (List.mem_cons.1 hi).imp id fun hi => ⟨b, js, hjs, hi⟩
  · rintro (rfl | ⟨b, is, hb, hi⟩)
    · have hlt : t.bucketOf v < t.buckets.size := Hashed.place_lt v hpos
      refine ⟨t.bucketOf v, (t.size + 1) :: t.buckets[t.bucketOf v], ?_, List.mem_cons_self⟩
      rw [getElem?_buckets_put h, if_pos rfl, Array.getElem?_eq_getElem hlt]
      rfl
    · by_cases hbucket : t.bucketOf v = b
      · refine ⟨b, (t.size + 1) :: is, ?_, List.mem_cons_of_mem _ hi⟩
        rw [getElem?_buckets_put h, if_pos hbucket, hb]
        rfl
      · exact ⟨b, is, by rw [getElem?_buckets_put h, if_neg hbucket, hb], hi⟩

omit [BEq α] in
theorem exists_bucket (hpos : 0 < t.buckets.size) (v : α) :
    ∃ is, t.buckets[t.bucketOf v]? = some is :=
  ⟨_, Array.getElem?_eq_getElem (Hashed.place_lt v hpos)⟩

/-- A value is looked for in its own bucket. -/
theorem find?_eq_of_bucket {is : List Nat} (h : t.buckets[t.bucketOf v]? = some is) :
    t.find? v = is.find? fun i => t.value? i == some v := by
  rw [find?, Array.getD_eq_getD_getElem?, h]
  rfl

omit [Hashed α] in
theorem value?_beq_iff :
    (t.value? i == some v) = true ↔ ∃ w, t.value? i = some w ∧ (w == v) = true := by
  cases t.value? i with
  | none => simp
  | some w => simp

/-- An index is filed in one bucket only. -/
theorem Filed.bucket_unique (h : t.Filed) {b b' : Nat} {is js : List Nat}
    (hb : t.buckets[b]? = some is) (hi : i ∈ is) (hb' : t.buckets[b']? = some js) (hi' : i ∈ js) :
    b = b' := by
  obtain ⟨w, hw⟩ := Option.isSome_iff_exists.1 (h.linked b is hb i hi)
  rw [← h.placed b is hb i hi w hw, h.placed b' js hb' i hi' w hw]

/-- A filed index keeps its value. -/
theorem Filed.value?_put (h : t.Filed) (hnone : t.find? v = none) (hi : t.Files i) :
    (t.put v).2.value? i = t.value? i := by
  rw [value?_put_of_find? hnone, value?_add_of_le (h.linked.le_size hi).2]

/-- The new index has the new value. -/
theorem value?_put_new (hnone : t.find? v = none) : (t.put v).2.value? (t.size + 1) = some v := by
  rw [value?_put_eq_ite hnone, if_pos rfl]

section
variable [EquivBEq α] [LawfulHashed α]

/-- A table finds a value under the filed index of an equal one. -/
theorem Filed.find?_eq_some_iff (h : t.Filed) :
    t.find? v = some i ↔ t.Files i ∧ ∃ w, t.value? i = some w ∧ (w == v) = true := by
  obtain ⟨is, his⟩ := exists_bucket h.buckets_pos v
  have hfind := find?_eq_of_bucket his
  -- whatever is found is filed and has an equal value
  have hsound : ∀ j, t.find? v = some j →
      t.Files j ∧ ∃ w, t.value? j = some w ∧ (w == v) = true := by
    intro j hj
    rw [hfind] at hj
    have hvalue := List.find?_some hj
    exact ⟨⟨_, is, his, List.mem_of_find?_eq_some hj⟩, value?_beq_iff.1 hvalue⟩
  refine ⟨hsound i, ?_⟩
  rintro ⟨⟨b, js, hb, hi⟩, w, hw, heq⟩
  -- equal values belong in the same bucket, so something is found there
  have hplace : b = t.bucketOf v := by
    rw [← h.placed b js hb i hi w hw]
    unfold bucketOf Hashed.place
    rw [LawfulHashed.hash_eq w v heq]
  obtain rfl : is = js := Option.some.inj (his.symm.trans (hplace ▸ hb))
  have hsome : (t.find? v).isSome := by
    rw [hfind]
    exact List.find?_isSome.2 ⟨i, hi, value?_beq_iff.2 ⟨w, hw, heq⟩⟩
  obtain ⟨j, hj⟩ := Option.isSome_iff_exists.1 hsome
  obtain ⟨hfiles, x, hx, hxv⟩ := hsound j hj
  rw [hj, h.apart i j w x ⟨b, is, hb, hi⟩ hfiles hw hx (BEq.trans heq (BEq.symm hxv))]

/-- A value that is not found is different from all filed ones. -/
theorem Filed.ne_of_find?_eq_none (h : t.Filed) (hnone : t.find? v = none) (hi : t.Files i)
    (hw : t.value? i = some w) : (w == v) = false := by
  rw [← Bool.not_eq_true]
  intro heq
  have hfound := h.find?_eq_some_iff.2 ⟨hi, w, hw, heq⟩
  rw [hnone] at hfound
  cases hfound

end

/-- A value that is only added is not filed. -/
theorem Filed.add (h : t.Filed) (v : α) : (t.add v).2.Filed where
  buckets_pos := h.buckets_pos
  linked := h.linked.add v
  placed b is hb i hi w hw := by
    rw [value?_add_of_le (h.linked.le_size ⟨b, is, hb, hi⟩).2] at hw
    exact h.placed b is hb i hi w hw
  falling := h.falling
  apart i j x y hi hj hx hy := by
    rw [value?_add_of_le (h.linked.le_size hi).2] at hx
    rw [value?_add_of_le (h.linked.le_size hj).2] at hy
    exact h.apart i j x y hi hj hx hy

section
variable [EquivBEq α] [LawfulHashed α]

/-- The value under a filed index differs from one that was not found and is filed now. -/
theorem Filed.ne_put_new (h : t.Filed) (hnone : t.find? v = none) (hi : t.Files i) {x y : α}
    (hx : (t.put v).2.value? i = some x) (hy : (t.put v).2.value? (t.size + 1) = some y) :
    (x == y) = false := by
  rw [h.value?_put hnone hi] at hx
  rw [value?_put_new hnone] at hy
  cases hy
  exact h.ne_of_find?_eq_none hnone hi hx

/-- A new value is filed in its bucket, and is different from those that have been filed. -/
theorem Filed.put_new (h : t.Filed) (hnone : t.find? v = none) : (t.put v).2.Filed where
  buckets_pos := by
    rw [buckets_size_put]
    exact h.buckets_pos
  linked := h.linked.put v
  placed b is hb i hi w hw := by
    rw [bucketOf_put]
    obtain ⟨js, hjs, rfl | ⟨hbucket, rfl⟩⟩ := bucket_of_put hnone hb
    · exact h.placed b is hjs i hi w (by rw [← h.value?_put hnone ⟨b, is, hjs, hi⟩, hw])
    · rcases List.mem_cons.1 hi with rfl | hi
      · rw [value?_put_new hnone] at hw
        cases hw
        exact hbucket
      · exact h.placed b js hjs i hi w (by rw [← h.value?_put hnone ⟨b, js, hjs, hi⟩, hw])
  falling b is hb := by
    obtain ⟨js, hjs, rfl | ⟨-, rfl⟩⟩ := bucket_of_put hnone hb
    · exact h.falling b is hjs
    · refine List.pairwise_cons.2 ⟨fun j hj => ?_, h.falling b js hjs⟩
      exact Nat.lt_succ_of_le (h.linked.le_size ⟨b, js, hjs, hj⟩).2
  apart i j x y hi hj hx hy heq := by
    -- two old values are apart already, and the new one was not found
    rcases (files_put h.buckets_pos hnone).1 hi with rfl | hi <;>
      rcases (files_put h.buckets_pos hnone).1 hj with rfl | hj
    · rfl
    · have hne := h.ne_put_new hnone hj hy hx
      rw [BEq.symm heq] at hne
      cases hne
    · rw [h.ne_put_new hnone hi hx hy] at heq
      cases heq
    · rw [h.value?_put hnone hi] at hx
      rw [h.value?_put hnone hj] at hy
      exact h.apart i j x y hi hj hx hy heq

theorem Filed.put (h : t.Filed) (v : α) : (t.put v).2.Filed := by
  cases hfind : t.find? v with
  | some i =>
    rw [put_of_find? hfind]
    exact h
  | none => exact h.put_new hfind

end

/-! ### Requests -/

/-- What a table can be asked for. -/
inductive Request (α : Type) where
  | put (v : α)
  | add (v : α)

/-- The value that a request is about. -/
def Request.value : Request α → α
  | put v => v
  | add v => v

/-- Serves a request; the answer is the index for its value. -/
def serve (t : HashCons α) : Request α → Nat × HashCons α
  | .put v => t.put v
  | .add v => t.add v

/-- Serves requests one after the other. -/
def serveAll (t : HashCons α) : List (Request α) → List Nat × HashCons α
  | [] => ([], t)
  | r :: rs =>
    let (i, t) := t.serve r
    let (is, t) := t.serveAll rs
    (i :: is, t)

theorem serve_put (t : HashCons α) (v : α) : t.serve (.put v) = t.put v := rfl

theorem serve_add (t : HashCons α) (v : α) : t.serve (.add v) = t.add v := rfl

theorem serveAll_cons (t : HashCons α) (r : Request α) (rs : List (Request α)) :
    t.serveAll (r :: rs) =
      ((t.serve r).1 :: ((t.serve r).2.serveAll rs).1, ((t.serve r).2.serveAll rs).2) := rfl

theorem serveAll_append (t : HashCons α) (rs qs : List (Request α)) :
    t.serveAll (rs ++ qs) = ((t.serveAll rs).1 ++ ((t.serveAll rs).2.serveAll qs).1,
      ((t.serveAll rs).2.serveAll qs).2) := by
  induction rs generalizing t with
  | nil => rfl
  | cons r rs ih => rw [List.cons_append, serveAll_cons, ih, serveAll_cons, List.cons_append]

theorem serveAll_concat (t : HashCons α) (rs : List (Request α)) (r : Request α) :
    (t.serveAll (rs ++ [r])).2 = ((t.serveAll rs).2.serve r).2 := by
  rw [serveAll_append]
  rfl

theorem length_serveAll (t : HashCons α) (rs : List (Request α)) :
    (t.serveAll rs).1.length = rs.length := by
  induction rs generalizing t with
  | nil => rfl
  | cons r rs ih => rw [serveAll_cons, List.length_cons, ih, List.length_cons]

/-- What has been stored stays where it is. -/
theorem value?_serve_of_value? (h : t.value? i = some w) (r : Request α) :
    (t.serve r).2.value? i = some w := by
  cases r with
  | put v => exact value?_put_of_value? h v
  | add v =>
    exact (value?_add_of_le (isSome_value?_iff.1 (Option.isSome_of_eq_some h)).2 v).trans h

theorem value?_serveAll_of_value? (h : t.value? i = some w) (rs : List (Request α)) :
    (t.serveAll rs).2.value? i = some w := by
  induction rs generalizing t with
  | nil => exact h
  | cons r rs ih => exact ih (value?_serve_of_value? h r)

/-- How a request is answered: the index stands for a value equal to the one of the request, and
either it is the next index, and the only new one, or the request is to put a value, and the table
stays as it is. -/
structure Serves (t : HashCons α) (r : Request α) (i : Nat) (u : HashCons α) : Prop where
  held : ∃ v, u.value i = .ok v ∧ (v == r.value) = true
  dense : (i = t.size + 1 ∧ u.size = t.size + 1) ∨
    (0 < i ∧ i ≤ t.size ∧ u = t ∧ ∃ v, r = .put v)

/-- What an index stands for that has been the answer to a request: an index for a value that has
been put into the table is filed, and one for a value that has only been added is not. -/
def Request.Names (t : HashCons α) : Request α → Nat → Prop
  | .put v, i => t.Files i ∧ ∃ w, t.value? i = some w ∧ (w == v) = true
  | .add v, i => ¬ t.Files i ∧ t.value? i = some v

variable {r : Request α}

/-- A later request files no index that has been handed out before. -/
theorem Filed.files_serve (h : t.Filed) (hi : i ≤ t.size) (r : Request α) :
    (t.serve r).2.Files i ↔ t.Files i := by
  cases r with
  | add v => exact Iff.rfl
  | put v =>
    cases hfind : t.find? v with
    | some j => rw [serve_put, put_of_find? hfind]
    | none =>
      rw [serve_put, files_put h.buckets_pos hfind]
      exact or_iff_right (by omega)

/-- What an answer stands for, it stands for after all later requests. -/
theorem Filed.names_mono (h : t.Filed) (hr : r.Names t i) (q : Request α) :
    r.Names (t.serve q).2 i := by
  cases r with
  | put v =>
    obtain ⟨hfiles, w, hw, heq⟩ := hr
    exact ⟨(h.files_serve (h.linked.le_size hfiles).2 q).2 hfiles, w, value?_serve_of_value? hw q,
      heq⟩
  | add v =>
    obtain ⟨hfiles, hv⟩ := hr
    have hle := (isSome_value?_iff.1 (Option.isSome_of_eq_some hv)).2
    exact ⟨fun hlater => hfiles ((h.files_serve hle q).1 hlater), value?_serve_of_value? hv q⟩

section
variable [EquivBEq α] [LawfulHashed α]

theorem Filed.serve (h : t.Filed) (r : Request α) : (t.serve r).2.Filed := by
  cases r with
  | put v => exact h.put v
  | add v => exact h.add v

theorem Filed.serveAll (h : t.Filed) (rs : List (Request α)) : (t.serveAll rs).2.Filed := by
  induction rs generalizing t with
  | nil => exact h
  | cons r rs ih => exact ih (h.serve r)

/-- An index that a put value is given is filed. -/
theorem Filed.names_put (h : t.Filed) (v : α) :
    (Request.put v).Names (t.put v).2 (t.put v).1 := by
  cases hfind : t.find? v with
  | some i =>
    rw [put_of_find? hfind]
    exact h.find?_eq_some_iff.1 hfind
  | none =>
    rw [fst_put_of_find?_none hfind]
    refine ⟨(files_put h.buckets_pos hfind).2 (Or.inl rfl), v, ?_, BEq.rfl⟩
    rw [value?_put_eq_ite hfind, if_pos rfl]

/-- The answer to a request stands for its value. -/
theorem Filed.names_serve (h : t.Filed) (r : Request α) :
    r.Names (t.serve r).2 (t.serve r).1 := by
  cases r with
  | put v => exact h.names_put v
  | add v =>
    refine ⟨fun hfiles => ?_, by rw [serve_add, value?_add, fst_add, if_pos rfl]⟩
    have hle : t.size + 1 ≤ t.size := (h.linked.le_size hfiles).2
    omega

theorem Filed.names_serveAll (h : t.Filed) (hr : r.Names t i) (rs : List (Request α)) :
    r.Names (t.serveAll rs).2 i := by
  induction rs generalizing t with
  | nil => exact hr
  | cons q rs ih => exact ih (h.serve q) (h.names_mono hr q)

/-- After a run, all answers stand for the values of their requests. -/
theorem Filed.answer (h : t.Filed) (rs : List (Request α)) {j : Nat} (hr : rs[j]? = some r) :
    ∃ i, (t.serveAll rs).1[j]? = some i ∧ r.Names (t.serveAll rs).2 i := by
  induction rs generalizing t j with
  | nil => cases hr
  | cons q rs ih =>
    cases j with
    | zero =>
      cases hr
      exact ⟨_, rfl, (h.serve r).names_serveAll (h.names_serve r) rs⟩
    | succ j => exact ih (h.serve q) hr

omit [LawfulHashed α] in
/-- Equal values share an index, and different ones do not. -/
theorem Filed.eq_iff_of_names (h : t.Filed) {i j : Nat} {v w : α} (hi : (Request.put v).Names t i)
    (hj : (Request.put w).Names t j) : i = j ↔ (v == w) = true := by
  obtain ⟨hfi, x, hx, hxv⟩ := hi
  obtain ⟨hfj, y, hy, hyw⟩ := hj
  constructor
  · rintro rfl
    cases hx.symm.trans hy
    exact BEq.trans (BEq.symm hxv) hyw
  · intro heq
    exact h.apart i j x y hfi hfj hx hy (BEq.trans hxv (BEq.trans heq (BEq.symm hyw)))

/-- One request is served as it should be. -/
theorem Filed.serves (h : t.Filed) (r : Request α) :
    t.Serves r (t.serve r).1 (t.serve r).2 where
  held := by
    cases r with
    | put v =>
      obtain ⟨-, w, hw, heq⟩ := h.names_put v
      exact ⟨w, value_eq_ok hw, heq⟩
    | add v =>
      obtain ⟨-, hv⟩ := h.names_serve (.add v)
      exact ⟨v, value_eq_ok hv, BEq.rfl⟩
  dense := by
    cases r with
    | add v => exact Or.inl ⟨rfl, size_add t v⟩
    | put v =>
      cases hfind : t.find? v with
      | none =>
        refine Or.inl ⟨fst_put_of_find?_none hfind, ?_⟩
        rw [serve_put, size_put_of_find? hfind]
      | some i =>
        have hle := h.linked.le_size (h.find?_eq_some_iff.1 hfind).1
        rw [serve_put, put_of_find? hfind]
        exact Or.inr ⟨hle.1, hle.2, rfl, v, rfl⟩

end

/-! ### Tables with other buckets -/

/-- Two tables have the same values, and have filed the same indices. -/
structure Like (t u : HashCons α) : Prop where
  values_eq : u.values = t.values
  files_iff : ∀ i, u.Files i ↔ t.Files i

omit [Hashed α] [BEq α] in
theorem like_empty (bits bits' : Nat) : (empty bits : HashCons α).Like (empty bits') where
  values_eq := rfl
  files_iff _ := iff_of_false (not_files_empty bits') (not_files_empty bits)

omit [Hashed α] [BEq α] in
theorem Like.value?_eq (h : t.Like u) (i : Nat) : u.value? i = t.value? i := by
  cases i with
  | zero => rfl
  | succ i => rw [value?, value?, h.values_eq]

omit [Hashed α] [BEq α] in
theorem Like.size_eq (h : t.Like u) : u.size = t.size := congrArg Array.size h.values_eq

section
variable [EquivBEq α] [LawfulHashed α]

/-- Like tables find the same values under the same indices. -/
theorem Like.find?_eq (h : t.Like u) (ht : t.Filed) (hu : u.Filed) (v : α) :
    u.find? v = t.find? v := by
  refine Option.ext fun i => ?_
  rw [ht.find?_eq_some_iff, hu.find?_eq_some_iff, h.files_iff, h.value?_eq]

/-- Like tables give a request the same index, and are like each other afterwards. -/
theorem Like.serve (h : t.Like u) (ht : t.Filed) (hu : u.Filed) (r : Request α) :
    (u.serve r).1 = (t.serve r).1 ∧ (t.serve r).2.Like (u.serve r).2 := by
  cases r with
  | add v =>
    exact ⟨congrArg (· + 1) h.size_eq, congrArg (·.push v) h.values_eq, h.files_iff⟩
  | put v =>
    have hfind := h.find?_eq ht hu v
    rw [serve_put, serve_put]
    cases hv : t.find? v with
    | some i =>
      rw [hv] at hfind
      rw [put_of_find? hv, put_of_find? hfind]
      exact ⟨rfl, h⟩
    | none =>
      rw [hv] at hfind
      refine ⟨?_, ?_, fun i => ?_⟩
      · rw [fst_put_of_find?_none hv, fst_put_of_find?_none hfind, h.size_eq]
      · rw [values_put_of_find? hv, values_put_of_find? hfind, h.values_eq]
      · rw [files_put ht.buckets_pos hv, files_put hu.buckets_pos hfind, h.files_iff, h.size_eq]

/-- Like tables hand out the same indices. -/
theorem Like.serveAll (h : t.Like u) (ht : t.Filed) (hu : u.Filed) (rs : List (Request α)) :
    (u.serveAll rs).1 = (t.serveAll rs).1 := by
  induction rs generalizing t u with
  | nil => rfl
  | cons r rs ih =>
    obtain ⟨hfst, hlike⟩ := h.serve ht hu r
    rw [serveAll_cons, serveAll_cons, hfst, ih hlike (ht.serve r) (hu.serve r)]

end

end HashCons

end BrakeCheck
