import BrakeCheck.Fault
import BrakeCheck.Pairing

/-!
# Hash consing

A table that gives every distinct value one index.  Indices are handed out densely from one
upwards and are never taken back; the index zero stands for nothing.  Values are found again
through buckets of indices, one bucket for each place of a hash word.

## Main definitions

* `HashCons.put` — the index of a value, stored on its first appearance.
* `HashCons.add` — stores a value that `put` does not find again.
* `HashCons.value` — the value of an index.
* `HashCons.Linked` — the buckets hold indices of stored values alone.
-/

namespace BrakeCheck

/-- The values in the order of their indices, and the indices that `put` can find, by bucket. -/
structure HashCons (α : Type) where
  values : Array α
  buckets : Array (List Nat)

namespace HashCons

variable {α : Type}

/-- A table without values and with `2 ^ bits` buckets. -/
def empty (bits : Nat) : HashCons α := ⟨#[], Array.replicate (1 <<< bits) []⟩

/-- A table without values, for at most `2 ^ 24` buckets. -/
def create (bits : Nat) : Except Fault (HashCons α) :=
  if bits ≤ 24 then .ok (empty bits) else .error .tooManyBuckets

/-- The number of stored values. -/
def size (t : HashCons α) : Nat := t.values.size

/-- The number of buckets. -/
def bucketCount (t : HashCons α) : Nat := t.buckets.size

/-- The value stored under an index, if there is one. -/
def value? (t : HashCons α) : Nat → Option α
  | 0 => none
  | i + 1 => t.values[i]?

/-- The value stored under an index. -/
def value (t : HashCons α) (i : Nat) : Except Fault α :=
  if i = 0 then .error .indexZero
  else match t.value? i with
    | some v => .ok v
    | none => .error .indexOutOfBounds

/-- Stores a value under the next index; no bucket learns of it. -/
def add (t : HashCons α) (v : α) : Nat × HashCons α :=
  (t.values.size + 1, { t with values := t.values.push v })

/-- The bucket in which the index of a value belongs. -/
def bucketOf [Hashed α] (t : HashCons α) (v : α) : Nat := Hashed.place v t.buckets.size

/-- The index under which the value's bucket holds it, if it does. -/
def find? [Hashed α] [BEq α] (t : HashCons α) (v : α) : Option Nat :=
  (t.buckets.getD (t.bucketOf v) []).find? fun i => t.value? i == some v

/-- The index of a value: the one it has, or else the next one, which its bucket then holds. -/
def put [Hashed α] [BEq α] (t : HashCons α) (v : α) : Nat × HashCons α :=
  match t.find? v with
  | some i => (i, t)
  | none =>
    let bucket := t.bucketOf v
    let (i, t) := t.add v
    (i, { t with buckets := t.buckets.modify bucket (i :: ·) })

/-- Every index that a bucket holds is that of a stored value. -/
def Linked (t : HashCons α) : Prop :=
  ∀ (b : Nat) is, t.buckets[b]? = some is → ∀ i ∈ is, (t.value? i).isSome

/-! ### The value of an index -/

@[simp] theorem value?_empty (bits i : Nat) : (empty bits : HashCons α).value? i = none := by
  cases i <;> rfl

@[simp] theorem value?_zero (t : HashCons α) : t.value? 0 = none := rfl

/-- A value is stored under every index up to the size, and under no other one. -/
theorem isSome_value?_iff {t : HashCons α} {i : Nat} :
    (t.value? i).isSome ↔ 0 < i ∧ i ≤ t.size := by
  cases i with
  | zero => simp
  | succ i =>
    rw [Option.isSome_iff_ne_none, value?, ne_eq, Array.getElem?_eq_none_iff, size]
    omega

/-- A stored value can be read. -/
theorem value_eq_ok {t : HashCons α} {i : Nat} {v : α} (h : t.value? i = some v) :
    t.value i = .ok v := by
  have hne : i ≠ 0 := by
    rintro rfl
    cases h
  rw [value, if_neg hne, h]

@[simp] theorem fst_add (t : HashCons α) (v : α) : (t.add v).1 = t.size + 1 := rfl

@[simp] theorem size_add (t : HashCons α) (v : α) : (t.add v).2.size = t.size + 1 :=
  Array.size_push v

/-- The new value stands under the next index, and all others stay where they are. -/
theorem value?_add (t : HashCons α) (v : α) (i : Nat) :
    (t.add v).2.value? i = if i = t.size + 1 then some v else t.value? i := by
  cases i with
  | zero => rfl
  | succ i => simp [add, value?, size, Array.getElem?_push]

variable [Hashed α] [BEq α]

theorem value?_of_find? [LawfulBEq α] {t : HashCons α} {v : α} {i : Nat} (h : t.find? v = some i) :
    t.value? i = some v := by
  simpa using List.find?_some h

/-- A value that can be found is not stored again. -/
theorem put_of_find? {t : HashCons α} {v : α} {i : Nat} (h : t.find? v = some i) :
    t.put v = (i, t) := by
  simp [put, h]

theorem values_put_of_find? {t : HashCons α} {v : α} (h : t.find? v = none) :
    (t.put v).2.values = t.values.push v := by
  simp [put, add, h]

theorem size_put_of_find? {t : HashCons α} {v : α} (h : t.find? v = none) :
    (t.put v).2.size = t.size + 1 := by
  rw [size, values_put_of_find? h, Array.size_push, size]

/-- A value that cannot be found is added. -/
theorem value?_put_of_find? {t : HashCons α} {v : α} (h : t.find? v = none) (i : Nat) :
    (t.put v).2.value? i = (t.add v).2.value? i := by
  cases i with
  | zero => rfl
  | succ i => rw [value?, values_put_of_find? h, add, value?]

/-- The bucket of a value that cannot be found begins with its index from then on. -/
theorem buckets_put_of_find? {t : HashCons α} {v : α} (h : t.find? v = none) :
    (t.put v).2.buckets = t.buckets.modify (t.bucketOf v) ((t.size + 1) :: ·) := by
  simp [put, h, add, size]

/-- The value of the index that a value is given is that value. -/
theorem value?_put_self [LawfulBEq α] (t : HashCons α) (v : α) :
    (t.put v).2.value? (t.put v).1 = some v := by
  cases h : t.find? v with
  | some i =>
    rw [put_of_find? h]
    exact value?_of_find? h
  | none =>
    have hfst : (t.put v).1 = t.size + 1 := by simp [put, h]
    rw [value?_put_of_find? h, value?_add, hfst]
    simp

/-- What is stored under an index never changes. -/
theorem value?_put_of_value? {t : HashCons α} {i : Nat} {w : α} (hi : t.value? i = some w)
    (v : α) : (t.put v).2.value? i = some w := by
  cases h : t.find? v with
  | some j =>
    rw [put_of_find? h]
    exact hi
  | none =>
    have hle : i ≤ t.size := (isSome_value?_iff.1 (by simp [hi])).2
    rw [value?_put_of_find? h, value?_add]
    simp [show i ≠ t.size + 1 by omega, hi]

/-- A table stays as it is, or it has more values than before. -/
theorem put_eq_or_size_lt (t : HashCons α) (v : α) :
    (t.put v).2 = t ∨ t.size < (t.put v).2.size := by
  cases h : t.find? v with
  | some i => exact Or.inl (by rw [put_of_find? h])
  | none => exact Or.inr (by rw [size_put_of_find? h]; exact Nat.lt_succ_self _)

/-! ### What buckets hold -/

omit [Hashed α] [BEq α] in
theorem linked_empty (bits : Nat) : (empty bits : HashCons α).Linked := by
  intro b is hb i hi
  simp only [empty, Array.getElem?_replicate] at hb
  split at hb
  · cases hb
    cases hi
  · cases hb

omit [Hashed α] [BEq α] in
/-- A value that no bucket learns of makes no difference to what they hold. -/
theorem Linked.add {t : HashCons α} (h : t.Linked) (v : α) : (t.add v).2.Linked := by
  intro b is hb i hi
  have hi := isSome_value?_iff.1 (h b is hb i hi)
  rw [isSome_value?_iff, size_add]
  omega

/-- The bucket of a new value begins with the index of the value; all other indices in the buckets
have been there before. -/
theorem Linked.put {t : HashCons α} (h : t.Linked) (v : α) : (t.put v).2.Linked := by
  cases hfind : t.find? v with
  | some i =>
    rw [put_of_find? hfind]
    exact h
  | none =>
    intro b is hb i hi
    rw [buckets_put_of_find? hfind, Array.getElem?_modify] at hb
    rw [value?_put_of_find? hfind]
    split at hb
    · obtain ⟨js, hjs, rfl⟩ := Option.map_eq_some_iff.1 hb
      rcases List.mem_cons.1 hi with rfl | hi
      · rw [isSome_value?_iff, size_add]
        omega
      · exact h.add v b js hjs i hi
    · exact h.add v b is hb i hi

end HashCons

end BrakeCheck
