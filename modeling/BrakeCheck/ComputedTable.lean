import BrakeCheck.Fault
import BrakeCheck.Pairing

/-!
# Computed tables

A table of results that forgets: each key has one slot, given by its hash word, and a slot holds
only the last entry written to it.  The whole key is kept, so an answer is never that of another
key.

## Main definitions

* `ComputedTable.lookup` — the result kept for a key, counted as a hit or a miss.
* `ComputedTable.insert` — keeps a result, in place of whatever its slot held.
-/

namespace BrakeCheck

/-- The slots, and how many lookups have found their key and how many have not. -/
structure ComputedTable (κ ν : Type) where
  slots : Array (Option (κ × ν))
  hits : Nat
  misses : Nat

namespace ComputedTable

variable {κ ν : Type}

/-- A table with `2 ^ bits` empty slots. -/
def empty (bits : Nat) : ComputedTable κ ν := ⟨Array.replicate (1 <<< bits) none, 0, 0⟩

/-- A table of empty slots, of which there are at most `2 ^ 24`. -/
def create (bits : Nat) : Except Fault (ComputedTable κ ν) :=
  if bits ≤ 24 then .ok (empty bits) else .error .tooManySlots

/-- The slot of a key. -/
def slotOf [Hashed κ] (t : ComputedTable κ ν) (k : κ) : Nat := Hashed.place k t.slots.size

/-- The result kept for a key, if its slot holds that key. -/
def find? [Hashed κ] [BEq κ] (t : ComputedTable κ ν) (k : κ) : Option ν :=
  match t.slots.getD (t.slotOf k) none with
  | some (key, result) => if key == k then some result else none
  | none => none

/-- The result kept for a key; the answer is counted. -/
def lookup [Hashed κ] [BEq κ] (t : ComputedTable κ ν) (k : κ) :
    Option ν × ComputedTable κ ν :=
  match t.find? k with
  | some result => (some result, { t with hits := t.hits + 1 })
  | none => (none, { t with misses := t.misses + 1 })

/-- Keeps a result, in place of whatever its slot held. -/
def insert [Hashed κ] (t : ComputedTable κ ν) (k : κ) (result : ν) : ComputedTable κ ν :=
  { t with slots := t.slots.setIfInBounds (t.slotOf k) (some (k, result)) }

/-! ### The result of a key -/

variable [Hashed κ]

@[simp] theorem size_slots_insert (t : ComputedTable κ ν) (k : κ) (result : ν) :
    (t.insert k result).slots.size = t.slots.size :=
  Array.size_setIfInBounds

@[simp] theorem slotOf_insert (t : ComputedTable κ ν) (k : κ) (result : ν) (l : κ) :
    (t.insert k result).slotOf l = t.slotOf l := by
  rw [slotOf, size_slots_insert, slotOf]

/-- Writing an entry replaces what its slot held, and nothing else. -/
theorem getD_slots_insert {t : ComputedTable κ ν} (h : 0 < t.slots.size) (k : κ) (result : ν)
    (i : Nat) : (t.insert k result).slots.getD i none =
      if t.slotOf k = i then some (k, result) else t.slots.getD i none := by
  have hk : t.slotOf k < t.slots.size := Hashed.place_lt k h
  simp only [insert, Array.getD_eq_getD_getElem?, Array.getElem?_setIfInBounds]
  by_cases heq : t.slotOf k = i
  · rw [← heq]
    simp [hk]
  · simp [heq]

section
variable [BEq κ]

@[simp] theorem fst_lookup (t : ComputedTable κ ν) (k : κ) : (t.lookup k).1 = t.find? k := by
  unfold lookup
  split <;> simp [*]

@[simp] theorem slots_lookup (t : ComputedTable κ ν) (k : κ) : (t.lookup k).2.slots = t.slots := by
  unfold lookup
  split <;> rfl

/-- Counting an answer changes no result. -/
@[simp] theorem find?_lookup (t : ComputedTable κ ν) (k l : κ) :
    (t.lookup k).2.find? l = t.find? l := by
  unfold find? slotOf
  rw [slots_lookup]

@[simp] theorem find?_empty (bits : Nat) (k : κ) :
    (empty bits : ComputedTable κ ν).find? k = none := by
  unfold find? empty
  simp [Array.getD_getElem?]

/-- A result is found where the slot of the key holds it together with that key. -/
theorem find?_eq_some_iff {t : ComputedTable κ ν} {k : κ} {result : ν} :
    t.find? k = some result ↔
      ∃ l, (l == k) = true ∧ t.slots.getD (t.slotOf k) none = some (l, result) := by
  unfold find?
  cases t.slots.getD (t.slotOf k) none with
  | none => simp
  | some entry =>
    obtain ⟨l, kept⟩ := entry
    dsimp only
    constructor
    · intro h
      split at h
      · next heq =>
        cases h
        exact ⟨l, heq, rfl⟩
      · cases h
    · rintro ⟨l', heq, h⟩
      cases h
      exact if_pos heq

end

variable [DecidableEq κ]

/-- Writing an entry replaces the result of every key that shares its slot. -/
theorem find?_insert {t : ComputedTable κ ν} (h : 0 < t.slots.size) (k l : κ) (result : ν) :
    (t.insert k result).find? l =
      if t.slotOf k = t.slotOf l then (if k = l then some result else none) else t.find? l := by
  unfold find?
  rw [slotOf_insert, getD_slots_insert h]
  by_cases heq : t.slotOf k = t.slotOf l
  · simp [heq]
  · simp [heq]

/-- What is found after an entry has been written is that entry, or was found before. -/
theorem find?_of_insert {t : ComputedTable κ ν} (h : 0 < t.slots.size) {k l : κ} {result found : ν}
    (hl : (t.insert k result).find? l = some found) :
    (l = k ∧ found = result) ∨ t.find? l = some found := by
  rw [find?_insert h] at hl
  split at hl
  · split at hl
    · next heq =>
      cases hl
      exact Or.inl ⟨heq.symm, rfl⟩
    · cases hl
  · exact Or.inr hl

end ComputedTable

end BrakeCheck
