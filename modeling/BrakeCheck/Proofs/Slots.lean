import BrakeCheck.ComputedTable
import Mathlib.Data.List.Induction

/-!
# Computed tables over whole runs

What a slot holds is the last entry that has been written to it, whatever has been looked up and
written to other slots since.  A lookup is answered with that entry if it is one of its own key.
So a result is never that of another key, and never one that has been replaced.

## Main definitions

* `ComputedTable.serveAll` — a run of lookups and insertions.
* `ComputedTable.LastWritten` — the last entry that requests write to a slot.

## Main statements

* `ComputedTable.getD_slots_serveAll` — what a slot holds after a run.
* `ComputedTable.answers_of_run` — the answers to the lookups of a run, and how many they are.
-/

namespace BrakeCheck

namespace ComputedTable

variable {κ ν : Type}

/-- What a table can be asked for. -/
inductive Request (κ ν : Type) where
  | lookup (k : κ)
  | insert (k : κ) (result : ν)

/-- Whether a request is a lookup. -/
def Request.isLookup : Request κ ν → Bool
  | lookup _ => true
  | insert _ _ => false

/-- The last of the requests that write to slot `i` keeps `result` there, for the key `k`. -/
def LastWritten (slot : κ → Nat) (i : Nat) (rs : List (Request κ ν)) (k : κ) (result : ν) : Prop :=
  slot k = i ∧ ∃ before after, rs = before ++ .insert k result :: after ∧
    ∀ l other, .insert l other ∈ after → slot l ≠ i

variable {slot : κ → Nat} {i : Nat} {rs : List (Request κ ν)} {r : Request κ ν} {k l : κ}
  {result other : ν}

theorem not_lastWritten_nil : ¬ LastWritten slot i [] k result := by
  rintro ⟨-, before, after, h, -⟩
  cases before <;> cases h

/-- The last request writes to the slot, or else it leaves to the others what was written last. -/
theorem lastWritten_concat : LastWritten slot i (rs ++ [r]) k result ↔
    (slot k = i ∧ r = .insert k result) ∨
      (LastWritten slot i rs k result ∧ ∀ l other, r = .insert l other → slot l ≠ i) := by
  constructor
  · rintro ⟨hk, before, after, heq, hafter⟩
    rcases List.eq_nil_or_concat after with rfl | ⟨after, q, rfl⟩
    · exact Or.inl ⟨hk, List.singleton_inj.1 (List.append_inj' heq rfl).2⟩
    · rw [List.concat_eq_append] at heq hafter
      rw [← List.cons_append, ← List.append_assoc] at heq
      obtain ⟨rfl, hq⟩ := List.append_inj' heq rfl
      obtain rfl := List.singleton_inj.1 hq
      refine Or.inr ⟨⟨hk, before, after, rfl, fun l other hl => ?_⟩, fun l other hr => ?_⟩
      · exact hafter l other (List.mem_append_left _ hl)
      · exact hafter l other (by simp [hr])
  · rintro (⟨hk, rfl⟩ | ⟨⟨hk, before, after, rfl, hafter⟩, hr⟩)
    · exact ⟨hk, rs, [], rfl, fun _ _ h => nomatch h⟩
    · refine ⟨hk, before, after ++ [r], by simp, fun l other hl => ?_⟩
      rcases List.mem_append.1 hl with hl | hl
      · exact hafter l other hl
      · exact hr l other (List.mem_singleton.1 hl).symm

variable [Hashed κ] [BEq κ]

/-- Serves a request; the answer is what a lookup finds. -/
def serve (t : ComputedTable κ ν) : Request κ ν → Option ν × ComputedTable κ ν
  | .lookup k => t.lookup k
  | .insert k result => (none, t.insert k result)

/-- Serves requests one after the other. -/
def serveAll (t : ComputedTable κ ν) : List (Request κ ν) → List (Option ν) × ComputedTable κ ν
  | [] => ([], t)
  | r :: rs =>
    let (answer, t) := t.serve r
    let (answers, t) := t.serveAll rs
    (answer :: answers, t)

theorem serveAll_cons (t : ComputedTable κ ν) (r : Request κ ν) (rs : List (Request κ ν)) :
    t.serveAll (r :: rs) =
      ((t.serve r).1 :: ((t.serve r).2.serveAll rs).1, ((t.serve r).2.serveAll rs).2) := rfl

/-- A last request is served by the table that the others leave. -/
theorem serveAll_concat (t : ComputedTable κ ν) (rs : List (Request κ ν)) (r : Request κ ν) :
    t.serveAll (rs ++ [r]) = ((t.serveAll rs).1 ++ [((t.serveAll rs).2.serve r).1],
      ((t.serveAll rs).2.serve r).2) := by
  induction rs generalizing t with
  | nil => rfl
  | cons q rs ih => rw [List.cons_append, serveAll_cons, ih, serveAll_cons, List.cons_append]

/-- Every request is served by the table that the requests before it leave. -/
theorem getElem?_serveAll (t : ComputedTable κ ν) (rs : List (Request κ ν)) (j : Nat) :
    (t.serveAll rs).1[j]? = rs[j]?.map fun r => ((t.serveAll (rs.take j)).2.serve r).1 := by
  induction rs generalizing t j with
  | nil => rfl
  | cons r rs ih =>
    cases j with
    | zero => rfl
    | succ j => exact ih (t.serve r).2 j

/-! ### Slots -/

theorem size_slots_serve (t : ComputedTable κ ν) (r : Request κ ν) :
    (t.serve r).2.slots.size = t.slots.size := by
  cases r with
  | lookup k => exact congrArg Array.size (slots_lookup t k)
  | insert k result => exact size_slots_insert t k result

theorem size_slots_serveAll (t : ComputedTable κ ν) (rs : List (Request κ ν)) :
    (t.serveAll rs).2.slots.size = t.slots.size := by
  induction rs generalizing t with
  | nil => rfl
  | cons r rs ih => rw [serveAll_cons, ih, size_slots_serve]

theorem slotOf_serveAll (t : ComputedTable κ ν) (rs : List (Request κ ν)) (k : κ) :
    (t.serveAll rs).2.slotOf k = t.slotOf k := by
  rw [slotOf, size_slots_serveAll, slotOf]

/-- A request changes the slot that it writes to, if it writes, and no other. -/
theorem getD_slots_serve {t : ComputedTable κ ν} (h : 0 < t.slots.size) (r : Request κ ν) :
    (t.serve r).2.slots.getD i none = some (k, result) ↔
      (t.slotOf k = i ∧ r = .insert k result) ∨
        (t.slots.getD i none = some (k, result) ∧
          ∀ l other, r = .insert l other → t.slotOf l ≠ i) := by
  cases r with
  | lookup l =>
    rw [serve, slots_lookup]
    simp
  | insert l other =>
    rw [serve, getD_slots_insert h]
    by_cases hl : t.slotOf l = i
    · rw [if_pos hl]
      constructor
      · rintro ⟨⟩
        exact Or.inl ⟨hl, rfl⟩
      · rintro (⟨-, ⟨⟩⟩ | ⟨-, hother⟩)
        · rfl
        · exact absurd hl (hother l other rfl)
    · rw [if_neg hl]
      constructor
      · intro hi
        refine Or.inr ⟨hi, ?_⟩
        rintro _ _ ⟨⟩
        exact hl
      · rintro (⟨hk, ⟨⟩⟩ | ⟨hi, -⟩)
        · exact absurd hk hl
        · exact hi

/-- After a run of a table with empty slots, a slot holds the entry that was last written to it. -/
theorem getD_slots_serveAll {t : ComputedTable κ ν} (hpos : 0 < t.slots.size)
    (hempty : ∀ i, t.slots.getD i none = none) (rs : List (Request κ ν)) :
    (t.serveAll rs).2.slots.getD i none = some (k, result) ↔
      LastWritten t.slotOf i rs k result := by
  -- from the right: what a slot holds is decided by the end of the run
  induction rs using List.reverseRecOn generalizing k result with
  | nil =>
    refine iff_of_false (fun h => ?_) not_lastWritten_nil
    rw [serveAll, hempty] at h
    cases h
  | append_singleton rs r ih =>
    have hsize : 0 < (t.serveAll rs).2.slots.size := by rwa [size_slots_serveAll]
    rw [serveAll_concat, getD_slots_serve hsize, lastWritten_concat, ih]
    simp only [slotOf_serveAll]

/-! ### Counts -/

/-- A hit is a lookup that finds something. -/
theorem hits_serve (t : ComputedTable κ ν) (r : Request κ ν) :
    (t.serve r).2.hits = t.hits + if (t.serve r).1.isSome then 1 else 0 := by
  cases r with
  | lookup k =>
    rw [serve, lookup]
    split <;> rfl
  | insert k result => rfl

/-- A lookup is a hit or a miss. -/
theorem hits_add_misses_serve (t : ComputedTable κ ν) (r : Request κ ν) :
    (t.serve r).2.hits + (t.serve r).2.misses =
      t.hits + t.misses + if r.isLookup then 1 else 0 := by
  cases r with
  | lookup k =>
    rw [serve, lookup]
    split
    · exact Nat.add_right_comm _ _ _
    · rfl
  | insert k result => rfl

theorem hits_serveAll (t : ComputedTable κ ν) (rs : List (Request κ ν)) :
    (t.serveAll rs).2.hits = t.hits + (t.serveAll rs).1.countP Option.isSome := by
  induction rs generalizing t with
  | nil => rfl
  | cons r rs ih =>
    rw [serveAll_cons, ih, hits_serve, List.countP_cons]
    omega

theorem hits_add_misses_serveAll (t : ComputedTable κ ν) (rs : List (Request κ ν)) :
    (t.serveAll rs).2.hits + (t.serveAll rs).2.misses =
      t.hits + t.misses + rs.countP Request.isLookup := by
  induction rs generalizing t with
  | nil => rfl
  | cons r rs ih =>
    rw [serveAll_cons, ih, hits_add_misses_serve, List.countP_cons]
    omega

/-! ### Runs -/

/-- The law of computed tables over whole runs.  The slot of a key is given by the low bits of its
hash word.  Whatever is looked up and inserted, in any order, the answer to a lookup is the entry
that was last written to the slot of its key, if that is an entry for the key, and else there is
none; a lookup leaves all slots as they are; and the lookups are counted, those with an answer as
hits and the others as misses. -/
theorem answers_of_run {bits : Nat} (hbits : bits ≤ 24) :
    ∃ t : ComputedTable κ ν, create bits = .ok t ∧
      (∀ k, t.slotOf k = (Hashed.hash k &&& .ofNat ((1 <<< bits) - 1)).toNat) ∧
      ∀ rs : List (Request κ ν),
        (∀ j k, rs[j]? = some (.lookup k) →
          (∀ result, (t.serveAll rs).1[j]? = some (some result) ↔
            ∃ l, (l == k) = true ∧ LastWritten t.slotOf (t.slotOf k) (rs.take j) l result) ∧
          (t.serveAll (rs.take (j + 1))).2.slots = (t.serveAll (rs.take j)).2.slots) ∧
        (t.serveAll rs).2.hits = (t.serveAll rs).1.countP Option.isSome ∧
        (t.serveAll rs).2.hits + (t.serveAll rs).2.misses = rs.countP Request.isLookup := by
  have hsize : (empty bits : ComputedTable κ ν).slots.size = 1 <<< bits := Array.size_replicate
  have hpos : 0 < (empty bits : ComputedTable κ ν).slots.size := by
    rw [hsize, Nat.one_shiftLeft]
    exact Nat.two_pow_pos bits
  have hempty : ∀ i, (empty bits : ComputedTable κ ν).slots.getD i none = none := fun i => by
    simp [empty, Array.getD_getElem?]
  refine ⟨empty bits, if_pos hbits, fun k => ?_, fun rs => ⟨fun j k hj => ⟨fun result => ?_, ?_⟩,
    ?_, ?_⟩⟩
  · rw [Hashed.toNat_and_mask hbits, slotOf, hsize]
  · rw [getElem?_serveAll, hj, Option.map_some, serve, fst_lookup, Option.some_inj,
      find?_eq_some_iff, slotOf_serveAll]
    simp only [getD_slots_serveAll hpos hempty]
  · rw [List.take_add_one, hj, Option.toList_some, serveAll_concat]
    exact slots_lookup _ k
  · rw [hits_serveAll]
    exact Nat.zero_add _
  · rw [hits_add_misses_serveAll]
    exact Nat.zero_add _

/-- Two pairs share the only slot there is: the second one replaces the first, which is not found
any more. -/
theorem answers_of_run_replaced :
    ∃ (t : ComputedTable (UInt64 × UInt64) Int) (rs : List (Request (UInt64 × UInt64) Int)),
      create 0 = .ok t ∧
      rs = [.insert (1, 2) 3, .insert (2, 1) 4, .lookup (1, 2), .lookup (2, 1)] ∧
      (t.serveAll rs).1 = [none, none, none, some 4] ∧
      ¬ LastWritten t.slotOf (t.slotOf (1, 2)) (rs.take 2) (1, 2) 3 ∧
      LastWritten t.slotOf (t.slotOf (2, 1)) (rs.take 3) (2, 1) 4 ∧
      (t.serveAll rs).2.hits = 1 ∧ (t.serveAll rs).2.hits + (t.serveAll rs).2.misses = 2 := by
  obtain ⟨t, hcreate, -, hrun⟩ := @answers_of_run (UInt64 × UInt64) Int _ _ 0 (Nat.zero_le _)
  cases hcreate
  obtain ⟨hlookup, hhits, htotal⟩ :=
    hrun [.insert (1, 2) 3, .insert (2, 1) 4, .lookup (1, 2), .lookup (2, 1)]
  refine ⟨_, _, rfl, rfl, by decide, fun hlast => ?_, ?_, hhits.trans (by decide), htotal⟩
  · have hfound := ((hlookup 2 (1, 2) rfl).1 3).2 ⟨(1, 2), by decide, hlast⟩
    exact absurd hfound (by decide)
  · obtain ⟨l, hl, hlast⟩ := ((hlookup 3 (2, 1) rfl).1 4).1 (by decide)
    exact eq_of_beq hl ▸ hlast

end ComputedTable

end BrakeCheck
