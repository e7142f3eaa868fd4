import BrakeCheck.OrderedMap

/-!
# Laws of ordered maps

What each operation on an ordered map does to the value of a name, and that a map is determined
by the values of its names.

## Main statements

* `OrderedMap.get?_alter_self`, `OrderedMap.get?_alter_of_ne` — a change reaches one name alone;
  `get?_insert`, `get?_insertNew`, `get?_erase` are the special cases.
* `OrderedMap.mem_toList_iff` — the entries are the names with their values.
* `OrderedMap.eq_of_get?_eq` — maps that give every name the same value are equal.
* `NameSet.mem_names_addAll`, `NameSet.mem_names_ofList` — the names of a set made from lists.
* `NameSet.eq_of_names` — sets with the same names are equal.
-/

namespace BrakeCheck.OrderedMap

variable {β γ : Type}

/-! ### Looking up a changed list -/

theorem lookup_entryOf_append_self (x : String) (o : Option β) (rest : List (String × β))
    (above : ∀ e ∈ rest, x < e.1) : (entryOf x o ++ rest).lookup x = o := by
  have hrest : rest.lookup x = none := by
    rw [List.lookup_eq_none_iff]
    intro e he
    simpa using fun h => String.lt_irrefl x (by simpa [h] using above e he)
  cases o with
  | none => simpa [entryOf] using hrest
  | some b => simp [entryOf]

theorem lookup_entryOf_append_of_ne {x y : String} (h : y ≠ x) (o : Option β)
    (rest : List (String × β)) : (entryOf x o ++ rest).lookup y = rest.lookup y := by
  cases o with
  | none => rfl
  | some b =>
    have hb : (y == x) = false := by simpa using h
    simp [entryOf, List.lookup_cons, hb]

/-- The changed name has the changed value. -/
theorem lookup_alterEntries_self (x : String) (f : Option β → Option β) {es : List (String × β)}
    (h : es.Pairwise fun a b => a.1 < b.1) : (alterEntries x f es).lookup x = f (es.lookup x) := by
  induction es with
  | nil => simpa [alterEntries] using lookup_entryOf_append_self x (f none) [] (by simp)
  | cons d rest ih =>
    obtain ⟨y, b⟩ := d
    obtain ⟨hy, hrest⟩ := List.pairwise_cons.1 h
    unfold alterEntries
    split
    · next hxy =>
      have above : ∀ e ∈ (y, b) :: rest, x < e.1 := by
        intro e he
        rcases List.mem_cons.1 he with rfl | he
        · exact hxy
        · exact String.lt_trans hxy (hy e he)
      have hnone := lookup_entryOf_append_self x none _ above
      rw [lookup_entryOf_append_self x _ _ above]
      simp only [entryOf, List.nil_append] at hnone
      rw [hnone]
    · split
      · next heq =>
        subst heq
        rw [lookup_entryOf_append_self x _ _ hy]
        simp
      · next hne =>
        have hb : (x == y) = false := by simpa using hne
        simp [List.lookup_cons, hb, ih hrest]

/-- The values of the other names stay. -/
theorem lookup_alterEntries_of_ne {x z : String} (h : z ≠ x) (f : Option β → Option β)
    (es : List (String × β)) : (alterEntries x f es).lookup z = es.lookup z := by
  induction es with
  | nil => simpa [alterEntries] using lookup_entryOf_append_of_ne h (f none) []
  | cons d rest ih =>
    obtain ⟨y, b⟩ := d
    unfold alterEntries
    split
    · exact lookup_entryOf_append_of_ne h _ _
    · split
      · next heq =>
        subst heq
        have hb : (z == x) = false := by simpa using h
        rw [lookup_entryOf_append_of_ne h]
        simp [List.lookup_cons, hb]
      · simp [List.lookup_cons, ih]

/-! ### The value of a name -/

@[simp] theorem get?_empty (x : String) : (empty : OrderedMap β).get? x = none := rfl

theorem get?_alter_self (m : OrderedMap β) (x : String) (f : Option β → Option β) :
    (m.alter x f).get? x = f (m.get? x) := lookup_alterEntries_self x f m.ascending

theorem get?_alter_of_ne (m : OrderedMap β) {x y : String} (h : y ≠ x)
    (f : Option β → Option β) : (m.alter x f).get? y = m.get? y :=
  lookup_alterEntries_of_ne h f m.entries

theorem get?_insert (m : OrderedMap β) (x y : String) (b : β) :
    (m.insert x b).get? y = if y = x then some b else m.get? y := by
  by_cases h : y = x
  · subst h
    simp [insert, get?_alter_self]
  · simp [insert, get?_alter_of_ne m h, h]

theorem get?_insertNew (m : OrderedMap β) (x y : String) (b : β) :
    (m.insertNew x b).get? y = if y = x then some (m.getD x b) else m.get? y := by
  by_cases h : y = x
  · subst h
    simp [insertNew, get?_alter_self, getD]
  · simp [insertNew, get?_alter_of_ne m h, h]

theorem get?_erase (m : OrderedMap β) (x y : String) :
    (m.erase x).get? y = if y = x then none else m.get? y := by
  by_cases h : y = x
  · subst h
    simp [erase, get?_alter_self]
  · simp [erase, get?_alter_of_ne m h, h]

@[simp] theorem get?_mapValues (f : β → γ) (m : OrderedMap β) (x : String) :
    (m.mapValues f).get? x = (m.get? x).map f := by
  unfold get? mapValues
  dsimp only
  induction m.entries with
  | nil => rfl
  | cons d rest ih =>
    obtain ⟨y, b⟩ := d
    simp only [List.map_cons, List.lookup_cons]
    split
    · rfl
    · exact ih

/-! ### Names and entries -/

/-- The names of a map are those that have a value. -/
theorem mem_names_iff {m : OrderedMap β} {x : String} : x ∈ m.names ↔ (m.get? x).isSome := by
  unfold names get?
  induction m.entries with
  | nil => simp
  | cons d rest ih =>
    obtain ⟨y, b⟩ := d
    simp only [List.map_cons, List.mem_cons, List.lookup_cons, ih]
    by_cases h : x = y
    · simp [h]
    · have hb : (x == y) = false := by simpa using h
      simp [h, hb]

/-- An entry of a map is a name with its value. -/
theorem mem_toList_iff {m : OrderedMap β} {x : String} {b : β} :
    (x, b) ∈ m.toList ↔ m.get? x = some b := by
  unfold toList get?
  have hasc := m.ascending
  revert hasc
  induction m.entries with
  | nil => simp
  | cons d rest ih =>
    intro hasc
    obtain ⟨y, c⟩ := d
    obtain ⟨hy, hrest⟩ := List.pairwise_cons.1 hasc
    simp only [List.mem_cons, List.lookup_cons, Prod.mk.injEq, ih hrest]
    by_cases h : x = y
    · subst h
      have hnone : rest.lookup x = none := by
        rw [List.lookup_eq_none_iff]
        intro e he
        simpa using fun h => String.lt_irrefl x (by simpa [h] using hy e he)
      simp [hnone, eq_comm]
    · have hb : (x == y) = false := by simpa using h
      simp [h, hb]

/-- Lists of entries with ascending names are equal if they have the same members. -/
theorem entries_ext {as bs : List (String × β)} (ha : as.Pairwise fun a b => a.1 < b.1)
    (hb : bs.Pairwise fun a b => a.1 < b.1) (h : ∀ e, e ∈ as ↔ e ∈ bs) : as = bs := by
  induction as generalizing bs with
  | nil =>
    cases bs with
    | nil => rfl
    | cons b bs => exact absurd ((h b).2 List.mem_cons_self) (by simp)
  | cons a as ih =>
    obtain ⟨ha1, ha2⟩ := List.pairwise_cons.1 ha
    cases bs with
    | nil => exact absurd ((h a).1 List.mem_cons_self) (by simp)
    | cons b bs =>
      obtain ⟨hb1, hb2⟩ := List.pairwise_cons.1 hb
      have heq : a = b := by
        rcases List.mem_cons.1 ((h a).1 List.mem_cons_self) with hab | hab
        · exact hab
        · rcases List.mem_cons.1 ((h b).2 List.mem_cons_self) with hba | hba
          · exact hba.symm
          · exact absurd (String.lt_trans (hb1 a hab) (ha1 b hba)) (String.lt_irrefl _)
      subst heq
      have htail : ∀ e, e ∈ as ↔ e ∈ bs := by
        intro e
        constructor
        · intro he
          rcases List.mem_cons.1 ((h e).1 (List.mem_cons_of_mem _ he)) with heq | he'
          · subst heq
            exact absurd (ha1 e he) (String.lt_irrefl _)
          · exact he'
        · intro he
          rcases List.mem_cons.1 ((h e).2 (List.mem_cons_of_mem _ he)) with heq | he'
          · subst heq
            exact absurd (hb1 e he) (String.lt_irrefl _)
          · exact he'
      rw [ih ha2 hb2 htail]

/-- Maps that give every name the same value are equal. -/
theorem eq_of_get?_eq {m n : OrderedMap β} (h : ∀ x, m.get? x = n.get? x) : m = n := by
  have hentries : m.entries = n.entries := entries_ext m.ascending n.ascending fun e => by
    obtain ⟨x, b⟩ := e
    have hm := mem_toList_iff (m := m) (x := x) (b := b)
    have hn := mem_toList_iff (m := n) (x := x) (b := b)
    rw [toList] at hm hn
    rw [hm, hn, h]
  cases m
  cases n
  simpa using hentries

end BrakeCheck.OrderedMap

namespace BrakeCheck.NameSet

/-! ### Sets of names -/

theorem mem_names_addAll {s : NameSet} {xs : List String} {y : String} :
    y ∈ (s.addAll xs).names ↔ y ∈ s.names ∨ y ∈ xs := by
  induction xs generalizing s with
  | nil => simp [addAll]
  | cons x xs ih =>
    have hinsert : y ∈ (s.insert x ()).names ↔ y = x ∨ y ∈ s.names := by
      rw [OrderedMap.mem_names_iff, OrderedMap.get?_insert, OrderedMap.mem_names_iff]
      split
      · next heq => simp [heq]
      · next hne => simp [hne]
    change y ∈ (addAll (s.insert x ()) xs).names ↔ _
    rw [ih, hinsert, List.mem_cons, or_assoc, or_left_comm]

/-- Sets with the same names are equal. -/
theorem eq_of_names {s t : NameSet} (h : ∀ x, x ∈ s.names ↔ x ∈ t.names) : s = t := by
  refine OrderedMap.eq_of_get?_eq fun x => ?_
  have hx := h x
  rw [OrderedMap.mem_names_iff, OrderedMap.mem_names_iff] at hx
  cases hs : s.get? x <;> cases ht : t.get? x <;> simp [hs, ht] at hx ⊢

/-- Names that are in the set already make no difference to it. -/
theorem addAll_of_forall_mem {s : NameSet} {xs : List String} (h : ∀ x ∈ xs, x ∈ s.names) :
    s.addAll xs = s :=
  eq_of_names fun x => mem_names_addAll.trans (or_iff_left_of_imp (h x))

theorem mem_names_ofList {xs : List String} {y : String} : y ∈ (ofList xs).names ↔ y ∈ xs := by
  unfold ofList
  rw [mem_names_addAll]
  exact or_iff_right List.not_mem_nil

end BrakeCheck.NameSet
