/-!
# Maps ordered by name

Finite maps from names to values, kept as the list of their entries with strictly ascending
names, so that equal maps are equal lists.  Names are ordered by their code points.

## Main definitions

* `OrderedMap.get?`, `OrderedMap.toList` — the value of a name, and all entries.
* `OrderedMap.alter` — changes, adds or removes the entry of one name; `insert`, `erase` and
  `insertNew` are the usual special cases.
* `OrderedMap.mapValues` — applies a function to every value.
* `NameSet` — a finite set of names.
-/

namespace BrakeCheck

/-- A finite map from names to values. -/
structure OrderedMap (β : Type) where
  entries : List (String × β)
  ascending : entries.Pairwise fun a b => a.1 < b.1
  deriving DecidableEq

namespace OrderedMap

variable {β γ : Type}

/-- The entry of a name, if there is to be one. -/
def entryOf (x : String) : Option β → List (String × β)
  | none => []
  | some b => [(x, b)]

/-- Changes the entry of one name in a list of entries. -/
def alterEntries (x : String) (f : Option β → Option β) : List (String × β) → List (String × β)
  | [] => entryOf x (f none)
  | (y, b) :: rest =>
    if x < y then entryOf x (f none) ++ (y, b) :: rest
    else if x = y then entryOf x (f (some b)) ++ rest
    else (y, b) :: alterEntries x f rest

theorem name_of_mem_entryOf {x : String} {o : Option β} {e : String × β} (h : e ∈ entryOf x o) :
    e.1 = x := by
  cases o with
  | none => simp [entryOf] at h
  | some b => simp only [entryOf, List.mem_singleton] at h; rw [h]

theorem pairwise_entryOf_append {x : String} {o : Option β} {rest : List (String × β)}
    (above : ∀ e ∈ rest, x < e.1) (h : rest.Pairwise fun a b => a.1 < b.1) :
    (entryOf x o ++ rest).Pairwise fun a b => a.1 < b.1 := by
  cases o with
  | none => exact h
  | some b => exact List.pairwise_cons.2 ⟨above, h⟩

/-- A name of the changed list is the changed name or was there before. -/
theorem name_of_mem_alterEntries {x : String} {f : Option β → Option β} {e : String × β}
    {es : List (String × β)} (h : e ∈ alterEntries x f es) : e.1 = x ∨ ∃ d ∈ es, d.1 = e.1 := by
  induction es with
  | nil => exact .inl (name_of_mem_entryOf h)
  | cons d rest ih =>
    obtain ⟨y, b⟩ := d
    unfold alterEntries at h
    split at h
    · rcases List.mem_append.1 h with h | h
      · exact .inl (name_of_mem_entryOf h)
      · exact .inr ⟨e, h, rfl⟩
    · split at h
      · rcases List.mem_append.1 h with h | h
        · exact .inl (name_of_mem_entryOf h)
        · exact .inr ⟨e, List.mem_cons_of_mem _ h, rfl⟩
      · rcases List.mem_cons.1 h with rfl | h
        · exact .inr ⟨_, List.mem_cons_self, rfl⟩
        · rcases ih h with h | ⟨d, hd, he⟩
          · exact .inl h
          · exact .inr ⟨d, List.mem_cons_of_mem _ hd, he⟩

/-- Of two names that are different the other one is the smaller if the first is not. -/
theorem name_lt_of_not_lt {x y : String} (h : ¬ x < y) (hne : x ≠ y) : y < x :=
  Decidable.byContradiction fun hyx =>
    hne (String.le_antisymm (String.not_lt.1 hyx) (String.not_lt.1 h))

theorem pairwise_alterEntries (x : String) (f : Option β → Option β) {es : List (String × β)}
    (h : es.Pairwise fun a b => a.1 < b.1) :
    (alterEntries x f es).Pairwise fun a b => a.1 < b.1 := by
  induction es with
  | nil => simpa [alterEntries] using pairwise_entryOf_append (o := f none) (by simp) h
  | cons d rest ih =>
    obtain ⟨y, b⟩ := d
    obtain ⟨hy, hrest⟩ := List.pairwise_cons.1 h
    unfold alterEntries
    split
    · next hxy =>
      refine pairwise_entryOf_append (fun e he => ?_) h
      rcases List.mem_cons.1 he with rfl | he
      · exact hxy
      · exact String.lt_trans hxy (hy e he)
    · next hxy =>
      split
      · next heq =>
        subst heq
        exact pairwise_entryOf_append hy hrest
      · next hne =>
        refine List.pairwise_cons.2 ⟨fun e he => ?_, ih hrest⟩
        rcases name_of_mem_alterEntries he with he | ⟨d, hd, he⟩
        · rw [he]
          exact name_lt_of_not_lt hxy hne
        · rw [← he]
          exact hy d hd

/-- The map without entries. -/
def empty : OrderedMap β := ⟨[], .nil⟩

/-- The entries, by ascending names. -/
def toList (m : OrderedMap β) : List (String × β) := m.entries

/-- The names that have a value, ascending. -/
def names (m : OrderedMap β) : List String := m.entries.map Prod.fst

/-- The number of entries. -/
def size (m : OrderedMap β) : Nat := m.entries.length

/-- Whether there are no entries. -/
def isEmpty (m : OrderedMap β) : Bool := m.entries.isEmpty

/-- The value of a name. -/
def get? (m : OrderedMap β) (x : String) : Option β := m.entries.lookup x

/-- The value of a name, or the given one where it has none. -/
def getD (m : OrderedMap β) (x : String) (b : β) : β := (m.get? x).getD b

/-- Changes the entry of one name: `f` is given its value, if any, and gives the new one. -/
def alter (m : OrderedMap β) (x : String) (f : Option β → Option β) : OrderedMap β :=
  ⟨alterEntries x f m.entries, pairwise_alterEntries x f m.ascending⟩

/-- Gives a name a value, in place of the one it had. -/
def insert (m : OrderedMap β) (x : String) (b : β) : OrderedMap β := m.alter x fun _ => some b

/-- Gives a name a value unless it has one. -/
def insertNew (m : OrderedMap β) (x : String) (b : β) : OrderedMap β :=
  m.alter x fun old => some (old.getD b)

/-- Removes the entry of a name. -/
def erase (m : OrderedMap β) (x : String) : OrderedMap β := m.alter x fun _ => none

/-- Applies a function to every value. -/
def mapValues (f : β → γ) (m : OrderedMap β) : OrderedMap γ :=
  ⟨m.entries.map fun e => (e.1, f e.2), List.pairwise_map.2 m.ascending⟩

/-- The map of a list of entries, of which a later one replaces an earlier one. -/
def ofList (es : List (String × β)) : OrderedMap β :=
  es.foldl (fun m e => m.insert e.1 e.2) empty

instance : EmptyCollection (OrderedMap β) := ⟨empty⟩

instance : Inhabited (OrderedMap β) := ⟨empty⟩

end OrderedMap

/-- A finite set of names, ordered like the names of a map. -/
abbrev NameSet := OrderedMap Unit

namespace NameSet

/-- A set with the names of a list added to it. -/
def addAll (s : NameSet) (xs : List String) : NameSet := xs.foldl (fun s x => s.insert x ()) s

/-- The set of the names in a list. -/
def ofList (xs : List String) : NameSet := addAll ∅ xs

end NameSet

end BrakeCheck
