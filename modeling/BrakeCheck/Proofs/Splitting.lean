import BrakeCheck.Rational.Reader

/-!
# Cutting texts

A text is cut in two ways before it is read.  Trimming takes the blanks at its two ends away, all of
them and nothing else.  Splitting divides it at the first occurrence of a character.

## Main definitions

* `Text.Trimmed` — what is left of a text without the blanks around it.

## Main statements

* `Text.trimmed_iff` — this is what trimming gives.
* `Rational.splitFirst?_eq_some_iff`, `Rational.splitFirst?_eq_none_iff` — where a text is divided.
-/

namespace BrakeCheck

/-! ### Trimming -/

namespace Text

variable {cs t before after : List Char}

/-- Nothing but blanks. -/
def AllBlank (cs : List Char) : Prop := ∀ c ∈ cs, isBlank c = true

-- decided over the members of the text, and not over all characters
instance (cs : List Char) : Decidable (AllBlank cs) :=
  List.decidableBAll (fun c => isBlank c = true) cs

/-- Not a single blank. -/
def NoBlank (cs : List Char) : Prop := ∀ c ∈ cs, isBlank c = false

instance (cs : List Char) : Decidable (NoBlank cs) :=
  List.decidableBAll (fun c => isBlank c = false) cs

/-- `t` is what is left of a text without the blanks around it. -/
structure Trimmed (cs t : List Char) : Prop where
  surrounded : ∃ before after, cs = before ++ t ++ after ∧ AllBlank before ∧ AllBlank after
  head : ∀ c ∈ t.head?, isBlank c = false
  last : ∀ c ∈ t.getLast?, isBlank c = false

theorem dropWhile_eq_self {p : Char → Bool} (h : ∀ c ∈ cs.head?, p c = false) :
    cs.dropWhile p = cs := by
  cases cs with
  | nil => rfl
  | cons c cs => exact List.dropWhile_cons_of_neg (by rw [h c rfl]; exact Bool.false_ne_true)

theorem head_dropWhile {p : Char → Bool} (cs : List Char) :
    ∀ c ∈ (cs.dropWhile p).head?, p c = false := by
  intro c hc
  have hnot := List.head?_dropWhile_not p cs
  rw [Option.mem_def] at hc
  rwa [hc] at hnot

/-- Blanks at the end make no difference. -/
theorem trimEnd_append (hafter : AllBlank after) : trimEnd (cs ++ after) = trimEnd cs := by
  unfold trimEnd
  have hreverse : AllBlank after.reverse := fun c hc => hafter c (List.mem_reverse.1 hc)
  rw [List.reverse_append, List.dropWhile_append_of_pos hreverse]

theorem trimEnd_eq_self (h : ∀ c ∈ cs.getLast?, isBlank c = false) : trimEnd cs = cs := by
  unfold trimEnd
  rw [dropWhile_eq_self, List.reverse_reverse]
  rwa [List.head?_reverse]

/-- There is only one text left without the blanks, the one that trimming gives. -/
theorem Trimmed.trim_eq (h : Trimmed cs t) : trim cs = t := by
  obtain ⟨before, after, rfl, hbefore, hafter⟩ := h.surrounded
  have hstart : (before ++ t ++ after).dropWhile isBlank = (t ++ after).dropWhile isBlank := by
    rw [List.append_assoc, List.dropWhile_append_of_pos hbefore]
  rw [trim, hstart]
  by_cases hnil : t = []
  · -- there is nothing but blanks, and the ones at the end are dropped first of all
    subst hnil
    rw [List.nil_append, ← List.append_nil after, List.dropWhile_append_of_pos hafter]
    rfl
  · have hhead : ∀ c ∈ (t ++ after).head?, isBlank c = false := by
      obtain ⟨c, t, rfl⟩ := List.exists_cons_of_ne_nil hnil
      exact h.head
    rw [dropWhile_eq_self hhead, trimEnd_append hafter, trimEnd_eq_self h.last]

/-- A text with the blanks that have been dropped at its end. -/
theorem exists_trimEnd_append (cs : List Char) :
    ∃ after, cs = trimEnd cs ++ after ∧ AllBlank after := by
  refine ⟨(cs.reverse.takeWhile isBlank).reverse, ?_, fun c hc => ?_⟩
  · rw [trimEnd, ← List.reverse_append, List.takeWhile_append_dropWhile, List.reverse_reverse]
  · exact List.all_eq_true.1 List.all_takeWhile c (List.mem_reverse.1 hc)

theorem trimmed_trim (cs : List Char) : Trimmed cs (trim cs) where
  surrounded := by
    obtain ⟨after, hafter, hblank⟩ := exists_trimEnd_append (cs.dropWhile isBlank)
    refine ⟨cs.takeWhile isBlank, after, ?_, List.all_eq_true.1 List.all_takeWhile, hblank⟩
    rw [trim, List.append_assoc, ← hafter, List.takeWhile_append_dropWhile]
  head := by
    -- what is left begins as the text does after its first blanks
    obtain ⟨after, hafter, -⟩ := exists_trimEnd_append (cs.dropWhile isBlank)
    intro c hc
    refine head_dropWhile cs c ?_
    rw [hafter, List.head?_append, ← trim, Option.mem_def.1 hc]
    rfl
  last := by
    rw [trim, trimEnd, List.getLast?_reverse]
    exact head_dropWhile _

/-- Trimming takes away the blanks around a text, and nothing else. -/
theorem trimmed_iff : Trimmed cs t ↔ trim cs = t :=
  ⟨Trimmed.trim_eq, fun h => h ▸ trimmed_trim cs⟩

theorem Trimmed.length_le (h : Trimmed cs t) : t.length ≤ cs.length := by
  obtain ⟨before, after, rfl, -⟩ := h.surrounded
  simp only [List.length_append]
  omega

/-- A text without blanks comes out again from between blanks. -/
theorem trim_surrounded (hbefore : AllBlank before) (hafter : AllBlank after) (h : NoBlank t) :
    trim (before ++ t ++ after) = t :=
  Trimmed.trim_eq ⟨⟨before, after, rfl, hbefore, hafter⟩,
    fun c hc => h c (List.mem_of_mem_head? hc), fun c hc => h c (List.mem_of_getLast? hc)⟩

/-- A text without blanks is left as it is. -/
theorem trim_of_noBlank (h : NoBlank t) : trim t = t := by
  have hnil : AllBlank [] := fun _ hc => absurd hc List.not_mem_nil
  simpa using trim_surrounded hnil hnil h

end Text

/-! ### Splitting -/

namespace Rational

variable {c : Char} {cs before after : List Char}

theorem splitFirst?_eq_none_iff : splitFirst? c cs = none ↔ c ∉ cs := by
  rw [splitFirst?, ite_eq_right_iff]
  exact ⟨fun h hc => (Option.some_ne_none _ (h hc)).elim, fun h hc => absurd hc h⟩

theorem splitFirst?_append (h : c ∉ before) :
    splitFirst? c (before ++ c :: after) = some (before, after) := by
  have hpos : ∀ d ∈ before, (d != c) = true := fun d hd => bne_iff_ne.2 fun heq => h (heq ▸ hd)
  have htake : (c :: after).takeWhile (· != c) = [] := List.takeWhile_cons_of_neg (by simp)
  have hdrop : (c :: after).dropWhile (· != c) = c :: after :=
    List.dropWhile_cons_of_neg (by simp)
  rw [splitFirst?, if_pos (List.mem_append_right _ List.mem_cons_self),
    List.takeWhile_append_of_pos hpos, List.dropWhile_append_of_pos hpos, htake, hdrop,
    List.append_nil, List.tail_cons]

/-- A text is divided at the first occurrence of a character. -/
theorem splitFirst?_eq_some_iff :
    splitFirst? c cs = some (before, after) ↔ cs = before ++ c :: after ∧ c ∉ before := by
  constructor
  · intro h
    have hmem : c ∈ cs := Decidable.of_not_not fun hnot => by
      rw [splitFirst?_eq_none_iff.2 hnot] at h
      cases h
    obtain ⟨first, rest, rfl, hfirst⟩ := List.eq_append_cons_of_mem hmem
    rw [splitFirst?_append hfirst, Option.some.injEq, Prod.mk.injEq] at h
    obtain ⟨rfl, rfl⟩ := h
    exact ⟨rfl, hfirst⟩
  · rintro ⟨rfl, h⟩
    exact splitFirst?_append h

end Rational

end BrakeCheck
