import BrakeCheck.Linear.Interval
import Mathlib.Algebra.Order.Field.Rat
import Mathlib.Tactic.Linarith

/-!
# Numbers in intervals

One more bound cuts an interval off by just the numbers that the bound does not admit.  An
interval is empty only if its two bounds leave nothing between them, and the number that is picked
from an interval that is not empty is a number of it.

## Main definitions

* `Bound.Meets` — there are numbers above a lower and below an upper bound.
* `Interval.Consistent` — the bounds of an interval leave something between them.

## Main statements

* `Interval.admits_raise`, `Interval.admits_reduce` — the numbers left by one more bound.
* `Interval.admits_pick` — the number picked from an interval that is not empty.
-/

namespace BrakeCheck

namespace Bound

theorem admitsAbove_iff (b : Bound) (q : Rat) :
    b.admitsAbove q ↔ b.value < q ∨ b.strict = false ∧ q = b.value := by
  simp [admitsAbove]

theorem admitsBelow_iff (b : Bound) (q : Rat) :
    b.admitsBelow q ↔ q < b.value ∨ b.strict = false ∧ q = b.value := by
  simp [admitsBelow]

/-- What is above the greater of two bounds is above the other one. -/
theorem admitsAbove_of_lt {a b : Bound} (hlt : a.value < b.value) {q : Rat} (h : b.admitsAbove q) :
    a.admitsAbove q := by
  rw [admitsAbove_iff] at h ⊢
  rcases h with h | ⟨-, rfl⟩
  · exact Or.inl (lt_trans hlt h)
  · exact Or.inl hlt

/-- Of two lower bounds the tighter one says what both say. -/
theorem admitsAbove_tighterLower (a b : Bound) (q : Rat) :
    (tighterLower a b).admitsAbove q ↔ a.admitsAbove q ∧ b.admitsAbove q := by
  unfold tighterLower
  split
  · next hlt => exact ⟨fun h => ⟨h, admitsAbove_of_lt hlt h⟩, fun h => h.1⟩
  · next hnot =>
    split
    · next heq =>
      rw [admitsAbove_iff, admitsAbove_iff, admitsAbove_iff, heq, Bool.or_eq_false_iff]
      constructor
      · rintro (h | ⟨⟨ha, hb⟩, h⟩)
        · exact ⟨Or.inl h, Or.inl h⟩
        · exact ⟨Or.inr ⟨ha, h⟩, Or.inr ⟨hb, h⟩⟩
      · rintro ⟨h | ⟨ha, h⟩, h' | ⟨hb, h'⟩⟩
        · exact Or.inl h
        · exact Or.inl h
        · exact Or.inl h'
        · exact Or.inr ⟨⟨ha, hb⟩, h⟩
    · next hne =>
      have hlt : a.value < b.value := lt_of_le_of_ne (not_lt.1 hnot) hne
      exact ⟨fun h => ⟨admitsAbove_of_lt hlt h, h⟩, fun h => h.2⟩

/-- The tighter of two lower bounds is one of them. -/
theorem tighterLower_eq (a b : Bound) : tighterLower a b = a ∨ tighterLower a b = b := by
  obtain ⟨p, s⟩ := a
  obtain ⟨q, t⟩ := b
  unfold tighterLower
  split
  · exact Or.inl rfl
  · split
    · next heq =>
      dsimp only at heq
      subst heq
      cases s with
      | false => exact Or.inr rfl
      | true => exact Or.inl rfl
    · exact Or.inr rfl

/-! ### Upper bounds are lower bounds in the mirror -/

/-- The mirror image of a bound: an upper bound becomes a lower one. -/
def mirror (b : Bound) : Bound := ⟨-b.value, b.strict⟩

@[simp] theorem mirror_mirror (b : Bound) : b.mirror.mirror = b := by
  unfold mirror
  rw [neg_neg]

theorem admitsBelow_eq_mirror (b : Bound) (q : Rat) :
    b.admitsBelow q = b.mirror.admitsAbove (-q) := by
  unfold admitsBelow admitsAbove mirror
  simp only [neg_lt_neg_iff, neg_inj]

theorem tighterUpper_eq_mirror (a b : Bound) :
    tighterUpper a b = (tighterLower a.mirror b.mirror).mirror := by
  unfold tighterUpper tighterLower
  have hlt : b.mirror.value < a.mirror.value ↔ a.value < b.value := neg_lt_neg_iff
  have heq : a.mirror.value = b.mirror.value ↔ a.value = b.value := neg_inj
  rw [apply_ite mirror, apply_ite mirror, mirror_mirror, mirror_mirror]
  simp only [hlt, heq]
  simp [mirror]

/-- Of two upper bounds the tighter one says what both say. -/
theorem admitsBelow_tighterUpper (a b : Bound) (q : Rat) :
    (tighterUpper a b).admitsBelow q ↔ a.admitsBelow q ∧ b.admitsBelow q := by
  simp only [tighterUpper_eq_mirror, admitsBelow_eq_mirror, mirror_mirror,
    admitsAbove_tighterLower]

/-- The tighter of two upper bounds is one of them. -/
theorem tighterUpper_eq (a b : Bound) : tighterUpper a b = a ∨ tighterUpper a b = b := by
  rw [tighterUpper_eq_mirror]
  rcases tighterLower_eq a.mirror b.mirror with h | h
  · exact Or.inl (by rw [h, mirror_mirror])
  · exact Or.inr (by rw [h, mirror_mirror])

/-! ### Bounds that meet -/

/-- There are numbers above a lower and below an upper bound. -/
def Meets (l u : Bound) : Prop :=
  l.value < u.value ∨ l.strict = false ∧ u.strict = false ∧ l.value = u.value

theorem Meets.of_admits {l u : Bound} {q : Rat} (hl : l.admitsAbove q) (hu : u.admitsBelow q) :
    Meets l u := by
  rw [admitsAbove_iff] at hl
  rw [admitsBelow_iff] at hu
  rcases hl with hl | ⟨hls, hl⟩ <;> rcases hu with hu | ⟨hus, hu⟩
  · exact Or.inl (lt_trans hl hu)
  · exact Or.inl (hu ▸ hl)
  · exact Or.inl (hl ▸ hu)
  · exact Or.inr ⟨hls, hus, hl.symm.trans hu⟩

end Bound

namespace Interval

theorem admits_iff (i : Interval) (q : Rat) :
    i.admits q ↔
      (∀ l, i.lower = some l → l.admitsAbove q) ∧ (∀ u, i.upper = some u → u.admitsBelow q) := by
  unfold admits
  rw [Bool.and_eq_true, Option.all_eq_true, Option.all_eq_true]

/-- The numbers that one more lower bound leaves in an interval. -/
theorem admits_raise (i : Interval) (b : Bound) (q : Rat) :
    (i.raise b).admits q ↔ i.admits q ∧ b.admitsAbove q := by
  obtain ⟨lower, upper⟩ := i
  cases lower with
  | none => simp [raise, admits, and_comm]
  | some l => simp [raise, admits, Bound.admitsAbove_tighterLower, and_right_comm]

/-- The numbers that one more upper bound leaves in an interval. -/
theorem admits_reduce (i : Interval) (b : Bound) (q : Rat) :
    (i.reduce b).admits q ↔ i.admits q ∧ b.admitsBelow q := by
  obtain ⟨lower, upper⟩ := i
  cases upper with
  | none => simp [reduce, admits]
  | some u => simp [reduce, admits, Bound.admitsBelow_tighterUpper, and_assoc]

/-- The lower bound after one more is the one before or the new one. -/
theorem lower_raise {i : Interval} {b l : Bound} (h : (i.raise b).lower = some l) :
    i.lower = some l ∨ l = b := by
  rw [raise, Option.some.injEq] at h
  cases hi : i.lower with
  | none =>
    rw [hi] at h
    exact Or.inr h.symm
  | some p =>
    rw [hi, Option.elim_some] at h
    rcases Bound.tighterLower_eq p b with hp | hp
    · exact Or.inl (congrArg some (hp.symm.trans h))
    · exact Or.inr (hp.symm.trans h).symm

/-- The upper bound after one more is the one before or the new one. -/
theorem upper_reduce {i : Interval} {b u : Bound} (h : (i.reduce b).upper = some u) :
    i.upper = some u ∨ u = b := by
  rw [reduce, Option.some.injEq] at h
  cases hi : i.upper with
  | none =>
    rw [hi] at h
    exact Or.inr h.symm
  | some p =>
    rw [hi, Option.elim_some] at h
    rcases Bound.tighterUpper_eq p b with hp | hp
    · exact Or.inl (congrArg some (hp.symm.trans h))
    · exact Or.inr (hp.symm.trans h).symm

/-! ### Intervals that are not empty -/

/-- The bounds of an interval leave something between them. -/
def Consistent (i : Interval) : Prop :=
  ∀ l u, i.lower = some l → i.upper = some u → Bound.Meets l u

theorem admitsAbove_leastInteger (b : Bound) : b.admitsAbove (leastInteger b) := by
  rw [Bound.admitsAbove_iff]
  unfold leastInteger
  cases hs : b.strict with
  | true =>
    have h := Rat.lt_floor_add_one b.value
    rw [Rat.intCast_add] at h
    exact Or.inl h
  | false =>
    rcases lt_or_eq_of_le (Rat.le_ceil (x := b.value)) with h | h
    · exact Or.inl h
    · exact Or.inr ⟨rfl, h.symm⟩

theorem greatestInteger_eq_mirror (b : Bound) : greatestInteger b = -leastInteger b.mirror := by
  have hfloor : (-b.value).floor = -b.value.ceil := by rw [Rat.ceil_eq_neg_floor_neg, neg_neg]
  have hceil : (-b.value).ceil = -b.value.floor := by rw [Rat.ceil_eq_neg_floor_neg, neg_neg]
  unfold greatestInteger leastInteger Bound.mirror
  dsimp only
  split
  · rw [hfloor, Rat.intCast_neg]
    linarith
  · rw [hceil, Rat.intCast_neg, neg_neg]

theorem admitsBelow_greatestInteger (b : Bound) : b.admitsBelow (greatestInteger b) := by
  rw [greatestInteger_eq_mirror, Bound.admitsBelow_eq_mirror, neg_neg]
  exact admitsAbove_leastInteger b.mirror

theorem admits_between {i : Interval} {l u : Bound} (hl : i.lower = some l) (hu : i.upper = some u)
    (h : Bound.Meets l u) : i.admits (i.between l u) := by
  have hadmits : ∀ q, l.admitsAbove q → u.admitsBelow q → i.admits q := by
    intro q hlq huq
    refine (admits_iff i q).2 ⟨fun b hb => ?_, fun b hb => ?_⟩
    · rw [hl, Option.some.injEq] at hb
      exact hb ▸ hlq
    · rw [hu, Option.some.injEq] at hb
      exact hb ▸ huq
  unfold between
  split
  · next heq =>
    -- bounds with one value between them are not strict
    rcases h with h | ⟨hls, hus, -⟩
    · exact absurd heq (ne_of_lt h)
    · exact hadmits _ ((Bound.admitsAbove_iff _ _).2 (Or.inr ⟨hls, rfl⟩))
        ((Bound.admitsBelow_iff _ _).2 (Or.inr ⟨hus, heq⟩))
  · next hne =>
    have hlt : l.value < u.value := by
      rcases h with h | ⟨-, -, h⟩
      · exact h
      · exact absurd h hne
    dsimp only
    split
    · next hcandidate => exact hcandidate
    · exact hadmits _ ((Bound.admitsAbove_iff _ _).2 (Or.inl (by linarith)))
        ((Bound.admitsBelow_iff _ _).2 (Or.inl (by linarith)))

/-- The number picked from an interval that is not empty is in the interval. -/
theorem admits_pick {i : Interval} (h : i.Consistent) : i.admits i.pick := by
  unfold pick
  split
  · next hzero => exact hzero
  · cases hl : i.lower with
    | none =>
      cases hu : i.upper with
      | none => simp [admits, hl, hu]
      | some u => simpa [admits, hl, hu] using admitsBelow_greatestInteger u
    | some l =>
      cases hu : i.upper with
      | none => simpa [admits, hl, hu] using admitsAbove_leastInteger l
      | some u => exact admits_between hl hu (h l u hl hu)

end Interval

end BrakeCheck
