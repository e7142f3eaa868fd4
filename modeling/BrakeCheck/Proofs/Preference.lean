import BrakeCheck.Linear.Feasibility
import BrakeCheck.Proofs.Interval
import Mathlib

/-!
# Which number of an interval is picked

Zero is picked wherever it is a member.  Of the other intervals, those with one bound always have
an integer, and the one next to the bound is picked.  Between two bounds the only integer that is
tried is the first one strictly above the lower bound.  It belongs to the interval as soon as any
integer above the lower bound does; so the one integer that can be missed is the lower bound
itself, and it is missed where it belongs to the interval, the next integer does not, and the
interval has more than this one member.

## Main definitions

* `Interval.LoneEnd` — the intervals whose only integer is missed.

## Main statements

* `Interval.admits_next` — an integer above the lower bound is found.
* `Interval.integral_pick_iff` — an integer is picked exactly if there is one that is not missed.
* `Interval.pick_preference` — the whole order of preference.
* `Interval.pick_misses_integer` — an interval with an integer in it, and another number picked.
-/

namespace BrakeCheck.Interval

variable {i : Interval} {l u : Bound}

/-- The lower bound is an integer of the interval other than zero; there are numbers of the
interval above it, but the next integer is not one of them. -/
def LoneEnd (i : Interval) : Prop :=
  ∃ (l u : Bound) (n : ℤ), i.lower = some l ∧ i.upper = some u ∧ l.value = n ∧ n ≠ 0 ∧
    l.strict = false ∧ l.value < u.value ∧ ¬ i.admits (n + 1)

/-! ### Members of an interval -/

theorem consistent_of_admits {q : Rat} (h : i.admits q) : i.Consistent := by
  intro l u hl hu
  obtain ⟨habove, hbelow⟩ := (admits_iff i q).1 h
  exact Bound.Meets.of_admits (habove l hl) (hbelow u hu)

theorem le_of_admits (hl : i.lower = some l) {q : Rat} (h : i.admits q) : l.value ≤ q := by
  rcases (Bound.admitsAbove_iff l q).1 (((admits_iff i q).1 h).1 l hl) with hlt | ⟨-, heq⟩
  · exact le_of_lt hlt
  · exact le_of_eq heq.symm

theorem le_upper_of_admits (hu : i.upper = some u) {q : Rat} (h : i.admits q) : q ≤ u.value := by
  rcases (Bound.admitsBelow_iff u q).1 (((admits_iff i q).1 h).2 u hu) with hlt | ⟨-, heq⟩
  · exact le_of_lt hlt
  · exact le_of_eq heq

/-- What lies above the lower bound and below a member is a member. -/
theorem admits_of_le (hl : i.lower = some l) {p q : Rat} (hp : l.value < p) (hpq : p ≤ q)
    (h : i.admits q) : i.admits p := by
  refine (admits_iff i p).2 ⟨fun b hb => ?_, fun b hb => ?_⟩
  · rw [hl, Option.some.injEq] at hb
    subst hb
    exact (Bound.admitsAbove_iff l p).2 (Or.inl hp)
  · have hq := (Bound.admitsBelow_iff b q).1 (((admits_iff i q).1 h).2 b hb)
    refine (Bound.admitsBelow_iff b p).2 ?_
    rcases lt_or_eq_of_le hpq with hlt | rfl
    · exact Or.inl (lt_of_lt_of_le hlt (le_upper_of_admits hb h))
    · exact hq

/-- If an integer above the lower bound belongs to an interval, the first one does. -/
theorem admits_next (hl : i.lower = some l) {n : ℤ} (hn : l.value < n) (h : i.admits n) :
    i.admits ((l.value.floor : Rat) + 1) := by
  have hfloor : l.value < (l.value.floor : Rat) + 1 := by
    have hlt := Rat.lt_floor_add_one l.value
    rwa [Rat.intCast_add] at hlt
  have hle : (l.value.floor : Rat) + 1 ≤ n := by
    have hint : l.value.floor + 1 ≤ n := Rat.floor_lt_iff.2 hn
    have hcast := Rat.intCast_le_intCast.2 hint
    rwa [Rat.intCast_add] at hcast
  exact admits_of_le hl hfloor hle h

/-! ### The number picked, case by case -/

theorem pick_of_admits_zero (h : i.admits 0) : i.pick = 0 := if_pos h

theorem pick_of_bounds (hzero : ¬ i.admits 0) (hl : i.lower = some l) (hu : i.upper = some u) :
    i.pick = i.between l u := by
  unfold pick
  rw [if_neg hzero, hl, hu]

theorem between_of_next (hne : l.value ≠ u.value) (h : i.admits ((l.value.floor : Rat) + 1)) :
    i.between l u = (l.value.floor : Rat) + 1 := by
  unfold between
  rw [if_neg hne]
  exact if_pos h

theorem between_of_not_next (hne : l.value ≠ u.value)
    (h : ¬ i.admits ((l.value.floor : Rat) + 1)) :
    i.between l u = (l.value + u.value) / 2 := by
  unfold between
  rw [if_neg hne]
  exact if_neg h

theorem between_of_eq (h : l.value = u.value) : i.between l u = l.value := if_pos h

/-- The first integer above the lower bound is picked wherever it is a member. -/
theorem integral_between_of_next (hne : l.value ≠ u.value)
    (h : i.admits ((l.value.floor : Rat) + 1)) : ∃ n : ℤ, i.between l u = n := by
  refine ⟨l.value.floor + 1, ?_⟩
  rw [between_of_next hne h, Rat.intCast_add]
  rfl

theorem integral_leastInteger (b : Bound) : ∃ n : ℤ, leastInteger b = n := by
  unfold leastInteger
  split
  · exact ⟨b.value.floor + 1, (Rat.intCast_add _ 1).symm⟩
  · exact ⟨b.value.ceil, rfl⟩

theorem integral_greatestInteger (b : Bound) : ∃ n : ℤ, greatestInteger b = n := by
  obtain ⟨n, hn⟩ := integral_leastInteger b.mirror
  refine ⟨-n, ?_⟩
  rw [greatestInteger_eq_mirror, hn, Rat.intCast_neg]

/-- Unless there are two bounds, the number picked is an integer. -/
theorem integral_pick_of_not_bounds (h : ∀ l u, i.lower = some l → i.upper ≠ some u) :
    ∃ n : ℤ, i.pick = n := by
  unfold pick
  split
  · exact ⟨0, rfl⟩
  · cases hl : i.lower with
    | none =>
      cases hu : i.upper with
      | none => exact ⟨0, rfl⟩
      | some u => exact integral_greatestInteger u
    | some l =>
      cases hu : i.upper with
      | none => exact integral_leastInteger l
      | some u => exact absurd hu (h l u hl)

/-- A number that is not an integer lies in the middle between two bounds.  (Bounds with one value
between them are themselves the middle.) -/
theorem pick_eq_middle (h : ¬ ∃ n : ℤ, i.pick = n) :
    ∃ l u, i.lower = some l ∧ i.upper = some u ∧ i.pick = (l.value + u.value) / 2 := by
  have hbounds : ∃ l u, i.lower = some l ∧ i.upper = some u := by
    by_contra hnone
    refine h (integral_pick_of_not_bounds fun l u hl hu => hnone ⟨l, u, hl, hu⟩)
  obtain ⟨l, u, hl, hu⟩ := hbounds
  have hzero : ¬ i.admits 0 := fun hz => h ⟨0, pick_of_admits_zero hz⟩
  refine ⟨l, u, hl, hu, ?_⟩
  rw [pick_of_bounds hzero hl hu] at h ⊢
  by_cases heq : l.value = u.value
  · rw [between_of_eq heq, ← heq, ← two_mul, mul_div_cancel_left₀ _ two_ne_zero]
  · exact between_of_not_next heq fun hnext => h (integral_between_of_next heq hnext)

/-! ### Integers that are missed -/

/-- In an interval with a lone end all integers but the end are out of reach. -/
theorem LoneEnd.eq_lower (h : i.LoneEnd) {n : ℤ} (hn : i.admits n) :
    ∃ l u, i.lower = some l ∧ i.upper = some u ∧ l.value < u.value ∧ l.value = n ∧ n ≠ 0 := by
  obtain ⟨l, u, m, hl, hu, hm, hne, -, hlt, hnext⟩ := h
  refine ⟨l, u, hl, hu, hlt, ?_⟩
  rcases lt_or_eq_of_le (le_of_admits hl hn) with habove | heq
  · have hadmits := admits_next hl habove hn
    rw [hm, Rat.floor_intCast] at hadmits
    exact absurd hadmits hnext
  · refine ⟨heq, ?_⟩
    rw [hm, Rat.intCast_inj] at heq
    exact heq ▸ hne

/-- The lone end of an interval is missed. -/
theorem LoneEnd.not_integral_pick (h : i.LoneEnd) (hi : i.Consistent) :
    ¬ ∃ n : ℤ, i.pick = n := by
  rintro ⟨n, hn⟩
  have hadmits := admits_pick hi
  rw [hn] at hadmits
  obtain ⟨l, u, hl, hu, hlt, heq, hne⟩ := h.eq_lower hadmits
  have hzero : ¬ i.admits 0 := by
    intro hz
    rw [pick_of_admits_zero hz, eq_comm] at hn
    exact hne (Rat.intCast_inj.1 hn)
  -- neither the next integer nor the middle is the lower bound
  rw [pick_of_bounds hzero hl hu, ← heq] at hn
  by_cases hnext : i.admits ((l.value.floor : Rat) + 1)
  · rw [between_of_next (ne_of_lt hlt) hnext, heq, Rat.floor_intCast] at hn
    linarith
  · rw [between_of_not_next (ne_of_lt hlt) hnext] at hn
    linarith

/-- No other integer is missed. -/
theorem integral_pick_of_admits {n : ℤ} (hn : i.admits n) (h : ¬ i.LoneEnd) :
    ∃ m : ℤ, i.pick = m := by
  by_contra hnot
  obtain ⟨l, u, hl, hu, -⟩ := pick_eq_middle hnot
  have hzero : ¬ i.admits 0 := fun hz => hnot ⟨0, pick_of_admits_zero hz⟩
  rw [pick_of_bounds hzero hl hu] at hnot
  have hlower := le_of_admits hl hn
  have hupper := le_upper_of_admits hu hn
  by_cases heq : l.value = u.value
  · -- the only member is the integer
    refine hnot ⟨n, ?_⟩
    rw [between_of_eq heq]
    linarith
  · have hnext : ¬ i.admits ((l.value.floor : Rat) + 1) :=
      fun hnext => hnot (integral_between_of_next heq hnext)
    have hend : l.value = n := by
      rcases lt_or_eq_of_le hlower with hlt | hend
      · exact absurd (admits_next hl hlt hn) hnext
      · exact hend
    have hne : n ≠ 0 := by
      rintro rfl
      exact hzero hn
    have hclosed : l.strict = false := by
      rcases (Bound.admitsAbove_iff l n).1 (((admits_iff i n).1 hn).1 l hl) with hlt | ⟨hs, -⟩
      · exact absurd hend (ne_of_lt hlt)
      · exact hs
    rw [hend, Rat.floor_intCast] at hnext
    exact h ⟨l, u, n, hl, hu, hend, hne, hclosed, lt_of_le_of_ne (hlower.trans hupper) heq, hnext⟩

/-- An integer is picked exactly if the interval has one that is not missed. -/
theorem integral_pick_iff (hi : i.Consistent) :
    (∃ n : ℤ, i.pick = n) ↔ (∃ n : ℤ, i.admits n) ∧ ¬ i.LoneEnd := by
  constructor
  · rintro ⟨n, hn⟩
    exact ⟨⟨n, hn ▸ admits_pick hi⟩, fun hend => hend.not_integral_pick hi ⟨n, hn⟩⟩
  · rintro ⟨⟨n, hn⟩, hend⟩
    exact integral_pick_of_admits hn hend

/-- The order of preference.  The number picked from an interval that has any is one of them.  It
is zero where zero is in the interval; it is an integer exactly if the interval has one, unless its
only integer is a lower bound, other than zero, above which the interval goes on; and all other
numbers picked lie in the middle between two bounds. -/
theorem pick_preference (h : ∃ q, i.admits q) :
    i.admits i.pick ∧ (i.admits 0 → i.pick = 0) ∧
      ((∃ n : ℤ, i.pick = n) ↔ (∃ n : ℤ, i.admits n) ∧ ¬ i.LoneEnd) ∧
      ((¬ ∃ n : ℤ, i.pick = n) →
        ∃ l u, i.lower = some l ∧ i.upper = some u ∧ i.pick = (l.value + u.value) / 2) := by
  obtain ⟨q, hq⟩ := h
  have hi := consistent_of_admits hq
  exact ⟨admits_pick hi, pick_of_admits_zero, integral_pick_iff hi, pick_eq_middle⟩

/-- Between five halves, which are excluded, and three, which are not, an integer is picked. -/
theorem pick_preference_half_open :
    (∃ q, Interval.admits ⟨some ⟨5 / 2, true⟩, some ⟨3, false⟩⟩ q) ∧
      ∃ n : ℤ, Interval.pick ⟨some ⟨5 / 2, true⟩, some ⟨3, false⟩⟩ = n := by
  have hthree : Interval.admits ⟨some ⟨5 / 2, true⟩, some ⟨3, false⟩⟩ (3 : ℤ) := by decide +kernel
  have hend : ¬ LoneEnd ⟨some ⟨5 / 2, true⟩, some ⟨3, false⟩⟩ := by
    rintro ⟨l, -, -, hl, -, -, -, hclosed, -⟩
    cases hl
    cases hclosed
  exact ⟨⟨_, hthree⟩, (pick_preference ⟨_, hthree⟩).2.2.1.2 ⟨⟨3, hthree⟩, hend⟩⟩

/-- The integer two is missed between two and five halves: the number picked is nine quarters, and
so it is in the solution of the constraints `2 ≤ x` and `x ≤ 5 / 2`. -/
theorem pick_misses_integer :
    Interval.admits ⟨some ⟨2, false⟩, some ⟨5 / 2, false⟩⟩ (2 : ℤ) ∧
      ¬ Interval.admits ⟨some ⟨2, false⟩, some ⟨5 / 2, false⟩⟩ 0 ∧
      Interval.pick ⟨some ⟨2, false⟩, some ⟨5 / 2, false⟩⟩ = 9 / 4 ∧
      (¬ ∃ n : ℤ, (9 / 4 : Rat) = n) ∧
      Linear.check [.leZero (.const 2 - .var "x"), .leZero (.var "x" - .const (5 / 2))] =
        .feasible (OrderedMap.empty.insert "x" (9 / 4)) := by
  have hnot : ¬ ∃ n : ℤ, (9 / 4 : Rat) = n := by
    rintro ⟨n, hn⟩
    have hden := congrArg Rat.den hn
    rw [Rat.den_intCast] at hden
    exact absurd hden (by decide +kernel)
  exact ⟨by decide +kernel, by decide +kernel, by decide +kernel, hnot, by cbv⟩

end BrakeCheck.Interval
