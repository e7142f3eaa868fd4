import BrakeCheck.Pairing
import Mathlib.Algebra.Order.Ring.Nat
import Mathlib.Data.Nat.Pairing
import Mathlib.Data.Set.Function

/-!
# Words as pairs of half words

The square shells up to a side of `2 ^ 32` have `2 ^ 64` members, as many as there are words.  So
the walk along them gives every word to one pair of half words, and on its way to a word the
arithmetic never leaves the words.  From there on words are given again.  The shell of a word is its
integer square root, so that the pair can be found from the word.

## Main definitions

* `sum?`, `product?`, `exactPair?` — arithmetic that notices a result which is no word.

## Main statements

* `toNat_pair` — the word of two half words is that of the walk over all numbers.
* `pair_bijOn_halves` — half words are paired exactly, and each word is that of one pair.
-/

namespace BrakeCheck

/-! ### Arithmetic without wrapping around -/

/-- The sum of two words, if it is a word. -/
def sum? (a b : UInt64) : Option UInt64 :=
  if a.toNat + b.toNat < UInt64.size then some (a + b) else none

/-- The product of two words, if it is a word. -/
def product? (a b : UInt64) : Option UInt64 :=
  if a.toNat * b.toNat < UInt64.size then some (a * b) else none

/-- The word of a pair, if all sums and products on the way to it are words. -/
def exactPair? (a b : UInt64) : Option UInt64 := do
  if a < b then sum? (← product? b b) a
  else sum? (← sum? (← product? a a) a) b

variable {a b : UInt64}

theorem product?_eq (h : a.toNat * b.toNat < UInt64.size) :
    product? a b = some (a * b) ∧ (a * b).toNat = a.toNat * b.toNat :=
  ⟨if_pos h, by rw [UInt64.toNat_mul, Nat.mod_eq_of_lt h]⟩

theorem sum?_eq (h : a.toNat + b.toNat < UInt64.size) :
    sum? a b = some (a + b) ∧ (a + b).toNat = a.toNat + b.toNat :=
  ⟨if_pos h, by rw [UInt64.toNat_add, Nat.mod_eq_of_lt h]⟩

/-! ### The walk over all numbers -/

/-- The shells below a side `n` are the first `n ^ 2` steps of the walk. -/
theorem pair_lt_sq_iff {i j n : Nat} : Nat.pair i j < n ^ 2 ↔ i < n ∧ j < n := by
  rw [← Nat.max_lt]
  constructor
  · intro h
    have hshell : max i j ^ 2 < n ^ 2 :=
      Nat.lt_of_le_of_lt (Nat.le_trans (Nat.le_add_right _ _) (Nat.max_sq_add_min_le_pair i j)) h
    exact lt_of_pow_lt_pow_left₀ 2 (Nat.zero_le n) hshell
  · intro h
    exact Nat.lt_of_lt_of_le (Nat.pair_lt_max_add_one_sq i j) (Nat.pow_le_pow_left h 2)

/-- As long as the walk over all numbers has not reached the number of words, no step on the way to
a word wraps around, and the word is where that walk is. -/
theorem exactPair?_of_lt (h : Nat.pair a.toNat b.toNat < UInt64.size) :
    exactPair? a b = some (pair a b) ∧ (pair a b).toNat = Nat.pair a.toNat b.toNat := by
  unfold Nat.pair at h ⊢
  unfold exactPair? pair
  by_cases hlt : a < b
  · simp only [if_pos hlt, if_pos (UInt64.lt_iff_toNat_lt.1 hlt)] at h ⊢
    obtain ⟨hproduct, hsquare⟩ := product?_eq (a := b) (b := b) (by omega)
    obtain ⟨hsum, hvalue⟩ := sum?_eq (a := b * b) (b := a) (by omega)
    rw [hproduct]
    exact ⟨hsum, by rw [hvalue, hsquare]⟩
  · simp only [if_neg hlt, if_neg (fun hab => hlt (UInt64.lt_iff_toNat_lt.2 hab))] at h ⊢
    obtain ⟨hproduct, hsquare⟩ := product?_eq (a := a) (b := a) (by omega)
    obtain ⟨hfirst, hside⟩ := sum?_eq (a := a * a) (b := a) (by omega)
    obtain ⟨hsum, hvalue⟩ := sum?_eq (a := a * a + a) (b := b) (by omega)
    rw [hproduct, Option.bind_eq_bind, Option.bind_some, hfirst]
    exact ⟨hsum, by rw [hvalue, hside, hsquare]⟩

/-! ### Half words -/

theorem toNat_pair (ha : a.toNat < 2 ^ 32) (hb : b.toNat < 2 ^ 32) :
    exactPair? a b = some (pair a b) ∧ (pair a b).toNat = Nat.pair a.toNat b.toNat :=
  exactPair?_of_lt (Nat.lt_of_lt_of_eq (pair_lt_sq_iff.2 ⟨ha, hb⟩) rfl)

/-- Different pairs of half words have different words. -/
theorem pair_injOn : Set.InjOn (fun p : UInt64 × UInt64 => pair p.1 p.2)
    {p | p.1.toNat < 2 ^ 32 ∧ p.2.toNat < 2 ^ 32} := by
  rintro ⟨a, b⟩ ⟨ha, hb⟩ ⟨c, d⟩ ⟨hc, hd⟩ h
  have hwalk : Nat.pair a.toNat b.toNat = Nat.pair c.toNat d.toNat := by
    rw [← (toNat_pair ha hb).2, ← (toNat_pair hc hd).2]
    exact congrArg UInt64.toNat h
  obtain ⟨hac, hbd⟩ := Nat.pair_eq_pair.1 hwalk
  exact Prod.ext (UInt64.toNat_inj.1 hac) (UInt64.toNat_inj.1 hbd)

/-- Every word is that of a pair of half words: the place at which the walk arrives there. -/
theorem pair_surjOn : Set.SurjOn (fun p : UInt64 × UInt64 => pair p.1 p.2)
    {p | p.1.toNat < 2 ^ 32 ∧ p.2.toNat < 2 ^ 32} Set.univ := by
  intro w _
  obtain ⟨i, j, hw⟩ : ∃ i j, Nat.pair i j = w.toNat := ⟨_, _, Nat.pair_unpair w.toNat⟩
  obtain ⟨hi, hj⟩ : i < 2 ^ 32 ∧ j < 2 ^ 32 :=
    pair_lt_sq_iff.1 (hw ▸ Nat.lt_of_lt_of_eq w.toNat_lt rfl)
  have hi' : (UInt64.ofNat i).toNat = i := UInt64.toNat_ofNat_of_lt' (Nat.lt_trans hi (by decide))
  have hj' : (UInt64.ofNat j).toNat = j := UInt64.toNat_ofNat_of_lt' (Nat.lt_trans hj (by decide))
  refine ⟨(.ofNat i, .ofNat j), ⟨by rwa [hi'], by rwa [hj']⟩, UInt64.toNat_inj.1 ?_⟩
  rw [(toNat_pair (by rwa [hi']) (by rwa [hj'])).2, hi', hj', hw]

/-- Different triples have different words if the word of their first two members is a half word,
because these are quarters of one. -/
theorem triple_injOn : Set.InjOn (fun p : UInt64 × UInt64 × UInt64 => triple p.1 p.2.1 p.2.2)
    {p | p.1.toNat < 2 ^ 16 ∧ p.2.1.toNat < 2 ^ 16 ∧ p.2.2.toNat < 2 ^ 32} := by
  have half : ∀ {a b : UInt64}, a.toNat < 2 ^ 16 → b.toNat < 2 ^ 16 →
      a.toNat < 2 ^ 32 ∧ b.toNat < 2 ^ 32 ∧ (pair a b).toNat < 2 ^ 32 := by
    intro a b ha hb
    have ha' : a.toNat < 2 ^ 32 := by omega
    have hb' : b.toNat < 2 ^ 32 := by omega
    refine ⟨ha', hb', ?_⟩
    rw [(toNat_pair ha' hb').2]
    exact Nat.lt_of_lt_of_eq (pair_lt_sq_iff.2 ⟨ha, hb⟩) rfl
  rintro ⟨a, b, c⟩ ⟨ha, hb, hc⟩ ⟨a', b', c'⟩ ⟨ha', hb', hc'⟩ h
  obtain ⟨hha, hhb, hhab⟩ := half ha hb
  obtain ⟨hha', hhb', hhab'⟩ := half ha' hb'
  -- the last members are equal, and so are the words of the first two
  obtain ⟨hfirst, rfl⟩ := Prod.mk.inj (@pair_injOn (pair a b, c) ⟨hhab, hc⟩ (pair a' b', c')
    ⟨hhab', hc'⟩ h)
  obtain ⟨rfl, rfl⟩ := Prod.mk.inj (@pair_injOn (a, b) ⟨hha, hhb⟩ (a', b') ⟨hha', hhb'⟩ hfirst)
  rfl

/-- Half words are paired exactly: no step on the way to their word wraps around, and pairs of half
words and words correspond to each other one to one; so triples whose first two members are quarters
of a word, and the third is half of one, are told apart by their words. -/
theorem pair_bijOn_halves :
    (∀ a b : UInt64, a.toNat < 2 ^ 32 → b.toNat < 2 ^ 32 → exactPair? a b = some (pair a b)) ∧
    Set.BijOn (fun p : UInt64 × UInt64 => pair p.1 p.2)
      {p | p.1.toNat < 2 ^ 32 ∧ p.2.toNat < 2 ^ 32} Set.univ ∧
    Set.InjOn (fun p : UInt64 × UInt64 × UInt64 => triple p.1 p.2.1 p.2.2)
      {p | p.1.toNat < 2 ^ 16 ∧ p.2.1.toNat < 2 ^ 16 ∧ p.2.2.toNat < 2 ^ 32} :=
  ⟨fun _ _ ha hb => (toNat_pair ha hb).1, ⟨fun _ _ => trivial, pair_injOn, pair_surjOn⟩,
    triple_injOn⟩

/-- The largest half words are paired to the largest word, and they are the only ones; one more, and
a step wraps around. -/
theorem pair_bijOn_halves_largest :
    exactPair? 4294967295 4294967295 = some 18446744073709551615 ∧
    exactPair? 4294967296 0 = none ∧
    (∀ a b : UInt64, a.toNat < 2 ^ 32 → b.toNat < 2 ^ 32 → pair a b = 18446744073709551615 →
      (a, b) = (4294967295, 4294967295)) ∧
    triple 65535 65535 4294967295 ≠ triple 65535 65534 4294967295 := by
  obtain ⟨hexact, hbij, htriple⟩ := pair_bijOn_halves
  refine ⟨hexact 4294967295 4294967295 (by decide) (by decide), by decide,
    fun a b ha hb h => ?_, fun h => ?_⟩
  · exact @Set.BijOn.injOn _ _ _ _ _ hbij (a, b) ⟨ha, hb⟩ (4294967295, 4294967295)
      ⟨by decide, by decide⟩ h
  · have heq := @htriple (65535, 65535, 4294967295) (by decide) (65535, 65534, 4294967295)
      (by decide) h
    exact absurd heq (by decide)

end BrakeCheck
