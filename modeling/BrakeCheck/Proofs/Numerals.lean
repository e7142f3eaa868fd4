import BrakeCheck.Proofs.Splitting
import BrakeCheck.Rational.Decimal
import Mathlib.Algebra.Order.Field.Rat
import Mathlib.Data.Nat.Digits.Defs
import Mathlib.Data.List.Induction

/-!
# The grammar of numbers

What is read as a number is said here without saying how it is read: digits and the number they are,
integers with an optional minus sign, and decimal numerals with an optional sign of either kind and
with at most one point anywhere among their digits.  A text is read as a number exactly if it is
spelled in one of these ways, the value is that of the spelling, and every other text is refused for
the reason that applies to it.

## Main definitions

* `IsDigits`, `placeValue` — decimal digits, and the number that they are.
* `IntegerSpelling`, `DecimalSpelling` — the texts of an integer and of a decimal numeral.

## Main statements

* `readInteger?_eq_some_iff`, `readDecimal?_eq_some_iff` — the readers accept the spellings.
* `readTrimmed_fraction`, `readTrimmed_decimal` — texts with and without a slash.
* `readRational_grammar` — which texts are numbers, which numbers they are, and why other texts are
  none.
-/

namespace BrakeCheck.Rational

open Text

variable {cs ds : List Char}

/-! ### Digits -/

/-- Decimal digits, one at least. -/
structure IsDigits (ds : List Char) : Prop where
  ne_nil : ds ≠ []
  isDigit : ∀ c ∈ ds, c.isDigit = true

instance (ds : List Char) : Decidable (IsDigits ds) :=
  decidable_of_iff (ds ≠ [] ∧ ds.all Char.isDigit = true)
    ⟨fun ⟨h, h'⟩ => ⟨h, List.all_eq_true.1 h'⟩, fun h => ⟨h.ne_nil, List.all_eq_true.2 h.isDigit⟩⟩

/-- The number that decimal digits are: the last one counts once, and every other one counts ten
times as much as the one after it. -/
def placeValue (ds : List Char) : Nat :=
  Nat.ofDigits 10 (ds.reverse.map fun c => c.toNat - '0'.toNat)

theorem digitsValue_eq_placeValue (ds : List Char) : digitsValue ds = placeValue ds := by
  induction ds using List.reverseRec with
  | nil => rfl
  | append_singleton ds c ih =>
    rw [digitsValue, Nat.ofDigitChars_append, Nat.ofDigitChars_cons, Nat.ofDigitChars_nil,
      placeValue, List.reverse_append, List.reverse_singleton, List.singleton_append, List.map_cons,
      Nat.ofDigits_cons, Nat.add_comm]
    exact congrArg (_ + 10 * ·) ih

/-- A character that is no digit is none of the digits. -/
theorem ne_of_isDigit {c d : Char} (hc : c.isDigit = true) (hd : d.isDigit = false) : c ≠ d := by
  rintro rfl
  rw [hc] at hd
  cases hd

theorem IsDigits.not_mem {d : Char} (h : IsDigits ds) (hd : d.isDigit = false) : d ∉ ds :=
  fun hmem => ne_of_isDigit (h.isDigit d hmem) hd rfl

/-- The digits on the two sides of the point, one at least on one of them. -/
theorem isDigits_append_iff {before after : List Char} : IsDigits (before ++ after) ↔
    ¬ ((before.isEmpty && after.isEmpty) || !before.all Char.isDigit || !after.all Char.isDigit) =
      true := by
  have hempty : (before.isEmpty && after.isEmpty) = (before ++ after).isEmpty := by
    cases before <;> rfl
  rw [hempty, Bool.or_assoc, ← Bool.not_and, ← List.all_append, Bool.or_eq_true, not_or,
    Bool.not_eq_true, List.isEmpty_eq_false_iff, Bool.not_eq_true', Bool.not_eq_false,
    List.all_eq_true]
  exact ⟨fun h => ⟨h.ne_nil, h.isDigit⟩, fun ⟨h, h'⟩ => ⟨h, h'⟩⟩

/-- Digits are not blank. -/
theorem isBlank_of_isDigit {c : Char} (h : c.isDigit = true) : isBlank c = false := by
  obtain ⟨hlow, hhigh⟩ := Char.isDigit_iff_toNat.1 h
  have hzero : '0'.toNat = 48 := rfl
  have hnine : '9'.toNat = 57 := rfl
  simp only [isBlank, inRanges, blankRanges, List.any_cons, List.any_nil, Bool.or_false,
    Bool.or_eq_false_iff, Bool.and_eq_false_iff, decide_eq_false_iff_not]
  omega

theorem readNatural?_eq_some_iff {n : Nat} :
    readNatural? ds = some n ↔ IsDigits ds ∧ n = placeValue ds := by
  rw [readNatural?, Option.ite_none_right_eq_some, Bool.and_eq_true, Bool.not_eq_true',
    List.isEmpty_eq_false_iff, List.all_eq_true, Option.some.injEq, digitsValue_eq_placeValue]
  exact ⟨fun ⟨⟨h, h'⟩, hn⟩ => ⟨⟨h, h'⟩, hn.symm⟩, fun ⟨h, hn⟩ => ⟨⟨h.ne_nil, h.isDigit⟩, hn.symm⟩⟩

/-! ### Integers -/

/-- The texts of an integer: digits, after a minus sign for the opposite number. -/
inductive IntegerSpelling : List Char → Int → Prop where
  | natural {ds : List Char} (h : IsDigits ds) : IntegerSpelling ds (placeValue ds)
  | opposite {ds : List Char} (h : IsDigits ds) : IntegerSpelling ('-' :: ds) (-placeValue ds)

theorem readInteger?_eq_some_iff {z : Int} : readInteger? cs = some z ↔ IntegerSpelling cs z := by
  constructor
  · intro h
    unfold readInteger? at h
    split at h
    · obtain ⟨n, hn, rfl⟩ := Option.map_eq_some_iff.1 h
      obtain ⟨hds, rfl⟩ := readNatural?_eq_some_iff.1 hn
      exact .opposite hds
    · obtain ⟨n, hn, rfl⟩ := Option.map_eq_some_iff.1 h
      obtain ⟨hds, rfl⟩ := readNatural?_eq_some_iff.1 hn
      exact .natural hds
  · intro h
    cases h with
    | natural h =>
      rw [readInteger?]
      · rw [readNatural?_eq_some_iff.2 ⟨h, rfl⟩]
        rfl
      · rintro ds rfl
        exact h.not_mem (by decide) List.mem_cons_self
    | opposite h =>
      rw [readInteger?, readNatural?_eq_some_iff.2 ⟨h, rfl⟩]
      rfl

theorem IntegerSpelling.unique {z w : Int} (hz : IntegerSpelling cs z) (hw : IntegerSpelling cs w) :
    z = w :=
  Option.some.inj
    ((readInteger?_eq_some_iff.2 hz).symm.trans (readInteger?_eq_some_iff.2 hw))

/-! ### Decimal numerals -/

/-- The texts of a sign, and its factor. -/
inductive SignSpelling : List Char → Int → Prop where
  | absent : SignSpelling [] 1
  | plus : SignSpelling ['+'] 1
  | minus : SignSpelling ['-'] (-1)

/-- The texts of a decimal numeral: after the sign there are digits, and at most one point anywhere
among them.  The digits after the point are its places. -/
inductive DecimalSpelling : List Char → Decimal → Prop where
  | whole {sign ds : List Char} {factor : Int} (hsign : SignSpelling sign factor)
      (h : IsDigits ds) : DecimalSpelling (sign ++ ds) ⟨factor * placeValue ds, 0⟩
  | pointed {sign before after : List Char} {factor : Int} (hsign : SignSpelling sign factor)
      (h : IsDigits (before ++ after)) :
      DecimalSpelling (sign ++ (before ++ '.' :: after))
        ⟨factor * placeValue (before ++ after), after.length⟩

/-- An integer is a numeral without places. -/
theorem IntegerSpelling.decimal {z : Int} (h : IntegerSpelling cs z) :
    DecimalSpelling cs ⟨z, 0⟩ := by
  cases h with
  | natural h => simpa using DecimalSpelling.whole .absent h
  | opposite h => simpa using DecimalSpelling.whole .minus h

theorem exists_signSpelling (cs : List Char) :
    ∃ sign, SignSpelling sign (splitSign cs).1 ∧ cs = sign ++ (splitSign cs).2 := by
  unfold splitSign
  split
  · exact ⟨_, .minus, rfl⟩
  · exact ⟨_, .plus, rfl⟩
  · exact ⟨_, .absent, rfl⟩

/-- The sign is cut off from what does not begin with another one. -/
theorem SignSpelling.splitSign_append {sign body : List Char} {factor : Int}
    (h : SignSpelling sign factor) (hbody : ∀ c ∈ body.head?, c ≠ '-' ∧ c ≠ '+') :
    splitSign (sign ++ body) = (factor, body) := by
  cases h with
  | absent =>
    rw [List.nil_append, splitSign]
    · rintro rest rfl
      exact (hbody '-' rfl).1 rfl
    · rintro rest rfl
      exact (hbody '+' rfl).2 rfl
  | plus => rfl
  | minus => rfl

/-- What is read once the sign has been cut off and the rest has been divided at the point. -/
theorem readDecimal?_eq {factor : Int} {body before after : List Char}
    (hsign : splitSign cs = (factor, body))
    (hsplit : (splitFirst? '.' body).getD (body, []) = (before, after)) :
    readDecimal? cs =
      if IsDigits (before ++ after) then
        some (mkRat (factor * placeValue (before ++ after))
          (powerOfTen (after.length % placeRange)))
      else none := by
  rw [readDecimal?, hsign]
  dsimp only
  rw [hsplit]
  dsimp only
  rw [digitsValue_eq_placeValue]
  by_cases h : IsDigits (before ++ after)
  · rw [if_neg (isDigits_append_iff.1 h), if_pos h]
  · rw [if_pos (Decidable.of_not_not (mt isDigits_append_iff.2 h)), if_neg h]

/-- Text of digits and points does not begin with a sign. -/
theorem head_ne_sign {body : List Char} (h : ∀ c ∈ body, c.isDigit = true ∨ c = '.') :
    ∀ c ∈ body.head?, c ≠ '-' ∧ c ≠ '+' := by
  intro c hc
  rcases h c (List.mem_of_mem_head? hc) with hdigit | rfl
  · exact ⟨ne_of_isDigit hdigit (by decide), ne_of_isDigit hdigit (by decide)⟩
  · decide

/-- A text that is read is spelled as a numeral. -/
theorem exists_spelling_of_readDecimal? {x : Rat} (h : readDecimal? cs = some x) :
    ∃ d, DecimalSpelling cs d ∧ x = mkRat d.mantissa (powerOfTen (d.scale % placeRange)) := by
  obtain ⟨sign, hsign, hcs⟩ := exists_signSpelling cs
  generalize hcut : splitSign cs = cut at hsign hcs
  obtain ⟨factor, body⟩ := cut
  cases hpoint : splitFirst? '.' body with
  | none =>
    have hsplit : (splitFirst? '.' body).getD (body, []) = (body, []) := by rw [hpoint]; rfl
    rw [readDecimal?_eq hcut hsplit, List.append_nil, Option.ite_none_right_eq_some,
      Option.some.injEq] at h
    rw [hcs]
    exact ⟨_, .whole hsign h.1, h.2.symm⟩
  | some parts =>
    have hsplit : (splitFirst? '.' body).getD (body, []) = parts := by rw [hpoint]; rfl
    rw [readDecimal?_eq hcut hsplit, Option.ite_none_right_eq_some, Option.some.injEq] at h
    rw [hcs, (splitFirst?_eq_some_iff.1 hpoint).1]
    exact ⟨_, .pointed hsign h.1, h.2.symm⟩

/-- A numeral is read. -/
theorem DecimalSpelling.readDecimal?_eq {d : Decimal} (h : DecimalSpelling cs d) :
    readDecimal? cs = some (mkRat d.mantissa (powerOfTen (d.scale % placeRange))) := by
  cases h with
  | @whole sign ds factor hsign h =>
    have hcut := hsign.splitSign_append (head_ne_sign fun c hc => Or.inl (h.isDigit c hc))
    have hsplit : (splitFirst? '.' ds).getD (ds, []) = (ds, []) := by
      rw [splitFirst?_eq_none_iff.2 (h.not_mem (by decide))]
      rfl
    rw [Rational.readDecimal?_eq hcut hsplit, List.append_nil, if_pos h]
    rfl
  | @pointed sign before after factor hsign h =>
    obtain ⟨hbefore, hafter⟩ := List.forall_mem_append.1 h.isDigit
    have hchars : ∀ c ∈ before ++ '.' :: after, c.isDigit = true ∨ c = '.' :=
      List.forall_mem_append.2 ⟨fun c hc => Or.inl (hbefore c hc),
        List.forall_mem_cons.2 ⟨Or.inr rfl, fun c hc => Or.inl (hafter c hc)⟩⟩
    have hcut := hsign.splitSign_append (head_ne_sign hchars)
    have hpoint : '.' ∉ before := fun hmem =>
      h.not_mem (by decide) (List.mem_append_left after hmem)
    have hsplit : (splitFirst? '.' (before ++ '.' :: after)).getD (before ++ '.' :: after, []) =
        (before, after) := by
      rw [splitFirst?_append hpoint]
      rfl
    rw [Rational.readDecimal?_eq hcut hsplit, if_pos h]

/-- The numerals that are read.  Their places are counted in a word. -/
theorem readDecimal?_eq_some_iff {x : Rat} :
    readDecimal? cs = some x ↔ ∃ d, DecimalSpelling cs d ∧
      x = mkRat d.mantissa (powerOfTen (d.scale % placeRange)) := by
  refine ⟨exists_spelling_of_readDecimal?, ?_⟩
  rintro ⟨d, h, rfl⟩
  exact h.readDecimal?_eq

/-- A numeral has no more places than its text has characters. -/
theorem DecimalSpelling.scale_le {d : Decimal} (h : DecimalSpelling cs d) :
    d.scale ≤ cs.length := by
  cases h with
  | whole => exact Nat.zero_le _
  | pointed =>
    simp only [List.length_append, List.length_cons]
    omega

/-- The characters of a numeral are digits, signs and points. -/
theorem DecimalSpelling.isDigit_or_mem {d : Decimal} (h : DecimalSpelling cs d) :
    ∀ c ∈ cs, c.isDigit = true ∨ c ∈ ['+', '-', '.'] := by
  have of_sign : ∀ {sign factor}, SignSpelling sign factor → sign ⊆ ['+', '-', '.'] := by
    intro sign factor hsign
    cases hsign <;> decide
  intro c hc
  cases h with
  | whole hsign h =>
    rcases List.mem_append.1 hc with hc | hc
    · exact Or.inr (of_sign hsign hc)
    · exact Or.inl (h.isDigit c hc)
  | pointed hsign h =>
    rcases List.mem_append.1 hc with hc | hc
    · exact Or.inr (of_sign hsign hc)
    · rcases List.mem_append.1 hc with hc | hc
      · exact Or.inl (h.isDigit c (List.mem_append_left _ hc))
      · rcases List.mem_cons.1 hc with rfl | hc
        · exact Or.inr (by decide)
        · exact Or.inl (h.isDigit c (List.mem_append_right _ hc))

/-- No numeral is spelled with a slash. -/
theorem DecimalSpelling.slash_not_mem {d : Decimal} (h : DecimalSpelling cs d) : '/' ∉ cs := by
  intro hmem
  rcases h.isDigit_or_mem _ hmem with hdigit | hsign
  · exact ne_of_isDigit hdigit (by decide) rfl
  · exact absurd hsign (by decide)

/-- No numeral is spelled with a blank. -/
theorem DecimalSpelling.noBlank {d : Decimal} (h : DecimalSpelling cs d) : NoBlank cs := by
  intro c hc
  rcases h.isDigit_or_mem c hc with hdigit | hsign
  · exact isBlank_of_isDigit hdigit
  · have hnone : NoBlank ['+', '-', '.'] := by decide
    exact hnone c hsign

/-- No integer is spelled with a blank. -/
theorem IntegerSpelling.noBlank {z : Int} (h : IntegerSpelling cs z) : NoBlank cs :=
  h.decimal.noBlank

theorem DecimalSpelling.ne_nil {d : Decimal} (h : DecimalSpelling cs d) : cs ≠ [] := by
  cases h with
  | whole hsign h => exact List.append_ne_nil_of_right_ne_nil _ h.ne_nil
  | pointed hsign h =>
    exact List.append_ne_nil_of_right_ne_nil _ (List.append_ne_nil_of_right_ne_nil _ (by simp))

/-! ### Texts without blanks around them -/

theorem toRat_eq (d : Decimal) : d.toRat = d.mantissa / 10 ^ d.scale := by
  rw [Decimal.toRat, Rat.mkRat_eq_div]
  exact congrArg _ (Nat.cast_pow 10 d.scale)

section Fractions

variable {upper lower : List Char} {p q : Int}

/-- Where there is a slash, what stands on its two sides is read. -/
theorem readTrimmed_of_slash (hslash : '/' ∉ upper) :
    readTrimmed (upper ++ '/' :: lower) =
      match readInteger? (trim upper), readInteger? (trim lower) with
      | some n, some d =>
        if d = 0 then .error (.zeroDenominator (String.ofList (upper ++ '/' :: lower)))
        else .ok (Rat.divInt n d)
      | _, _ => .error (.invalid (String.ofList (upper ++ '/' :: lower))) := by
  have hempty : (upper ++ '/' :: lower).isEmpty = false := by
    rw [List.isEmpty_eq_false_iff]
    exact List.append_ne_nil_of_right_ne_nil _ (List.cons_ne_nil _ _)
  rw [readTrimmed, hempty, splitFirst?_append hslash]
  rfl

theorem readTrimmed_fraction (hslash : '/' ∉ upper) (hp : IntegerSpelling (trim upper) p)
    (hq : IntegerSpelling (trim lower) q) (hne : q ≠ 0) :
    readTrimmed (upper ++ '/' :: lower) = .ok (p / q) := by
  rw [readTrimmed_of_slash hslash, readInteger?_eq_some_iff.2 hp, readInteger?_eq_some_iff.2 hq]
  dsimp only
  rw [if_neg hne, Rat.divInt_eq_div]

theorem readTrimmed_zeroDenominator (hslash : '/' ∉ upper)
    (hp : IntegerSpelling (trim upper) p) (hq : IntegerSpelling (trim lower) 0) :
    readTrimmed (upper ++ '/' :: lower) =
      .error (.zeroDenominator (String.ofList (upper ++ '/' :: lower))) := by
  rw [readTrimmed_of_slash hslash, readInteger?_eq_some_iff.2 hp, readInteger?_eq_some_iff.2 hq]
  rfl

theorem readTrimmed_invalidFraction (hslash : '/' ∉ upper)
    (h : ¬ ((∃ p, IntegerSpelling (trim upper) p) ∧ ∃ q, IntegerSpelling (trim lower) q)) :
    readTrimmed (upper ++ '/' :: lower) =
      .error (.invalid (String.ofList (upper ++ '/' :: lower))) := by
  rw [readTrimmed_of_slash hslash]
  cases hupper : readInteger? (trim upper) with
  | none => rfl
  | some p =>
    cases hlower : readInteger? (trim lower) with
    | none => rfl
    | some q =>
      exact absurd ⟨⟨p, readInteger?_eq_some_iff.1 hupper⟩, q, readInteger?_eq_some_iff.1 hlower⟩ h

end Fractions

/-- Where there is no slash, a decimal numeral is read. -/
theorem readTrimmed_of_no_slash (hne : cs ≠ []) (hslash : '/' ∉ cs) :
    readTrimmed cs = match readDecimal? cs with
      | some x => .ok x
      | none => .error (.invalid (String.ofList cs)) := by
  rw [readTrimmed, List.isEmpty_eq_false_iff.2 hne, splitFirst?_eq_none_iff.2 hslash]
  rfl

theorem readTrimmed_decimal {d : Decimal} (h : DecimalSpelling cs d)
    (hplaces : d.scale < placeRange) : readTrimmed cs = .ok d.toRat := by
  rw [readTrimmed_of_no_slash h.ne_nil h.slash_not_mem, readDecimal?_eq_some_iff.2 ⟨d, h, rfl⟩,
    Nat.mod_eq_of_lt hplaces]
  rfl

theorem readTrimmed_invalidDecimal (hne : cs ≠ []) (hslash : '/' ∉ cs)
    (h : ¬ ∃ d, DecimalSpelling cs d) : readTrimmed cs = .error (.invalid (String.ofList cs)) := by
  rw [readTrimmed_of_no_slash hne hslash]
  cases hread : readDecimal? cs with
  | none => rfl
  | some x =>
    obtain ⟨d, hd, -⟩ := readDecimal?_eq_some_iff.1 hread
    exact absurd ⟨d, hd⟩ h

/-! ### All texts -/

/-- Nothing but the text without characters is refused as empty. -/
theorem readTrimmed_eq_empty_iff : readTrimmed cs = .error .empty ↔ cs = [] := by
  constructor
  · intro h
    by_contra hne
    rw [readTrimmed, List.isEmpty_eq_false_iff.2 hne, if_neg Bool.false_ne_true] at h
    split at h
    · split at h
      · split at h <;> cases h
      · cases h
    · split at h <;> cases h
  · rintro rfl
    rfl

/-- What is read where there is a slash. -/
theorem readTrimmed_of_slash_iff {upper lower n d : List Char} (hslash : '/' ∉ upper)
    (hn : Trimmed upper n) (hd : Trimmed lower d) :
    (∀ x, readTrimmed (upper ++ '/' :: lower) = .ok x ↔
      ∃ p q, IntegerSpelling n p ∧ IntegerSpelling d q ∧ q ≠ 0 ∧ x = p / q) ∧
    (readTrimmed (upper ++ '/' :: lower) =
        .error (.zeroDenominator (String.ofList (upper ++ '/' :: lower))) ↔
      ∃ p, IntegerSpelling n p ∧ IntegerSpelling d 0) ∧
    (readTrimmed (upper ++ '/' :: lower) =
        .error (.invalid (String.ofList (upper ++ '/' :: lower))) ↔
      ¬ ((∃ p, IntegerSpelling n p) ∧ ∃ q, IntegerSpelling d q)) := by
  obtain rfl := hn.trim_eq
  obtain rfl := hd.trim_eq
  by_cases h : (∃ p, IntegerSpelling (trim upper) p) ∧ ∃ q, IntegerSpelling (trim lower) q
  · obtain ⟨⟨p, hp⟩, q, hq⟩ := h
    by_cases hzero : q = 0
    · subst hzero
      rw [readTrimmed_zeroDenominator hslash hp hq]
      refine ⟨fun x => ⟨nofun, ?_⟩, iff_of_true rfl ⟨p, hp, hq⟩, nofun,
        fun h => absurd ⟨⟨p, hp⟩, 0, hq⟩ h⟩
      rintro ⟨-, q, -, hq', hne, -⟩
      exact absurd (hq'.unique hq) hne
    · rw [readTrimmed_fraction hslash hp hq hzero]
      refine ⟨fun x => ⟨?_, ?_⟩, ⟨nofun, ?_⟩, nofun, fun h => absurd ⟨⟨p, hp⟩, q, hq⟩ h⟩
      · intro h
        exact ⟨p, q, hp, hq, hzero, (Except.ok.inj h).symm⟩
      · rintro ⟨p', q', hp', hq', -, rfl⟩
        rw [hp'.unique hp, hq'.unique hq]
      · rintro ⟨-, -, hq'⟩
        exact absurd (hq.unique hq') hzero
  · rw [readTrimmed_invalidFraction hslash h]
    refine ⟨fun x => ⟨nofun, ?_⟩, ⟨nofun, ?_⟩, iff_of_true rfl h⟩
    · rintro ⟨p, q, hp, hq, -⟩
      exact absurd ⟨⟨p, hp⟩, q, hq⟩ h
    · rintro ⟨p, hp, hq⟩
      exact absurd ⟨⟨p, hp⟩, 0, hq⟩ h

/-- What is read where there is no slash. -/
theorem readTrimmed_of_no_slash_iff (hlength : cs.length < placeRange) (hne : cs ≠ [])
    (hslash : '/' ∉ cs) :
    (∀ x, readTrimmed cs = .ok x ↔
      ∃ d, DecimalSpelling cs d ∧ x = d.mantissa / 10 ^ d.scale) ∧
    (readTrimmed cs = .error (.invalid (String.ofList cs)) ↔ ¬ ∃ d, DecimalSpelling cs d) := by
  have hplaces : ∀ {d}, DecimalSpelling cs d → d.scale < placeRange := fun hd =>
    Nat.lt_of_le_of_lt hd.scale_le hlength
  by_cases h : ∃ d, DecimalSpelling cs d
  · obtain ⟨d, hd⟩ := h
    have hread := readTrimmed_decimal hd (hplaces hd)
    refine ⟨fun x => ⟨fun hx => ⟨d, hd, ?_⟩, ?_⟩, ?_⟩
    · rw [← toRat_eq]
      exact Except.ok.inj (hx.symm.trans hread)
    · rintro ⟨d', hd', rfl⟩
      rw [readTrimmed_decimal hd' (hplaces hd'), toRat_eq]
    · rw [hread]
      exact ⟨nofun, fun h => absurd ⟨d, hd⟩ h⟩
  · rw [readTrimmed_invalidDecimal hne hslash h]
    refine ⟨fun x => ⟨nofun, ?_⟩, iff_of_true rfl h⟩
    rintro ⟨d, hd, -⟩
    exact absurd ⟨d, hd⟩ h

/-- What a text is read as, if its places can be counted.  The blanks around it do not matter, and
it is empty if it has nothing else.  With a slash it is a fraction of two integers, each with an
optional minus sign and possibly between blanks, unless the second one is zero.  Without one it is a
decimal numeral: all its digits as an integer, with the sign that stands before them, divided by
ten for each digit after the point. -/
theorem readRational_grammar (s : String) (hlength : s.length < 2 ^ 32) {t : List Char}
    (ht : Trimmed s.toList t) :
    (readRational s = .error .empty ↔ t = []) ∧
    (∀ upper lower n d, t = upper ++ '/' :: lower → '/' ∉ upper → Trimmed upper n →
      Trimmed lower d →
      (∀ x, readRational s = .ok x ↔
        ∃ p q, IntegerSpelling n p ∧ IntegerSpelling d q ∧ q ≠ 0 ∧ x = p / q) ∧
      (readRational s = .error (.zeroDenominator (String.ofList t)) ↔
        ∃ p, IntegerSpelling n p ∧ IntegerSpelling d 0) ∧
      (readRational s = .error (.invalid (String.ofList t)) ↔
        ¬ ((∃ p, IntegerSpelling n p) ∧ ∃ q, IntegerSpelling d q))) ∧
    (t ≠ [] → '/' ∉ t →
      (∀ x, readRational s = .ok x ↔
        ∃ d, DecimalSpelling t d ∧ x = d.mantissa / 10 ^ d.scale) ∧
      (readRational s = .error (.invalid (String.ofList t)) ↔ ¬ ∃ d, DecimalSpelling t d)) := by
  have hread : readRational s = readTrimmed t := by rw [readRational, ht.trim_eq]
  rw [hread]
  refine ⟨readTrimmed_eq_empty_iff, ?_, readTrimmed_of_no_slash_iff ?_⟩
  · rintro upper lower n d rfl hslash hn hd
    exact readTrimmed_of_slash_iff hslash hn hd
  · have hle := ht.length_le
    rw [String.length_toList] at hle
    exact Nat.lt_of_le_of_lt hle hlength

/-- A fraction between blanks of several kinds, one whose denominator is minus zero, and a numeral
that begins with its point. -/
theorem readRational_grammar_blanks :
    readRational "\u00a0-6 / 010\t" = .ok (-3 / 5) ∧
      readRational "1/-0" = .error (.zeroDenominator "1/-0") ∧
      readRational " -.50" = .ok (-1 / 2) := by
  have hsix : IsDigits ['6'] := by decide
  have hten : IsDigits ['0', '1', '0'] := by decide
  have hone : IsDigits ['1'] := by decide
  have hzero : IsDigits ['0'] := by decide
  have hhalf : IsDigits ([] ++ ['5', '0']) := by decide
  refine ⟨?_, ?_, ?_⟩
  · obtain ⟨-, hfraction, -⟩ := readRational_grammar "\u00a0-6 / 010\t" (by decide)
      (t := ['-', '6', ' ', '/', ' ', '0', '1', '0']) (trimmed_iff.2 (by decide))
    refine ((hfraction ['-', '6', ' '] [' ', '0', '1', '0'] ['-', '6'] ['0', '1', '0'] rfl
      (by decide) (trimmed_iff.2 (by decide)) (trimmed_iff.2 (by decide))).1 _).2 ?_
    exact ⟨-6, 10, .opposite hsix, .natural hten, by decide, by decide +kernel⟩
  · obtain ⟨-, hfraction, -⟩ := readRational_grammar "1/-0" (by decide)
      (t := ['1', '/', '-', '0']) (trimmed_iff.2 (by decide))
    refine ((hfraction ['1'] ['-', '0'] ['1'] ['-', '0'] rfl (by decide)
      (trimmed_iff.2 (by decide)) (trimmed_iff.2 (by decide))).2.1).2 ?_
    exact ⟨1, .natural hone, .opposite hzero⟩
  · obtain ⟨-, -, hdecimal⟩ := readRational_grammar " -.50" (by decide)
      (t := ['-', '.', '5', '0']) (trimmed_iff.2 (by decide))
    exact ((hdecimal (by decide) (by decide)).1 _).2
      ⟨_, @DecimalSpelling.pointed ['-'] [] ['5', '0'] _ .minus hhalf, by decide +kernel⟩

end BrakeCheck.Rational
