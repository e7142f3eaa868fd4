import BrakeCheck.Proofs.Numerals

/-!
# Signs of integers and of fractions

An integer by itself is read as a decimal numeral, which may have a sign of either kind.  As the
numerator of a fraction it is read as an integer, which may have a minus sign only.  So the two
forms agree on integers without a sign and with a minus sign, and a fraction whose numerator has a
plus sign is refused although the numerator by itself is not.

## Main statements

* `readTrimmed_literal_iff` — a sign and digits are read as an integer if there is a digit.
* `SignSpelling.integerSpelling`, `not_integerSpelling_plus` — which of them are numerators.
* `readRational_fraction_of_literal` — the fraction with such a numerator.
-/

namespace BrakeCheck.Rational

open Text

variable {sign ds es : List Char} {factor z : Int}

/-- A sign and digits are read as an integer, unless there are no digits. -/
theorem readTrimmed_literal_iff (hsign : SignSpelling sign factor)
    (hds : ∀ c ∈ ds, c.isDigit = true) {x : Rat} :
    readTrimmed (sign ++ ds) = .ok x ↔ IsDigits ds ∧ x = factor * placeValue ds := by
  by_cases hnil : ds = []
  · -- no sign is a number by itself
    subst hnil
    have hrefused : ∀ y, readTrimmed (sign ++ []) ≠ .ok y := by
      cases hsign <;> exact nofun
    exact iff_of_false (hrefused x) fun h => h.1.ne_nil rfl
  · have hdigits : IsDigits ds := ⟨hnil, hds⟩
    have hread := readTrimmed_decimal (.whole hsign hdigits) (show 0 < placeRange by decide)
    rw [toRat_eq, pow_zero, div_one, Int.cast_mul, Int.cast_natCast] at hread
    rw [hread, Except.ok.injEq]
    exact ⟨fun h => ⟨hdigits, h.symm⟩, fun h => h.2.symm⟩

/-- Digits with a sign are a numerator unless this is a plus sign. -/
theorem SignSpelling.integerSpelling (hsign : SignSpelling sign factor) (h : IsDigits ds)
    (hplus : sign ≠ ['+']) : IntegerSpelling (sign ++ ds) (factor * placeValue ds) := by
  cases hsign with
  | absent => simpa using IntegerSpelling.natural h
  | plus => exact absurd rfl hplus
  | minus => simpa using IntegerSpelling.opposite h

/-- No numerator has a plus sign. -/
theorem not_integerSpelling_plus : ¬ IntegerSpelling ('+' :: ds) z := by
  intro h
  cases h with
  | natural h => exact absurd (h.isDigit '+' List.mem_cons_self) (by decide)

/-- There is no blank in a sign and digits. -/
theorem noBlank_literal (hsign : SignSpelling sign factor)
    (hds : ∀ c ∈ ds, c.isDigit = true) : NoBlank (sign ++ ds) := by
  have hblank : NoBlank sign := by
    cases hsign <;> decide
  intro c hc
  exact (List.mem_append.1 hc).elim (hblank c) fun hc => isBlank_of_isDigit (hds c hc)

/-- There is no blank in a fraction with a sign and digits before the slash and digits after it. -/
theorem noBlank_fraction (hsign : SignSpelling sign factor)
    (hds : ∀ c ∈ ds, c.isDigit = true) (hes : IsDigits es) :
    NoBlank (sign ++ ds ++ '/' :: es) := by
  have hslash : NoBlank ['/'] := by decide
  intro c hc
  rw [List.append_cons] at hc
  rcases List.mem_append.1 hc with hc | hc
  · exact (List.mem_append.1 hc).elim (noBlank_literal hsign hds c) (hslash c)
  · exact isBlank_of_isDigit (hes.isDigit c hc)

/-- A text that consists of an optional sign and digits is read, if it is read at all, as the
integer with this sign and these digits.  With a slash and the digits of a number other than zero
after it, it is read as the quotient of the two, unless the sign is a plus sign: then it is
refused. -/
theorem readRational_fraction_of_literal (hsign : SignSpelling sign factor)
    (hds : ∀ c ∈ ds, c.isDigit = true) (hes : IsDigits es) (hne : placeValue es ≠ 0) {x : Rat}
    (hx : readRational (String.ofList (sign ++ ds)) = .ok x) :
    x = factor * placeValue ds ∧
      readRational (String.ofList (sign ++ ds ++ '/' :: es)) =
        if sign = ['+'] then .error (.invalid (String.ofList (sign ++ ds ++ '/' :: es)))
        else .ok (x / placeValue es) := by
  have hliteral := noBlank_literal hsign hds
  rw [readRational, String.toList_ofList, trim_of_noBlank hliteral,
    readTrimmed_literal_iff hsign hds] at hx
  obtain ⟨hdigits, rfl⟩ := hx
  refine ⟨rfl, ?_⟩
  have hslash : '/' ∉ sign ++ ds := (DecimalSpelling.whole hsign hdigits).slash_not_mem
  rw [readRational, String.toList_ofList, trim_of_noBlank (noBlank_fraction hsign hds hes)]
  split
  · next hplus =>
    subst hplus
    refine readTrimmed_invalidFraction hslash fun hparts => ?_
    obtain ⟨p, hp⟩ := hparts.1
    rw [trim_of_noBlank hliteral] at hp
    exact not_integerSpelling_plus hp
  · next hplus =>
    have hnumerator := hsign.integerSpelling hdigits hplus
    have hdenominator := IntegerSpelling.natural hes
    rw [readTrimmed_fraction hslash ((trim_of_noBlank hliteral).symm ▸ hnumerator)
      ((trim_of_noBlank hdenominator.noBlank).symm ▸ hdenominator) (Int.natCast_ne_zero.2 hne),
      Int.cast_mul, Int.cast_natCast, Int.cast_natCast]

/-- A negative numerator with a zero in front. -/
theorem readRational_fraction_of_literal_minus :
    readRational "-06" = .ok (-6) ∧ readRational "-06/010" = .ok (-6 / 10) := by
  have hliteral : readRational "-06" = .ok (-6) := by decide +kernel
  have hsix : IsDigits ['0', '6'] := by decide
  have hten : IsDigits ['0', '1', '0'] := by decide
  have hfraction := (readRational_fraction_of_literal .minus hsix.isDigit hten (by decide)
    hliteral).2
  exact ⟨hliteral, hfraction⟩

/-- With a plus sign one half is refused, and one by itself is not. -/
theorem readRational_plus_refused :
    readRational "+1" = .ok 1 ∧ readRational "+1/2" = .error (.invalid "+1/2") ∧
      readRational "+1/2" ≠ .ok (1 / 2) := by
  decide +kernel

end BrakeCheck.Rational
