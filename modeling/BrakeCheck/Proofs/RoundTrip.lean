import BrakeCheck.Proofs.Numerals

/-!
# Numbers are read as they are written

What is written for a decimal numeral is a spelling of this very numeral, with its sign, its digits
and its places, whether the magnitude has to be led by zeros or not; and a rational is written as
one integer or as a fraction of two.  Between whatever blanks the text stands, it is read as the
number that has been written.

## Main statements

* `Decimal.decimalSpelling_digits` — the characters of a numeral spell it.
* `Rational.readTrimmed_rationalDigits` — the characters of a rational are read as it.
* `Rational.readRational_written` — numerals and rationals are read as they are written.
-/

namespace BrakeCheck

open Text Rational

/-! ### Digits and integers -/

namespace Rational

theorem isDigits_naturalDigits (n : Nat) : IsDigits (naturalDigits n) where
  ne_nil := Nat.toDigits_ne_nil
  isDigit _ hc := Nat.isDigit_of_mem_toDigits (by decide) (by decide) hc

theorem placeValue_naturalDigits (n : Nat) : placeValue (naturalDigits n) = n := by
  rw [← digitsValue_eq_placeValue]
  exact Nat.ofDigitChars_ten_toDigits

theorem integerSpelling_naturalDigits (n : Nat) : IntegerSpelling (naturalDigits n) n := by
  have h := IntegerSpelling.natural (isDigits_naturalDigits n)
  rwa [placeValue_naturalDigits] at h

theorem integerSpelling_integerDigits (z : Int) : IntegerSpelling (integerDigits z) z := by
  cases z with
  | ofNat n => exact integerSpelling_naturalDigits n
  | negSucc n =>
    have h := IntegerSpelling.opposite (isDigits_naturalDigits (n + 1))
    rwa [placeValue_naturalDigits] at h

end Rational

/-! ### Decimal numerals -/

namespace Decimal

theorem isDigits_paddedDigits (d : Decimal) : IsDigits d.paddedDigits where
  ne_nil := List.append_ne_nil_of_right_ne_nil _ (isDigits_naturalDigits _).ne_nil
  isDigit c hc := by
    rcases List.mem_append.1 hc with hc | hc
    · rw [List.eq_of_mem_replicate hc]
      decide
    · exact (isDigits_naturalDigits _).isDigit c hc

/-- The zeros before a number do not count. -/
theorem placeValue_paddedDigits (d : Decimal) : placeValue d.paddedDigits = d.mantissa.natAbs := by
  rw [← digitsValue_eq_placeValue, digitsValue, paddedDigits, Nat.ofDigitChars_append,
    Nat.ofDigitChars_replicate_zero, Nat.mul_zero]
  exact Nat.ofDigitChars_ten_toDigits

/-- With the zeros there is a digit before the point. -/
theorem scale_lt_length_paddedDigits (d : Decimal) : d.scale < d.paddedDigits.length := by
  rw [paddedDigits, List.length_append, List.length_replicate]
  omega

theorem digits_of_scale_eq_zero {d : Decimal} (h : d.scale = 0) :
    d.digits = integerDigits d.mantissa := if_pos h

theorem digits_of_scale_ne_zero {d : Decimal} (h : d.scale ≠ 0) :
    d.digits = (if d.mantissa < 0 then ['-'] else []) ++
      d.paddedDigits.take (d.paddedDigits.length - d.scale) ++
      '.' :: d.paddedDigits.drop (d.paddedDigits.length - d.scale) := if_neg h

/-- A sign, the digits up to the places and the places spell a numeral. -/
theorem decimalSpelling_pointed {d : Decimal} {sign : List Char} {factor : Int}
    (hsign : SignSpelling sign factor) (hfactor : factor * d.mantissa.natAbs = d.mantissa) :
    DecimalSpelling (sign ++ d.paddedDigits.take (d.paddedDigits.length - d.scale) ++
      '.' :: d.paddedDigits.drop (d.paddedDigits.length - d.scale)) d := by
  have hlength : (d.paddedDigits.drop (d.paddedDigits.length - d.scale)).length = d.scale := by
    have hlt := d.scale_lt_length_paddedDigits
    rw [List.length_drop]
    omega
  have hcut := List.take_append_drop (d.paddedDigits.length - d.scale) d.paddedDigits
  have h := DecimalSpelling.pointed hsign (hcut.symm ▸ d.isDigits_paddedDigits)
  rw [hcut, placeValue_paddedDigits, hlength, hfactor, ← List.append_assoc] at h
  exact h

/-- The characters of a numeral spell it. -/
theorem decimalSpelling_digits (d : Decimal) : DecimalSpelling d.digits d := by
  by_cases hscale : d.scale = 0
  · rw [digits_of_scale_eq_zero hscale]
    have h := (integerSpelling_integerDigits d.mantissa).decimal
    rwa [← hscale] at h
  · rw [digits_of_scale_ne_zero hscale]
    by_cases hneg : d.mantissa < 0
    · rw [if_pos hneg]
      exact decimalSpelling_pointed .minus (by omega)
    · rw [if_neg hneg]
      exact decimalSpelling_pointed .absent (by omega)

end Decimal

/-! ### Rationals -/

namespace Rational

/-- The characters of a rational are not blank. -/
theorem noBlank_rationalDigits (q : Rat) : NoBlank (rationalDigits q) := by
  have hnum := (integerSpelling_integerDigits q.num).noBlank
  have hden := (integerSpelling_naturalDigits q.den).noBlank
  unfold rationalDigits
  split
  · exact hnum
  · intro c hc
    rcases List.mem_append.1 hc with hc | hc
    · exact hnum c hc
    · rcases List.mem_cons.1 hc with rfl | hc
      · decide
      · exact hden c hc

/-- The characters of a rational are read as it. -/
theorem readTrimmed_rationalDigits (q : Rat) : readTrimmed (rationalDigits q) = .ok q := by
  have hnum := integerSpelling_integerDigits q.num
  have hden := integerSpelling_naturalDigits q.den
  unfold rationalDigits
  split
  · next hone =>
    have hplaces : (0 : Nat) < placeRange := by decide
    rw [readTrimmed_decimal hnum.decimal hplaces, toRat_eq, pow_zero, div_one,
      Rat.coe_int_num_of_den_eq_one hone]
  · rw [readTrimmed_fraction hnum.decimal.slash_not_mem
      ((trim_of_noBlank hnum.noBlank).symm ▸ hnum) ((trim_of_noBlank hden.noBlank).symm ▸ hden)
      (Int.natCast_ne_zero.2 q.den_nz)]
    exact congrArg _ (Rat.num_div_den q)

/-! ### Texts between blanks -/

/-- A text that is not blank anywhere is read in the same way between blanks. -/
theorem readRational_surrounded {before text after : String} (hbefore : AllBlank before.toList)
    (hafter : AllBlank after.toList) (h : NoBlank text.toList) :
    readRational (before ++ text ++ after) = readTrimmed text.toList := by
  rw [readRational, String.toList_append, String.toList_append, trim_surrounded hbefore hafter h]

/-- Between any blanks, a decimal numeral that can be written is read as its exact value, whatever
its mantissa is, and every rational as itself. -/
theorem readRational_written (before after : String) (hbefore : AllBlank before.toList)
    (hafter : AllBlank after.toList) :
    (∀ d : Decimal, d.scale < 65535 →
      ∃ text, d.render = .ok text ∧ readRational (before ++ text ++ after) = .ok d.toRat) ∧
    ∀ q : Rat, readRational (before ++ showRational q ++ after) = .ok q := by
  constructor
  · intro d hscale
    have hspelling := d.decimalSpelling_digits
    refine ⟨String.ofList d.digits, if_pos (Nat.le_of_lt_succ hscale), ?_⟩
    rw [readRational_surrounded hbefore hafter, String.toList_ofList]
    · exact readTrimmed_decimal hspelling (Nat.lt_trans hscale (by decide))
    · rw [String.toList_ofList]
      exact hspelling.noBlank
  · intro q
    rw [readRational_surrounded hbefore hafter, showRational, String.toList_ofList]
    · exact readTrimmed_rationalDigits q
    · rw [showRational, String.toList_ofList]
      exact noBlank_rationalDigits q

/-- A numeral with more places than digits, and a negative fraction. -/
theorem readRational_written_between_blanks :
    (∃ text, Decimal.render ⟨-5, 3⟩ = .ok text ∧
      readRational ("\u2003" ++ text ++ "\n") = .ok (-1 / 200)) ∧
    readRational ("\u2003" ++ showRational (-3 / 2) ++ "\n") = .ok (-3 / 2) := by
  obtain ⟨hnumeral, hrational⟩ := readRational_written "\u2003" "\n" (by decide)
    (by decide)
  have hvalue : Decimal.toRat ⟨-5, 3⟩ = -1 / 200 := by decide +kernel
  exact ⟨hvalue ▸ hnumeral ⟨-5, 3⟩ (by decide), hrational _⟩

end Rational

end BrakeCheck
