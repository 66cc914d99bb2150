import ScriptLexer.Proofs.Numeral.Value

/-!
# Numerals without an exponent

How a decimal is written out (`Decimal.positional`): the digits of the coefficient, filled up with
zeros to the point on either side. **What is written is digits, and perhaps a point with digits on
both sides of it** (`isPositional_positional`), **and it spells the decimal exactly**
(`denotes_positional`), whether the exponent shifts the point to the left or adds zeros on the
right.

The writer counts places and pads with zeros, which is where it could go wrong by one. So its text
is first shown to be digits around a point, as many behind it as there are places
(`exists_positional_negSucc`), and the counting is not looked at again.
-/

set_option autoImplicit false

namespace ScriptLexer

namespace Numeral

/-- Digits, or digits on both sides of a point. These are fewer texts than the numerals: no
exponent, and no point at the end. -/
inductive IsPositional : List Char → Prop
  | whole {digits : List Char} (hne : digits ≠ []) (hdigits : AllDigits digits) :
    IsPositional digits
  | fraction {whole places : List Char} (hwhole : whole ≠ []) (hplaces : places ≠ [])
    (hdigits : AllDigits (whole ++ places)) : IsPositional (whole ++ '.' :: places)

theorem allDigits_append {a b : List Char} :
    AllDigits (a ++ b) ↔ AllDigits a ∧ AllDigits b := List.forall_mem_append

/-- The number that digits on both sides of a point spell: all of them as one number, divided by ten
for each one behind the point. -/
theorem denotes_of_digits {whole places : List Char} (hne : whole ≠ [])
    (hdigits : AllDigits (whole ++ places)) :
    Denotes (whole ++ '.' :: places)
      (Nat.ofDigitChars 10 (whole ++ places) 0 * 10 ^ (-(places.length : ℤ))) := by
  obtain ⟨hwhole, hplaces⟩ := allDigits_append.mp hdigits
  refine ⟨whole, '.' :: places, [], _, 0, hne, hwhole, .places hplaces, .absent,
    (List.append_nil _).symm, ?_⟩
  have h := toRat_of_digits whole places 0
  rwa [Decimal.toRat, zero_sub] at h

/-! ## The digits of a coefficient -/

theorem allDigits_toDigits (n : Nat) : AllDigits (Nat.toDigits 10 n) :=
  fun _ hc => Nat.isDigit_of_mem_toDigits (by decide) (by decide) hc

theorem allDigits_zeros (n : Nat) : AllDigits (List.replicate n '0') := by
  intro c hc
  rw [List.eq_of_mem_replicate hc]
  rfl

/-- Zeros in front of the digits of a number fill them up to a width and do not change it. -/
theorem filledDigits_spec (coefficient width : Nat) {digits : List Char}
    (h : List.replicate (width - (Nat.toDigits 10 coefficient).length) '0' ++
      Nat.toDigits 10 coefficient = digits) :
    AllDigits digits ∧ width ≤ digits.length ∧ Nat.ofDigitChars 10 digits 0 = coefficient := by
  subst h
  refine ⟨allDigits_append.mpr ⟨allDigits_zeros _, allDigits_toDigits _⟩, ?_, ?_⟩
  · rw [List.length_append, List.length_replicate]
    omega
  · rw [Nat.ofDigitChars_append, Nat.ofDigitChars_replicate_zero, Nat.mul_zero,
      Nat.ofDigitChars_ten_toDigits]

theorem ofDigitChars_append_zeros (n zeros : Nat) :
    Nat.ofDigitChars 10 (Nat.toDigits 10 n ++ List.replicate zeros '0') 0 = n * 10 ^ zeros := by
  rw [Nat.ofDigitChars_append, Nat.ofDigitChars_replicate_zero, Nat.ofDigitChars_ten_toDigits,
    Nat.mul_comm]

/-! ## What is written -/

/-- A decimal with places behind the point is written as digits on both sides of it, as many behind
it as there are places, which together are those of the coefficient. -/
theorem exists_positional_negSucc (coefficient n : Nat) :
    ∃ whole places, Decimal.positional ⟨coefficient, .negSucc n⟩ = whole ++ '.' :: places ∧
      whole ≠ [] ∧ places.length = n + 1 ∧ AllDigits (whole ++ places) ∧
      Nat.ofDigitChars 10 (whole ++ places) 0 = coefficient := by
  simp only [Decimal.positional]
  generalize hfilled : List.replicate _ '0' ++ Nat.toDigits 10 coefficient = digits
  obtain ⟨hdigits, hlength, hvalue⟩ := filledDigits_spec _ _ hfilled
  refine ⟨_, _, rfl, ?_, ?_, ?_, ?_⟩
  · rw [← List.length_pos_iff, List.length_take]
    omega
  · rw [List.length_drop]
    omega
  · rwa [List.take_append_drop]
  · rwa [List.take_append_drop]

theorem isPositional_positional (d : Decimal) : IsPositional d.positional := by
  obtain ⟨coefficient, exponent⟩ := d
  cases exponent with
  | ofNat zeros =>
    refine .whole (List.append_ne_nil_of_left_ne_nil Nat.toDigits_ne_nil _) ?_
    exact allDigits_append.mpr ⟨allDigits_toDigits _, allDigits_zeros _⟩
  | negSucc n =>
    obtain ⟨whole, places, htext, hwhole, hlength, hdigits, -⟩ :=
      exists_positional_negSucc coefficient n
    rw [htext]
    exact .fraction hwhole (List.ne_nil_of_length_eq_add_one hlength) hdigits

/-- What is written spells the decimal, with nothing rounded and no digit lost. -/
theorem denotes_positional (d : Decimal) : Denotes d.positional d.toRat := by
  obtain ⟨coefficient, exponent⟩ := d
  cases exponent with
  | ofNat zeros =>
    have hdigits : AllDigits (Nat.toDigits 10 coefficient ++ List.replicate zeros '0') :=
      allDigits_append.mpr ⟨allDigits_toDigits _, allDigits_zeros _⟩
    refine ⟨_, [], [], 0, 0, List.append_ne_nil_of_left_ne_nil Nat.toDigits_ne_nil _, hdigits,
      .absent, .absent, by simp [Decimal.positional], ?_⟩
    rw [ofDigitChars_append_zeros, Decimal.toRat]
    simp
  | negSucc n =>
    obtain ⟨whole, places, htext, hwhole, hlength, hdigits, hvalue⟩ :=
      exists_positional_negSucc coefficient n
    have h := denotes_of_digits hwhole hdigits
    rw [hvalue, hlength] at h
    rw [htext]
    exact h

end Numeral

end ScriptLexer
