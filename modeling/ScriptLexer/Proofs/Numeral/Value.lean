import ScriptLexer.Proofs.Binary64.Reading
import ScriptLexer.Proofs.Numeral.Cutting

/-!
# What a numeral stands for

The exact number that a numeral spells, read off the parts that the grammar takes it apart into
(`Numeral.Denotes`): the whole digits, the fraction digits, and the power of ten, each of any
length. **Every numeral is read as the number it spells** (`Denotes.ofText?`), so that what
becomes of it is the binary64 nearest to that number and never a fault (`Denotes.numberItem`).

The meaning is a relation and not a function. A function would have to take a text apart before it
could say anything, and would then be a third reader beside the two that there are; the relation
names the parts and leaves it to be shown that they are the only ones (`Denotes.unique`).
-/

set_option autoImplicit false

namespace ScriptLexer

namespace Numeral

/-! ## The numbers of the parts -/

/-- What a fraction adds to the whole digits: its digits as a number, over as many tens. A point
alone adds nothing. -/
inductive FractionDenotes : List Char → ℚ → Prop
  | absent : FractionDenotes [] 0
  | places {digits : List Char} (hdigits : AllDigits digits) :
    FractionDenotes ('.' :: digits) (Nat.ofDigitChars 10 digits 0 / 10 ^ digits.length)

/-- The factor that a sign stands for. No sign is the same factor as a plus, and another text. -/
inductive SignDenotes : List Char → ℤ → Prop
  | absent : SignDenotes [] 1
  | plus : SignDenotes ['+'] 1
  | minus : SignDenotes ['-'] (-1)

/-- The power of ten that an exponent stands for. There is no bound on it; what is too large or too
small for a binary64 is a number all the same. -/
inductive ExponentDenotes : List Char → ℤ → Prop
  | absent : ExponentDenotes [] 0
  | power {mark : Char} {sign digits : List Char} {factor : ℤ} (hmark : mark = 'e' ∨ mark = 'E')
    (hsign : SignDenotes sign factor) (hne : digits ≠ []) (hdigits : AllDigits digits) :
    ExponentDenotes (mark :: sign ++ digits) (factor * Nat.ofDigitChars 10 digits 0)

/-- The text is a numeral and `v` the number that it spells: whole digits and fraction, times ten to
the power of the exponent. The three conditions on the parts are those of the grammar, with numbers
added. -/
def Denotes (text : List Char) (v : ℚ) : Prop :=
  ∃ whole fraction exponent f e, whole ≠ [] ∧ AllDigits whole ∧ FractionDenotes fraction f ∧
    ExponentDenotes exponent e ∧ text = whole ++ fraction ++ exponent ∧
    v = (Nat.ofDigitChars 10 whole 0 + f) * 10 ^ e

/-! ## Numerals, and nothing else, spell numbers -/

theorem FractionDenotes.isFraction {text : List Char} {f : ℚ} (h : FractionDenotes text f) :
    IsFraction text := by
  cases h with
  | absent => exact Or.inl rfl
  | places hdigits => exact Or.inr ⟨_, hdigits, rfl⟩

theorem SignDenotes.isSign {text : List Char} {factor : ℤ} (h : SignDenotes text factor) :
    IsSign text := by
  cases h with
  | absent => exact Or.inl rfl
  | plus => exact Or.inr (Or.inl rfl)
  | minus => exact Or.inr (Or.inr rfl)

theorem ExponentDenotes.isExponent {text : List Char} {e : ℤ} (h : ExponentDenotes text e) :
    IsExponent text := by
  cases h with
  | absent => exact Or.inl rfl
  | power hmark hsign hne hdigits =>
    exact Or.inr ⟨_, _, _, hmark, hsign.isSign, hne, hdigits, rfl⟩

theorem Denotes.isNumeral {text : List Char} {v : ℚ} (h : Denotes text v) : IsNumeral text := by
  obtain ⟨whole, fraction, exponent, f, e, hne, hwhole, hf, he, rfl, -⟩ := h
  exact ⟨whole, fraction, exponent, hne, hwhole, hf.isFraction, he.isExponent, rfl⟩

theorem exists_fractionDenotes {text : List Char} (h : IsFraction text) :
    ∃ f, FractionDenotes text f := by
  rcases h with rfl | ⟨digits, hdigits, rfl⟩
  · exact ⟨0, .absent⟩
  · exact ⟨_, .places hdigits⟩

theorem exists_exponentDenotes {text : List Char} (h : IsExponent text) :
    ∃ e, ExponentDenotes text e := by
  rcases h with rfl | ⟨mark, sign, digits, hmark, hsign, hne, hdigits, rfl⟩
  · exact ⟨0, .absent⟩
  · rcases hsign with rfl | rfl | rfl
    · exact ⟨_, .power hmark .absent hne hdigits⟩
    · exact ⟨_, .power hmark .plus hne hdigits⟩
    · exact ⟨_, .power hmark .minus hne hdigits⟩

theorem exists_denotes {text : List Char} (h : IsNumeral text) : ∃ v, Denotes text v := by
  obtain ⟨whole, fraction, exponent, hne, hwhole, hfraction, hexponent, rfl⟩ := h
  obtain ⟨f, hf⟩ := exists_fractionDenotes hfraction
  obtain ⟨e, he⟩ := exists_exponentDenotes hexponent
  exact ⟨_, whole, fraction, exponent, f, e, hne, hwhole, hf, he, rfl, rfl⟩

/-! ## Reading comes to the number that is spelled -/

/-- Reading digits is reading a number in base ten, if they are digits and there is one. -/
theorem natural?_of_allDigits {digits : List Char} (hne : digits ≠ [])
    (hdigits : AllDigits digits) :
    Decimal.natural? digits = some (Nat.ofDigitChars 10 digits 0) := by
  have hall : digits.all Char.isDigit = true := List.all_eq_true.mpr hdigits
  simp [Decimal.natural?, hne, hall]

theorem integer?_of_signDenotes {sign digits : List Char} {factor : ℤ}
    (hsign : SignDenotes sign factor) (hne : digits ≠ []) (hdigits : AllDigits digits) :
    Decimal.integer? (sign ++ digits) = some (factor * Nat.ofDigitChars 10 digits 0) := by
  have hnatural := natural?_of_allDigits hne hdigits
  cases hsign with
  | absent =>
    -- a digit is no sign, so that the last equation of `integer?` applies
    have hhead : ∀ c rest, digits = c :: rest → c.isDigit = true := by
      intro c rest heq
      exact hdigits c (heq ▸ List.mem_cons_self)
    rw [List.nil_append, Decimal.integer?.eq_3, hnatural]
    · simp
    · intro rest heq
      exact absurd (hhead _ _ heq) (by decide)
    · intro rest heq
      exact absurd (hhead _ _ heq) (by decide)
  | plus => simp [Decimal.integer?, hnatural]
  | minus => simp [Decimal.integer?, hnatural]

/-- An exponent is read as the power it stands for. The reader asks again whether the text is one.
-/
theorem exponent?_of_exponentDenotes {text : List Char} {e : ℤ} (h : ExponentDenotes text e) :
    Decimal.exponent? text = some e := by
  cases h with
  | absent => rfl
  | power hmark hsign hne hdigits =>
    rw [List.cons_append, Decimal.exponent?, if_pos hmark]
    exact integer?_of_signDenotes hsign hne hdigits

/-- The fraction digits of a numeral, and what a fraction of these digits adds. A fraction that is
not there is one of no digits for the reader, and of nothing for the number, which is the same. -/
theorem exists_places_of_fractionDenotes {fraction rest : List Char} {f : ℚ}
    (hf : FractionDenotes fraction f) (hrest : Ends (fun c => c.isDigit || c == '.') rest) :
    ∃ places, Decimal.fraction (fraction ++ rest) = (places, rest) ∧
      f = Nat.ofDigitChars 10 places 0 / 10 ^ places.length := by
  cases hf with
  | absent =>
    refine ⟨[], ?_, by simp⟩
    rw [List.nil_append]
    unfold Decimal.fraction
    split
    · exact absurd (hrest _ rfl) (by decide)
    · rfl
  | @places digits hdigits =>
    have hends : Ends Char.isDigit rest := hrest.mono fun c hc => by simp [hc]
    refine ⟨digits, ?_, rfl⟩
    simp only [List.cons_append, Decimal.fraction]
    -- the reader stops where the digits do, so that it has just the digits of the fraction
    rw [hends.takeWhile_append hdigits, hends.dropWhile_append hdigits]

/-- Fraction digits may be written behind the whole digits if the exponent is made less by as many.
The reader does that, so that a decimal needs no fraction. -/
theorem toRat_of_digits (whole places : List Char) (e : ℤ) :
    Decimal.toRat ⟨Nat.ofDigitChars 10 (whole ++ places) 0, e - places.length⟩ =
      (Nat.ofDigitChars 10 whole 0 + Nat.ofDigitChars 10 places 0 / 10 ^ places.length) *
        10 ^ e := by
  have hten : (10 : ℚ) ^ places.length ≠ 0 := pow_ne_zero _ (by norm_num)
  rw [Decimal.toRat, Nat.ofDigitChars_append, Nat.ofDigitChars_eq_ofDigitChars_zero,
    zpow_sub₀ (by norm_num), zpow_natCast]
  push_cast
  field_simp

/-- A numeral is read, and as the number that it spells. That it is read at all is half of the
statement: the reader is all or nothing, and a text it does not accept would be a fault. -/
theorem Denotes.ofText? {text : List Char} {v : ℚ} (h : Denotes text v) :
    ∃ d, Decimal.ofText? text = some d ∧ d.toRat = v := by
  obtain ⟨whole, fraction, exponent, f, e, hne, hwhole, hf, he, rfl, rfl⟩ := h
  have hends : Ends (fun c => c.isDigit || c == '.') exponent := by
    simpa using ends_of_isExponent he.isExponent fun _ => (Ends.nil : Ends continues [])
  have hdigit : Ends Char.isDigit (fraction ++ exponent) :=
    ends_of_isFraction hf.isFraction (hends.mono fun c hc => by simp [hc])
  obtain ⟨places, hplaces, rfl⟩ := exists_places_of_fractionDenotes hf hends
  refine ⟨_, ?_, toRat_of_digits whole places e⟩
  simp only [Decimal.ofText?, List.append_assoc, hdigit.takeWhile_append hwhole,
    hdigit.dropWhile_append hwhole, hplaces, exponent?_of_exponentDenotes he]
  simp [hne]

/-- A text spells at most one number, because reading it has one answer. -/
theorem Denotes.unique {text : List Char} {v w : ℚ} (hv : Denotes text v) (hw : Denotes text w) :
    v = w := by
  obtain ⟨d, hd, rfl⟩ := hv.ofText?
  obtain ⟨d', hd', rfl⟩ := hw.ofText?
  rw [Option.some.inj (hd.symm.trans hd')]

/-- **A numeral means a number token with the binary64 nearest to the number that it spells.** -/
theorem Denotes.numberItem {text : List Char} {v : ℚ} (h : Denotes text v) (line : Nat) :
    ∃ x, Binary64.IsNearest v x ∧
      Piece.numberItem text line = .ok ⟨.number, String.ofList text, some (.number x), line⟩ := by
  obtain ⟨d, hd, rfl⟩ := h.ofText?
  refine ⟨.ofDecimal d, Binary64.isNearest_ofDecimal d, ?_⟩
  simp only [Piece.numberItem, hd]

end Numeral

end ScriptLexer
