import ScriptLexer.Proofs.Piece.Yield

/-!
# Number literals

The literal of a number token against the exact number that its lexeme spells. Both the digits and
the exponent of a lexeme may be of any size, and reading takes shortcuts where the exponent is
huge; **none of that shows in the literal**, which is the one binary64 nearest to the number
(`literal_nearest_of_mem_tokens`).

The number is read off the lexeme by the grammar (`Numeral.Denotes`), digit by digit and with no
bound. It is the only number that the lexeme spells, and only one binary64 is nearest to it, so the
literal is determined by the lexeme alone.
-/

set_option autoImplicit false

namespace ScriptLexer

/-- Only a numeral yields a number token, with a binary64 nearest to what it spells. -/
theorem Yields.exists_of_kind_number {line : Nat} {text : List Char} {t : Token}
    (h : Yields line text (some t)) (hkind : t.kind = .number) :
    ∃ v x, Numeral.Denotes text v ∧ Binary64.IsNearest v x ∧ t.literal = some (.number x) := by
  cases h with
  | @number _ v x hv hx => exact ⟨v, x, hv, hx, rfl⟩
  | _ => simp at hkind

/-- The lexeme of a number token spells one number, and its literal is the one binary64 nearest to
that number. The literal is never a NaN, and never has a sign, also where it is zero. -/
theorem literal_nearest_of_mem_tokens {source : String} {t : Token}
    (ht : t ∈ (scan source).tokens) (hkind : t.kind = .number) :
    ∃ v x, (∀ w, Numeral.Denotes t.lexeme.toList w ↔ w = v) ∧ t.literal = some (.number x) ∧
      (∀ y, Binary64.IsNearest v y ↔ y = x) ∧ x.isNaN = false ∧ x.isNegative = false := by
  have hyields := yields_of_mem_tokens ht (by rw [hkind]; exact Kind.noConfusion)
  obtain ⟨v, x, hv, hx, hliteral⟩ := hyields.exists_of_kind_number hkind
  refine ⟨v, x, ?_, hliteral, ?_, hx.isNaN_eq_false, hx.isNegative_eq_false⟩
  · intro w
    constructor
    · intro hw
      exact hw.unique hv
    · rintro rfl
      exact hv
  · intro y
    constructor
    · intro hy
      exact hy.unique hx
    · rintro rfl
      exact hx

/-- The number halfway between `2 ^ 53` and the next binary64 is read as `2 ^ 53`, which is the
even one of the two. -/
theorem halfway_literal :
    ⟨.number, "9007199254740993", some (.number ⟨0x4340000000000000⟩), 1⟩ ∈
        (scan "9007199254740993").tokens ∧
      Binary64.IsNearest 9007199254740993 ⟨0x4340000000000000⟩ := by
  have hmem : ⟨.number, "9007199254740993", some (.number ⟨0x4340000000000000⟩), 1⟩ ∈
      (scan "9007199254740993").tokens := by decide +kernel
  refine ⟨hmem, ?_⟩
  obtain ⟨v, x, hv, hliteral, hx, -, -⟩ := literal_nearest_of_mem_tokens hmem rfl
  have hdenotes : Numeral.Denotes "9007199254740993".toList 9007199254740993 := by
    have hne : "9007199254740993".toList ≠ [] := by decide +kernel
    have hall : "9007199254740993".toList.all Char.isDigit = true := by decide +kernel
    have hdigits : Nat.ofDigitChars 10 "9007199254740993".toList 0 = 9007199254740993 := by
      decide +kernel
    refine ⟨"9007199254740993".toList, [], [], 0, 0, hne, List.all_eq_true.mp hall, .absent,
      .absent, rfl, ?_⟩
    rw [hdigits]
    norm_num
  rw [(hv _).mp hdenotes]
  simp only [Option.some.injEq, Literal.number.injEq] at hliteral
  exact (hx _).mpr hliteral

end ScriptLexer
