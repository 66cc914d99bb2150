import ScriptLexer.Proofs.Output

/-!
# Defects that no text reaches

Two things in the scanner could go wrong without anything being wrong with the text. A numeral is
cut by one procedure and read by another, so it could be cut out and then refused; and the value of
a string is what stands between the first and the last byte of its lexeme, which is a text only if
both cuts fall between characters. **Neither happens, whatever the text is** (`no_defect_reached`).
The reader takes exactly the numerals of the grammar (`isSome_ofText?_iff`), and cutting stays
within that grammar; and both cuts fall beside a quote, which is one byte long.

For the second the bytes have to be looked at, since a list of characters has no place between two
of its bytes. A position of a string is one by its type only between characters, so to give two of
them at the right offsets is to show that neither cut goes through a character.
-/

set_option autoImplicit false

namespace ScriptLexer

/-! ## The reader takes numerals and nothing else -/

namespace Numeral

theorem allDigits_of_natural? {digits : List Char} {n : Nat}
    (h : Decimal.natural? digits = some n) : digits ≠ [] ∧ AllDigits digits := by
  rw [Decimal.natural?] at h
  split at h
  · contradiction
  · rename_i hdigits
    rw [Bool.or_eq_true, not_or, List.isEmpty_iff, Bool.not_eq_true', Bool.not_eq_false] at hdigits
    exact ⟨hdigits.1, List.all_eq_true.mp hdigits.2⟩

/-- The three equations of `integer?` are the three signs that the grammar has. -/
theorem exists_sign_of_integer? {power : List Char} {e : ℤ} (h : Decimal.integer? power = some e) :
    ∃ sign digits, IsSign sign ∧ digits ≠ [] ∧ AllDigits digits ∧ power = sign ++ digits := by
  rw [Decimal.integer?.eq_def] at h
  split at h
  · rename_i digits
    obtain ⟨n, hn, -⟩ := Option.map_eq_some_iff.mp h
    exact ⟨['+'], digits, Or.inr (Or.inl rfl), (allDigits_of_natural? hn).1,
      (allDigits_of_natural? hn).2, rfl⟩
  · rename_i digits
    obtain ⟨n, hn, -⟩ := Option.map_eq_some_iff.mp h
    exact ⟨['-'], digits, Or.inr (Or.inr rfl), (allDigits_of_natural? hn).1,
      (allDigits_of_natural? hn).2, rfl⟩
  · obtain ⟨n, hn, -⟩ := Option.map_eq_some_iff.mp h
    exact ⟨[], power, Or.inl rfl, (allDigits_of_natural? hn).1, (allDigits_of_natural? hn).2, rfl⟩

theorem isExponent_of_exponent? {text : List Char} {e : ℤ} (h : Decimal.exponent? text = some e) :
    IsExponent text := by
  cases text with
  | nil => exact Or.inl rfl
  | cons mark power =>
    rw [Decimal.exponent?] at h
    split at h
    · rename_i hmark
      obtain ⟨sign, digits, hsign, hne, hdigits, rfl⟩ := exists_sign_of_integer? h
      exact Or.inr ⟨mark, sign, digits, hmark, hsign, hne, hdigits, rfl⟩
    · contradiction

/-- The fraction that the reader takes from the start of a text, and the text behind it. -/
theorem exists_isFraction_append (text : List Char) :
    ∃ fraction, IsFraction fraction ∧ fraction ++ (Decimal.fraction text).2 = text := by
  rw [Decimal.fraction.eq_def]
  split
  · rename_i rest
    refine ⟨'.' :: rest.takeWhile Char.isDigit, Or.inr ⟨_, allDigits_takeWhile rest, rfl⟩, ?_⟩
    rw [List.cons_append, List.takeWhile_append_dropWhile]
  · exact ⟨[], Or.inl rfl, rfl⟩

/-- The reader takes a text apart by runs of digits. If nothing is left over, the parts are those
that the grammar asks for. -/
theorem isNumeral_of_ofText? {text : List Char} {d : Decimal} (h : Decimal.ofText? text = some d) :
    IsNumeral text := by
  rw [Decimal.ofText?] at h
  dsimp only at h
  split at h
  · contradiction
  · rename_i hne
    obtain ⟨e, he, -⟩ := Option.map_eq_some_iff.mp h
    obtain ⟨fraction, hfraction, happend⟩ :=
      exists_isFraction_append (text.dropWhile Char.isDigit)
    refine ⟨_, fraction, _, mt List.isEmpty_iff.mpr hne, allDigits_takeWhile text, hfraction,
      isExponent_of_exponent? he, ?_⟩
    rw [List.append_assoc, happend, List.takeWhile_append_dropWhile]

/-- **A text is read as a number exactly when it is a numeral.** -/
theorem isSome_ofText?_iff {text : List Char} :
    (Decimal.ofText? text).isSome = true ↔ IsNumeral text := by
  constructor
  · intro h
    obtain ⟨d, hd⟩ := Option.isSome_iff_exists.mp h
    exact isNumeral_of_ofText? hd
  · intro h
    obtain ⟨v, hv⟩ := exists_denotes h
    obtain ⟨d, hd, -⟩ := hv.ofText?
    exact Option.isSome_iff_exists.mpr ⟨d, hd⟩

end Numeral

/-! ## Cutting off the first and the last byte -/

/-- What a text has between two positions, by what it has in front of each and behind it. -/
theorem extract_of_splits {text a b c : String} {first last : text.Pos}
    (hfirst : first.Splits a (b ++ c)) (hlast : last.Splits (a ++ b) c) :
    text.extract first last = b := by
  have hbytes : text.toByteArray = a.toByteArray ++ (b.toByteArray ++ c.toByteArray) := by
    rw [hfirst.eq_append, String.toByteArray_append, String.toByteArray_append]
  have hstart : first.offset.byteIdx = a.toByteArray.size + 0 := by
    rw [hfirst.offset_eq_rawEndPos, String.byteIdx_rawEndPos, String.size_toByteArray, Nat.add_zero]
  have hend : last.offset.byteIdx = a.toByteArray.size + b.toByteArray.size := by
    rw [hlast.offset_eq_rawEndPos, String.byteIdx_rawEndPos, String.utf8ByteSize_append,
      String.size_toByteArray, String.size_toByteArray]
  rw [← String.toByteArray_inj, String.toByteArray_extract, hbytes, hstart, hend,
    ByteArray.extract_append_size_add, ByteArray.extract_append_eq_left rfl]

/-- The lexeme starts and ends with a quote, and the value is what stands between its first and its
last byte. Both cuts are in the lexeme and between characters, since nothing else is a position. -/
structure Token.IsQuoted (t : Token) : Prop where
  quotes : ∃ inner, t.lexeme = "\"" ++ inner ++ "\""
  two_le : 2 ≤ t.lexeme.utf8ByteSize
  literal : ∃ first last : t.lexeme.Pos, first.offset.byteIdx = 1 ∧
    last.offset.byteIdx = t.lexeme.utf8ByteSize - 1 ∧ first ≤ last ∧
    t.literal = some (.string (t.lexeme.extract first last))

/-- A quote is one byte, so the first and the last byte of the lexeme are the two quotes, and what
is between them is the text that they enclose. -/
theorem Token.isQuoted_of_lexeme {t : Token} {inner : String}
    (hlexeme : t.lexeme = "\"" ++ inner ++ "\"") (hliteral : t.literal = some (.string inner)) :
    t.IsQuoted := by
  have hquote : "\"".utf8ByteSize = 1 := rfl
  have hsize : t.lexeme.utf8ByteSize = 1 + inner.utf8ByteSize + 1 := by
    rw [hlexeme, String.utf8ByteSize_append, String.utf8ByteSize_append, hquote]
  -- a position is had from the text in front of it and the text behind it
  obtain ⟨first, hfirst⟩ : ∃ first : t.lexeme.Pos, first.Splits "\"" (inner ++ "\"") :=
    ⟨_, String.Pos.splits_ofEqAppend (hlexeme.trans String.append_assoc)⟩
  obtain ⟨last, hlast⟩ : ∃ last : t.lexeme.Pos, last.Splits ("\"" ++ inner) "\"" :=
    ⟨_, String.Pos.splits_ofEqAppend hlexeme⟩
  have hstart := congrArg String.Pos.Raw.byteIdx hfirst.offset_eq_rawEndPos
  have hend := congrArg String.Pos.Raw.byteIdx hlast.offset_eq_rawEndPos
  rw [String.byteIdx_rawEndPos, hquote] at hstart
  rw [String.byteIdx_rawEndPos, String.utf8ByteSize_append, hquote] at hend
  refine ⟨⟨inner, hlexeme⟩, by omega, first, last, hstart, by omega, ?_, ?_⟩
  · rw [String.Pos.le_iff, String.Pos.Raw.le_iff, hstart, hend]
    omega
  · rw [extract_of_splits hfirst hlast, hliteral]

/-- Only a string yields a string token, and it yields it with both its quotes. -/
theorem Yields.isQuoted {line : Nat} {text : List Char} {t : Token} (h : Yields line text (some t))
    (hkind : t.kind = .string) : t.IsQuoted := by
  cases h with
  | @string contents _ =>
    have hlexeme : String.ofList ('"' :: (contents ++ ['"'])) =
        "\"" ++ String.ofList contents ++ "\"" := by
      simp [← String.toList_inj]
    exact Token.isQuoted_of_lexeme hlexeme rfl
  | _ => simp at hkind

/-! ## No defect -/

/-- **What is wrong in a scan is always wrong with the text.** Every numeral that is cut out is a
numeral of the grammar and is read, so that a fault is a stray character or a string that is open;
and the first and the last byte of a string token, which are its quotes, can always be cut off. -/
theorem no_defect_reached (source : String) :
    (∀ d, .error d ∈ (Scanner.ofText source).items → d.IsOfText) ∧
      (∀ d ∈ (scan source).diagnostics, d.IsOfText) ∧
      (∀ lexeme, .number lexeme ∈ Piece.split source.toList →
        IsNumeral lexeme ∧ (Decimal.ofText? lexeme).isSome = true) ∧
      ∀ t ∈ (scan source).tokens, t.kind = .string → t.IsQuoted := by
  refine ⟨?_, fun d => isOfText_of_mem_diagnostics, ?_, ?_⟩
  · intro d hd
    have hmem : d ∈ (scan source).diagnostics := by
      rw [scan, Scanner.diagnostics_finish]
      exact List.mem_filterMap.mpr ⟨_, hd, rfl⟩
    exact isOfText_of_mem_diagnostics hmem
  · intro lexeme hlexeme
    -- what is no unit is a stray character or an open string, and not a numeral
    rcases Piece.isUnit_of_mem_split hlexeme with hunit | ⟨c, hstray⟩ | ⟨contents, hopen, -⟩
    · exact ⟨hunit, Numeral.isSome_ofText?_iff.mpr hunit⟩
    · contradiction
    · contradiction
  · intro t ht hkind
    exact (yields_of_mem_tokens ht (by rw [hkind]; exact Kind.noConfusion)).isQuoted hkind

/-- A numeral that ends in its point, a mark that no digit follows, and a string whose characters
take more than one byte. -/
theorem no_defect_reached_past_ascii :
    .error ⟨.lexical, 2, "Unexpected character '№'."⟩ ∈ (Scanner.ofText "1.e+\n№\"é№\"").items ∧
      .number ['1', '.'] ∈ Piece.split "1.e+\n№\"é№\"".toList ∧
      (Decimal.ofText? ['1', '.']).isSome = true ∧
      ⟨.string, "\"é№\"", some (.string "é№"), 2⟩ ∈ (scan "1.e+\n№\"é№\"").tokens ∧
      (⟨.string, "\"é№\"", some (.string "é№"), 2⟩ : Token).IsQuoted := by
  obtain ⟨-, -, hnumbers, hstrings⟩ := no_defect_reached "1.e+\n№\"é№\""
  have hfault : .error ⟨.lexical, 2, "Unexpected character '№'."⟩ ∈
      (Scanner.ofText "1.e+\n№\"é№\"").items := by decide +kernel
  have hnumber : .number ['1', '.'] ∈ Piece.split "1.e+\n№\"é№\"".toList := by decide +kernel
  have hstring : ⟨.string, "\"é№\"", some (.string "é№"), 2⟩ ∈
      (scan "1.e+\n№\"é№\"").tokens := by decide +kernel
  exact ⟨hfault, hnumber, (hnumbers _ hnumber).2, hstring, hstrings _ hstring rfl⟩

end ScriptLexer
