import ScriptLexer.Piece.Cut

/-!
# The grammar of pieces

What each sort of piece looks like, said without saying how it is found: a numeral is these parts
in this order, a comment has no line feed in it, and so on (`Piece.IsUnit`). The characters of a
word are listed once more (`IsWordPart`) and then shown to be the ones that the scanner asks for
(`isWordChar_iff`), since a grammar that called the scanner's own test would follow it into any
mistake.

Two sorts of piece are no units. A stray character and an open string are what is left where no unit
is, and they are told from units here so that it can be said of a text that no unit starts it
(`StartsNoUnit`, in `Proofs/LongestMatch.lean`).

**What is cut is a unit or one of the two** (`isUnit_cut`): the procedure of `Piece/Cut.lean`
stays within the grammar.
-/

set_option autoImplicit false

namespace ScriptLexer

/-! ## Numerals -/

/-- Digits and nothing else, perhaps none. That there is at least one is said separately where it
matters, which is in front of the point and in the exponent but not behind the point. -/
def AllDigits (text : List Char) : Prop := ∀ c ∈ text, c.isDigit = true

/-- No text, or a point and digits, perhaps none. The point alone is a fraction: it belongs to the
numeral in front of it and is no operator there. -/
def IsFraction (text : List Char) : Prop :=
  text = [] ∨ ∃ digits, AllDigits digits ∧ text = '.' :: digits

/-- No text, or one of the two signs. -/
def IsSign (text : List Char) : Prop := text = [] ∨ text = ['+'] ∨ text = ['-']

/-- No text, or a mark, perhaps a sign, and at least one digit. The digit is what makes it an
exponent, so a mark without one is the start of a word. -/
def IsExponent (text : List Char) : Prop :=
  text = [] ∨ ∃ mark sign digits, (mark = 'e' ∨ mark = 'E') ∧ IsSign sign ∧ digits ≠ [] ∧
    AllDigits digits ∧ text = mark :: sign ++ digits

/-- At least one digit, then a fraction, then an exponent. Either of the two may be missing, which
is said by letting it be empty. -/
def IsNumeral (text : List Char) : Prop :=
  ∃ whole fraction exponent, whole ≠ [] ∧ AllDigits whole ∧ IsFraction fraction ∧
    IsExponent exponent ∧ text = whole ++ fraction ++ exponent

theorem allDigits_takeWhile (text : List Char) : AllDigits (text.takeWhile Char.isDigit) :=
  fun _ h => List.all_eq_true.mp List.all_takeWhile _ h

namespace Numeral

theorem isFraction_fraction (text : List Char) : IsFraction (fraction text).1 := by
  unfold fraction
  split
  · exact Or.inr ⟨_, allDigits_takeWhile _, rfl⟩
  · exact Or.inl rfl

theorem isSign_sign (text : List Char) : IsSign (sign text).1 := by
  unfold sign
  split
  · exact Or.inr (Or.inl rfl)
  · exact Or.inr (Or.inr rfl)
  · exact Or.inl rfl

theorem isExponent_exponent (text : List Char) : IsExponent (exponent text).1 := by
  cases text with
  | nil => exact Or.inl rfl
  | cons mark rest =>
    unfold exponent
    dsimp only
    split
    · rename_i h
      exact Or.inr ⟨mark, _, _, h.1, isSign_sign rest, h.2, allDigits_takeWhile _, rfl⟩
    · exact Or.inl rfl

theorem isNumeral_cut {c : Char} (rest : List Char) (h : c.isDigit = true) :
    IsNumeral (cut (c :: rest)).1 := by
  refine ⟨_, _, _, ?_, allDigits_takeWhile (c :: rest), isFraction_fraction _,
    isExponent_exponent _, rfl⟩
  simp [h]

end Numeral

/-! ## Units -/

/-- A character that may stand in a word behind its first one: an ASCII letter or digit, or one of
the three signs. It is spelled out and not left to `isWordChar`, so that the scanner's test is
something to be compared with it. -/
def IsWordPart (c : Char) : Prop :=
  c.isAlpha = true ∨ c.isDigit = true ∨ c = '_' ∨ c = '?' ∨ c = '!'

/-- A letter, and characters that may follow it in a word. -/
def IsWord (text : List Char) : Prop :=
  ∃ first rest, first.isAlpha = true ∧ (∀ c ∈ rest, IsWordPart c) ∧ text = first :: rest

/-- The scanner takes for part of a word what the grammar lists, and nothing else. -/
theorem isWordChar_iff {c : Char} : isWordChar c = true ↔ IsWordPart c := by
  simp [isWordChar, IsWordPart, Char.isAlphanum, or_assoc]

/-- The grammar of words in the scanner's terms, for the proofs that follow the scanner into one. -/
theorem isWord_iff {text : List Char} :
    IsWord text ↔ ∃ first rest, first.isAlpha = true ∧ (∀ c ∈ rest, isWordChar c = true) ∧
      text = first :: rest := by
  simp only [IsWord, isWordChar_iff]

/-- The first letter of a word could stand behind it as well, so one test holds of all of a word. -/
theorem isWordChar_of_isWord {text : List Char} (h : IsWord text) :
    ∀ c ∈ text, isWordChar c = true := by
  obtain ⟨first, rest, hfirst, hrest, rfl⟩ := isWord_iff.mp h
  have halpha : isWordChar first = true := isWordChar_iff.mpr (Or.inl hfirst)
  exact List.forall_mem_cons.mpr ⟨halpha, hrest⟩

namespace Piece

/-- The pieces that are as the grammar says. An operator is one by its type, so nothing is asked of
it; the others hold text, and the text has to be of the right form. -/
def IsUnit : Piece → Prop
  | blank c => isBlank c = true
  | newline => True
  | comment body => '\n' ∉ body
  | operator _ => True
  | string contents => '"' ∉ contents
  | number lexeme => IsNumeral lexeme
  | word lexeme => IsWord lexeme
  | stray _ => False
  | openString _ => False

/-- What is taken up to a character does not have it, so a comment that stops at a line feed and a
string that stops at a quote are as the grammar wants them. -/
theorem not_mem_takeWhile_ne (c : Char) (text : List Char) :
    c ∉ text.takeWhile (· != c) := by
  intro h
  have := List.all_eq_true.mp (List.all_takeWhile (p := (· != c)) (l := text)) c h
  simp at this

/-- What is cut is a unit, or a stray character, or a string that is open to the end of the
text. The last two come with the whole of what was cut and not only with the piece, because what
they leave of the text is known: everything behind the character, or nothing. -/
theorem isUnit_cut (c : Char) (rest : List Char) :
    (cut c rest).1.IsUnit ∨ cut c rest = (stray c, rest) ∨
      (cut c rest = (openString rest, []) ∧ c = '"' ∧ '"' ∉ rest) := by
  -- one case for each test that `cut` makes, in its order
  unfold cut
  split
  · exact Or.inl trivial
  · split
    · exact Or.inl (by assumption)
    · split
      · unfold cutString
        split
        · rename_i hq _ hd
          refine Or.inr (Or.inr ⟨rfl, hq, ?_⟩)
          have h := List.takeWhile_append_dropWhile (p := (· != '"')) (l := rest)
          rw [hd, List.append_nil] at h
          rw [← h]
          exact not_mem_takeWhile_ne _ _
        · exact Or.inl (not_mem_takeWhile_ne _ _)
      · split
        · rename_i hd
          exact Or.inl (Numeral.isNumeral_cut rest hd)
        · split
          · rename_i ha
            exact Or.inl (isWord_iff.mpr
              ⟨c, _, ha, fun _ h => List.all_eq_true.mp List.all_takeWhile _ h, rfl⟩)
          · split
            · exact Or.inl (not_mem_takeWhile_ne _ _)
            · unfold cutOperator
              split
              · exact Or.inl trivial
              · exact Or.inr (Or.inl rfl)

end Piece

end ScriptLexer
