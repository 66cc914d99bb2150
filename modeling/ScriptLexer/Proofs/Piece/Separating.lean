import ScriptLexer.Proofs.Piece.Standing

/-!
# Separators

Cutting looks at most three characters past the piece that it takes, and it stops looking at a
separator: a blank, a line feed or a quote (`separates`). **So what stands in a text stands there
with a separator behind the text too** (`StandsBefore.append_of_separates`), however the text ends:
with half an exponent, with one slash, with a stray character. What can go on behind the end of a
text is a comment, unless a line feed follows, and a string that is open there. Where the last piece
is neither, the pieces of the whole are those of the text and those from the separator on
(`split_append_of_separates`).
-/

set_option autoImplicit false

namespace ScriptLexer

/-- A character that no piece goes on with but a comment or an open string, and that nothing in
front of it has to be looked at again for. There are others, such as a bracket; these are
the ones that texts are put together at. A quote is one although it starts something itself. -/
def separates (c : Char) : Bool := isBlank c || c == '\n' || c == '"'

/-- What makes a separator one, in the terms in which each sort of piece goes on. -/
theorem not_part_of_separates {d : Char} (h : separates d = true) :
    Numeral.isPart d = false ∧ isWordChar d = false ∧ d ≠ '/' ∧
      ∀ o, Operator.extend? o d = none := by
  simp only [separates, isBlank, Bool.or_eq_true, beq_iff_eq, or_assoc] at h
  rcases h with rfl | rfl | rfl | rfl | rfl <;>
    exact ⟨by decide, by decide, by decide, fun o => by cases o <;> rfl⟩

theorem separates_of_isBlank {c : Char} (h : isBlank c = true) : separates c = true := by
  rw [separates, h]
  rfl

namespace Piece

/-- With a separator nothing goes on but a comment and an open string. -/
theorem continues_of_separates {p : Piece} {d : Char} (hd : separates d = true)
    (hcomment : ∀ body, p ≠ comment body) (hopen : ∀ contents, p ≠ openString contents) :
    p.continues d = false := by
  obtain ⟨hpart, hword, hslash, hextend⟩ := not_part_of_separates hd
  cases p with
  | comment body => exact absurd rfl (hcomment body)
  | openString contents => exact absurd rfl (hopen contents)
  | operator o => simp [continues, hextend, hslash]
  | number lexeme =>
    rw [Numeral.isPart, Bool.or_eq_false_iff, Bool.or_eq_false_iff] at hpart
    exact hpart.1.1
  | word lexeme => exact hword
  | _ => rfl

/-- What stands before a text stands before it with a separator behind it too, if it is no comment
at the end of the text and no open string. -/
theorem StandsBefore.append_of_separates {p : Piece} {rest more : List Char}
    (h : p.StandsBefore rest) (hopen : ∀ contents, p ≠ openString contents)
    (hcomment : rest = [] → ∀ body, p ≠ comment body)
    (hmore : Ends (fun d => !separates d) more) : p.StandsBefore (rest ++ more) := by
  have hseparates : ∀ d, more.head? = some d → separates d = true := by
    intro d hd
    simpa using hmore d hd
  have hpart : Ends Numeral.isPart more :=
    fun d hd => (not_part_of_separates (hseparates d hd)).1
  exact h.append hpart fun hnil d hd =>
    continues_of_separates (hseparates d hd) (hcomment hnil) hopen

/-- The pieces of a text are also its pieces in front of a separator, if the last of them cannot go
on with the separator. -/
theorem split_append_of_separates {source : List Char} {d : Char} (hd : separates d = true)
    (h : ∀ p, (split source).getLast? = some p → p.continues d = false) (more : List Char) :
    split (source ++ d :: more) = split source ++ split (d :: more) := by
  induction source using piece_induction with
  | nil => simp
  | piece p rest hp ih =>
    rw [hp.split_append, List.getLast?_cons] at h
    have hnext : rest = [] → Ends p.continues (d :: more) := by
      rintro rfl
      exact .cons (h p (by simp))
    have hbehind : ∀ q, (split rest).getLast? = some q → q.continues d = false := by
      intro q hq
      rw [hq] at h
      exact h q rfl
    have hstands := hp.append (.cons (not_part_of_separates hd).1) hnext
    rw [List.append_assoc, hstands.split_append, ih hbehind, hp.split_append, List.cons_append]

end Piece

end ScriptLexer
