import ScriptLexer.Numeral
import ScriptLexer.Piece.Basic

/-!
# Cutting a text into pieces

`cut` takes the piece at the start of a text, and `split` all the pieces of one.

**The first character decides**, except that a slash needs a second one to start a comment: no
two sorts of piece start with the same character otherwise, so none has to be tried and given up.
Within its sort a piece is as long as it can be. And because every character starts some piece —
a stray one, if nothing else — cutting cannot fail, and the texts of the pieces together are the
text that was cut (`flatMap_text_split`).

Cutting knows of no line and of nothing that came before. So the pieces of a text are a function of
the text alone, and where a statement compares the scans of two texts, the comparison is one of
their pieces first.
-/

set_option autoImplicit false

namespace ScriptLexer

/-- A space, a tab or a carriage return. A line feed is no blank: it ends a line. No other character
is one either, whatever the world calls white space, so a form feed is a stray character. -/
def isBlank (c : Char) : Bool := c == ' ' || c == '\t' || c == '\r'

/-- A character that may stand in a word behind its first letter: an ASCII letter, an ASCII
digit, or one of `_`, `?` and `!`. The last of them is an operator elsewhere, so `a!=b` is the word
`a!` and an equals sign. -/
def isWordChar (c : Char) : Bool := c.isAlphanum || c == '_' || c == '?' || c == '!'

namespace Piece

/-! ## One piece -/

/-- The string behind an opening quote, up to the next quote, or open to the end of the text.
Nothing escapes a quote, and line feeds do not end a string. -/
def cutString (rest : List Char) : Piece × List Char :=
  match rest.dropWhile (· != '"') with
  | [] => (openString rest, [])
  | _ :: after => (string (rest.takeWhile (· != '"')), after)

/-- The operator at the start of a text, or the stray character that is there instead. A stray
character is a piece of one character, so a run of them is reported one by one. -/
def cutOperator (c : Char) (rest : List Char) : Piece × List Char :=
  match Operator.cut? c rest with
  | some (o, after) => (operator o, after)
  | none => (stray c, rest)

/-- The piece at the start of the text `c :: rest`, and what follows it. The first character
decides, except that a slash needs a second one to start a comment. The tests exclude each other, so
their order is of no account; a proof about one sort goes past the tests for the others by that. -/
def cut (c : Char) (rest : List Char) : Piece × List Char :=
  if c = '\n' then (newline, rest)
  else if isBlank c then (blank c, rest)
  else if c = '"' then cutString rest
  else if c.isDigit then
    (number (Numeral.cut (c :: rest)).1, (Numeral.cut (c :: rest)).2)
  else if c.isAlpha then (word (c :: rest.takeWhile isWordChar), rest.dropWhile isWordChar)
  else if c = '/' ∧ rest.head? = some '/' then
    (comment (rest.tail.takeWhile (· != '\n')), rest.tail.dropWhile (· != '\n'))
  else cutOperator c rest

/-! ## Nothing is lost -/

theorem eq_of_dropWhile_ne {c d : Char} {text after : List Char}
    (h : text.dropWhile (· != c) = d :: after) : d = c := by
  have hne : text.dropWhile (· != c) ≠ [] := by simp [h]
  have hhead := List.head_dropWhile_not (· != c) hne
  simpa [h] using hhead

@[simp] theorem text_append_cutString (rest : List Char) :
    (cutString rest).1.text ++ (cutString rest).2 = '"' :: rest := by
  have h := List.takeWhile_append_dropWhile (p := (· != '"')) (l := rest)
  unfold cutString
  split
  · simp [text]
  · rename_i d after hd
    rw [hd, eq_of_dropWhile_ne hd] at h
    simp only [text, List.cons_append, List.append_assoc, List.nil_append, h]

@[simp] theorem text_append_cutOperator (c : Char) (rest : List Char) :
    (cutOperator c rest).1.text ++ (cutOperator c rest).2 = c :: rest := by
  unfold cutOperator
  split
  · rename_i o after h
    exact Operator.text_append_of_cut? h
  · rfl

@[simp] theorem text_append_cut (c : Char) (rest : List Char) :
    (cut c rest).1.text ++ (cut c rest).2 = c :: rest := by
  -- the tests of `cut`, in their order; what a test takes along, it takes from `rest`
  unfold cut
  split
  · rename_i h
    simp [text, h]
  · split
    · simp [text]
    · split
      · rename_i h
        rw [text_append_cutString, h]
      · split
        · exact Numeral.cut_append _
        · split
          · simp [text]
          · split
            · rename_i h
              obtain ⟨rfl, h⟩ := h
              cases rest with
              | nil => simp at h
              | cons d rest =>
                obtain rfl : d = '/' := by simpa using h
                simp [text]
            · exact text_append_cutOperator _ _

theorem text_cut_ne_nil (c : Char) (rest : List Char) : (cut c rest).1.text ≠ [] := by
  unfold cut
  split
  · simp [text]
  · split
    · simp [text]
    · split
      · unfold cutString
        split <;> simp [text]
      · split
        -- cutting a numeral leaves a shorter text, so the numeral is not empty
        · rename_i hd
          have h := Numeral.length_cut_lt rest hd
          intro hnil
          have hc := Numeral.cut_append (c :: rest)
          simp only [text] at hnil
          rw [hnil, List.nil_append] at hc
          rw [hc] at h
          exact Nat.lt_irrefl _ h
        · split
          · simp [text]
          · split
            · simp [text]
            · unfold cutOperator
              split
              · simp [text, Operator.text_ne_nil]
              · simp [text]

/-- Cutting always takes something, which is why reading a text ends. -/
theorem length_cut_lt (c : Char) (rest : List Char) :
    (cut c rest).2.length < (c :: rest).length := by
  have hlen := congrArg List.length (text_append_cut c rest)
  have hpos := List.length_pos_iff.mpr (text_cut_ne_nil c rest)
  simp only [List.length_append] at hlen
  omega

/-! ## All the pieces -/

/-- The pieces of a text, in order. The recursion is on what cutting leaves and not on the text, so
inductions on a text go by its pieces as well (`piece_induction`, in
`Proofs/Piece/Standing.lean`). -/
def split (source : List Char) : List Piece :=
  match source with
  | [] => []
  | c :: rest => (cut c rest).1 :: split (cut c rest).2
termination_by source.length
decreasing_by exact length_cut_lt c rest

/-- No text, no pieces. A text that is not empty is not taken apart by `simp`: what its first piece
is has to be known first. -/
@[simp] theorem split_nil : split [] = [] := by
  rw [split]

/-- Nothing of a text gets lost between its pieces, and nothing is added. -/
@[simp] theorem flatMap_text_split (source : List Char) : (split source).flatMap text = source := by
  fun_induction split source with
  | case1 => rfl
  | case2 c rest ih => rw [List.flatMap_cons, ih, text_append_cut]

end Piece

end ScriptLexer
