import ScriptLexer.Binary64.Rounding
import ScriptLexer.Diagnostic
import ScriptLexer.Token

/-!
# Pieces

A source text is a sequence of pieces with nothing between them. Some pieces mean something and
become tokens, some separate the others and become nothing, and some are faults; all of them are
pieces, so that the texts of the pieces together are the source, character for character.

**A piece is cut before it is placed.** What stands at the start of a text is decided without the
line and without anything that came before (`Piece/Cut.lean`). What a piece means depends on the
line it starts on, and on nothing else (`item?`). So the only state that reading a text carries
from one piece to the next is the rest of the text and the line number, and the line moves by the
line breaks within the piece, whatever the piece is (`newlines`).
-/

set_option autoImplicit false

namespace ScriptLexer

/-- The number of line breaks in a text. Only line feeds count: a carriage return is a blank, and
the one in front of a line feed makes no second break. -/
def newlines (text : List Char) : Nat := text.count '\n'

/-- A piece of a source text, of one of nine sorts. A piece holds the characters that its sort
leaves open and no more, so the sort and what is held decide the text (`text`). -/
inductive Piece
  | blank (c : Char)
  | newline
  /-- Two slashes and what follows them on the line. -/
  | comment (body : List Char)
  | operator (o : Operator)
  /-- A closed string, by what stands between its quotes. -/
  | string (contents : List Char)
  | number (lexeme : List Char)
  | word (lexeme : List Char)
  /-- A character that starts no piece of another sort. -/
  | stray (c : Char)
  /-- A quote that is not closed, by all the text behind it. -/
  | openString (contents : List Char)
  deriving DecidableEq, Repr

/-- What a scanner yields: a token, or what is wrong instead. They are yielded in one sequence, so
that a fault keeps its place between the tokens around it. -/
abbrev Item := Except Diagnostic Token

namespace Piece

/-- The characters of a piece. Operators are spelled in their own table, and quotes and slashes are
added here to what the piece holds. -/
def text : Piece → List Char
  | blank c => [c]
  | newline => ['\n']
  | comment body => '/' :: '/' :: body
  | operator o => o.text
  | string contents => '"' :: contents ++ ['"']
  | number lexeme => lexeme
  | word lexeme => lexeme
  | stray c => [c]
  | openString contents => '"' :: contents

/-! ## Meaning -/

/-- What a number means: a token with the nearest binary64, or an internal fault if the numeral
that was cut out cannot be read as one. The second never happens (`no_defect_reached`), but that is
something to prove of the pieces of a text, and a piece by itself may hold any characters. -/
def numberItem (lexeme : List Char) (line : Nat) : Item :=
  match Decimal.ofText? lexeme with
  | some d => .ok ⟨.number, String.ofList lexeme, some (.number (.ofDecimal d)), line⟩
  | none => .error ((Fault.unreadableNumber (String.ofList lexeme)).onLine line)

/-- What a piece that starts on a line means, if anything. A token is on the line its piece
starts on, a fault on the line its piece ends on. The two differ for strings only: a closed one is
on the line of its opening quote, and an open one is reported where the text ends, since that is
where the missing quote was missed. -/
def item? (line : Nat) : Piece → Option Item
  | blank _ => none
  | newline => none
  | comment _ => none
  | operator o => some (.ok ⟨.operator o, String.ofList o.text, none, line⟩)
  | string contents =>
    some (.ok ⟨.string, String.ofList (string contents).text,
      some (.string (String.ofList contents)), line⟩)
  | number lexeme => some (numberItem lexeme line)
  | word lexeme => some (.ok ⟨Kind.ofWord lexeme, String.ofList lexeme, none, line⟩)
  | stray c => some (.error ((Fault.unexpectedCharacter c).onLine line))
  | openString contents =>
    some (.error (Fault.unterminatedString.onLine (line + newlines contents)))

/-! ## What several pieces mean -/

/-- What pieces in a row mean, the first of which starts on a line. Each piece starts on the
line that the pieces before it have come to, whether they meant anything or not. -/
def itemsOn (line : Nat) : List Piece → List Item
  | [] => []
  | p :: ps => (p.item? line).toList ++ itemsOn (line + newlines p.text) ps

end Piece

/-! ## What is counted and meant, part by part

These are the rules that a proof about the items of a text computes with, so `simp` has them: a
count or a row of meanings is taken apart wherever the text or the row is. -/

@[simp] theorem newlines_nil : newlines [] = 0 := rfl

@[simp] theorem newlines_append (a b : List Char) : newlines (a ++ b) = newlines a + newlines b :=
  List.count_append

namespace Piece

@[simp] theorem newlines_text_newline : newlines newline.text = 1 := rfl

/-- The quotes of a string are no line breaks, so its contents decide how far the line moves. -/
@[simp] theorem newlines_text_string (contents : List Char) :
    newlines (string contents).text = newlines contents := by
  simp [text, newlines]

@[simp] theorem newlines_text_openString (contents : List Char) :
    newlines (openString contents).text = newlines contents := by
  simp [text, newlines]

theorem newlines_text_stray {c : Char} (h : c ≠ '\n') : newlines (stray c).text = 0 := by
  simp [text, newlines, h]

@[simp] theorem itemsOn_nil (line : Nat) : itemsOn line [] = [] := rfl

@[simp] theorem itemsOn_cons (line : Nat) (p : Piece) (ps : List Piece) :
    itemsOn line (p :: ps) = (p.item? line).toList ++ itemsOn (line + newlines p.text) ps := rfl

/-- The pieces of a row that is cut in two mean what they mean apart, the second part on the line
that the first has come to. -/
@[simp] theorem itemsOn_append (line : Nat) (ps qs : List Piece) :
    itemsOn line (ps ++ qs) =
      itemsOn line ps ++ itemsOn (line + newlines (ps.flatMap Piece.text)) qs := by
  induction ps generalizing line with
  | nil => simp
  | cons p ps ih => simp [ih, Nat.add_assoc]

end Piece

end ScriptLexer
