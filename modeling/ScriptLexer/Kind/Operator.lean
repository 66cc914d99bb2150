/-!
# Operators

The twenty-three operators of the language, as data: what each is called and how it is spelled.

**Recognition is one character of lookahead, and the table says so.** An operator is one
character long or two, and each two-character operator is a one-character operator with one more
character behind it (`text_extend?`). So an operator is recognised by two small tables,
`ofChar?` for the first character and `extend?` for the second, and `cut?` prefers the longer
spelling because it asks `extend?` before it settles for what `ofChar?` said.

The slash is an operator here like the others. That two of them start a comment is no fact about
operators, and `cut?` does not know of it: whoever cuts pieces off a text asks for a comment first
(`Piece.cut`).
-/

set_option autoImplicit false

namespace ScriptLexer

inductive Operator
  | leftParen | rightParen | leftBrace | rightBrace | leftBracket | rightBracket
  | comma | dot | minus | plus | semicolon | slash | star
  | bang | bangEqual
  | equal | equalEqual
  | greater | greaterEqual
  | less | lessEqual
  | minusMinus | plusPlus
  deriving DecidableEq, Repr, Inhabited

namespace Operator

def all : List Operator :=
  [leftParen, rightParen, leftBrace, rightBrace, leftBracket, rightBracket,
   comma, dot, minus, plus, semicolon, slash, star,
   bang, bangEqual, equal, equalEqual, greater, greaterEqual, less, lessEqual,
   minusMinus, plusPlus]

/-- The name under which a token of this operator is shown. A longer operator is named after both of
its characters, even where the two together have a meaning of their own in the language. -/
def name : Operator → String
  | leftParen => "LEFT_PAREN"
  | rightParen => "RIGHT_PAREN"
  | leftBrace => "LEFT_BRACE"
  | rightBrace => "RIGHT_BRACE"
  | leftBracket => "LEFT_BRACKET"
  | rightBracket => "RIGHT_BRACKET"
  | comma => "COMMA"
  | dot => "DOT"
  | minus => "MINUS"
  | plus => "PLUS"
  | semicolon => "SEMICOLON"
  | slash => "SLASH"
  | star => "STAR"
  | bang => "BANG"
  | bangEqual => "BANG_EQUAL"
  | equal => "EQUAL"
  | equalEqual => "EQUAL_EQUAL"
  | greater => "GREATER"
  | greaterEqual => "GREATER_EQUAL"
  | less => "LESS"
  | lessEqual => "LESS_EQUAL"
  | minusMinus => "MINUS_MINUS"
  | plusPlus => "PLUS_PLUS"

/-- The spelling in source text. The two braces are written by their numbers, because a brace in a
literal would be taken for the start of something else. -/
def text : Operator → List Char
  | leftParen => ['(']
  | rightParen => [')']
  | leftBrace => ['\x7b']
  | rightBrace => ['\x7d']
  | leftBracket => ['[']
  | rightBracket => [']']
  | comma => [',']
  | dot => ['.']
  | minus => ['-']
  | plus => ['+']
  | semicolon => [';']
  | slash => ['/']
  | star => ['*']
  | bang => ['!']
  | bangEqual => ['!', '=']
  | equal => ['=']
  | equalEqual => ['=', '=']
  | greater => ['>']
  | greaterEqual => ['>', '=']
  | less => ['<']
  | lessEqual => ['<', '=']
  | minusMinus => ['-', '-']
  | plusPlus => ['+', '+']

/-! ## Recognition -/

/-- The operator that a character is by itself. Every operator of two characters has its first one
here too, so a character that is not in this table starts no operator at all. -/
def ofChar? : Char → Option Operator
  | '(' => some leftParen
  | ')' => some rightParen
  | '\x7b' => some leftBrace
  | '\x7d' => some rightBrace
  | '[' => some leftBracket
  | ']' => some rightBracket
  | ',' => some comma
  | '.' => some dot
  | '-' => some minus
  | '+' => some plus
  | ';' => some semicolon
  | '/' => some slash
  | '*' => some star
  | '!' => some bang
  | '=' => some equal
  | '>' => some greater
  | '<' => some less
  | _ => none

/-- The longer operator that one more character makes of an operator. None of the longer ones goes
on in its turn, so one character of lookahead is enough. -/
def extend? : Operator → Char → Option Operator
  | bang, '=' => some bangEqual
  | equal, '=' => some equalEqual
  | greater, '=' => some greaterEqual
  | less, '=' => some lessEqual
  | minus, '-' => some minusMinus
  | plus, '+' => some plusPlus
  | _, _ => none

/-- The longest operator that starts with `c` and goes on into `rest`, with what it leaves of
`rest`. Nothing is ever given back: the second character is taken only when it belongs to the
operator, and is looked at otherwise. -/
def cut? (c : Char) (rest : List Char) : Option (Operator × List Char) :=
  match ofChar? c with
  | none => none
  | some o =>
    match rest with
    | [] => some (o, [])
    | d :: rest =>
      match o.extend? d with
      | some longer => some (longer, rest)
      | none => some (o, d :: rest)

/-! ## What the tables agree on -/

@[simp] theorem mem_all (o : Operator) : o ∈ all := by
  cases o <;> decide

@[simp] theorem text_ne_nil (o : Operator) : o.text ≠ [] := by
  cases o <;> simp [text]

/-- A character that is an operator by itself is that operator's whole spelling. With
`text_extend?` this is all that ties the tables of recognition to the table of spellings. -/
theorem text_ofChar? {c : Char} {o : Operator} (h : ofChar? c = some o) : o.text = [c] := by
  unfold ofChar? at h
  split at h <;> first | contradiction | (cases h; rfl)

theorem text_extend? {o longer : Operator} {c : Char} (h : o.extend? c = some longer) :
    longer.text = o.text ++ [c] := by
  unfold extend? at h
  split at h <;> first | contradiction | (cases h; rfl)

/-- What is cut off and what is left are the text that was there. -/
theorem text_append_of_cut? {c : Char} {rest rest' : List Char} {o : Operator}
    (h : cut? c rest = some (o, rest')) : o.text ++ rest' = c :: rest := by
  unfold cut? at h
  split at h
  · contradiction
  · rename_i short hs
    split at h
    · cases h
      simp [text_ofChar? hs]
    · split at h
      · rename_i longer hl
        cases h
        simp [text_extend? hl, text_ofChar? hs]
      · cases h
        simp [text_ofChar? hs]

end Operator

end ScriptLexer
