import ScriptLexer.Kind
import ScriptLexer.Binary64.Shortest

/-!
# Tokens

A token is its kind, the text it was read from, the value of that text where it has one, and the
line it starts on.

There are two notions of sameness, and they differ in numbers only. Equality of the data tells
every bit apart. `Token.equal` is how tokens compare as values: number literals are compared as
numbers, so the two zeros are equal and a NaN differs from itself, and everything else is
compared as data. On the tokens of a scan the two agree, since a literal there is neither negative
nor a NaN; that is a fact about scanning and is shown where scans are compared
(`Proofs/Output.lean`), not here.
-/

set_option autoImplicit false

namespace ScriptLexer

/-! ## Literals -/

/-- The value of a token's text. Only strings and numbers have one; for all other tokens the text is
all there is. -/
inductive Literal
  | string (contents : String)
  | number (value : Binary64)
  deriving DecidableEq, Repr

namespace Literal

/-- The text of a value: a string is shown as it is, without quotes, and a number by the
shortest decimal that reads back. -/
def render : Literal → String
  | string contents => contents
  | number value => String.ofList value.text

def equal : Literal → Literal → Bool
  | string a, string b => a == b
  | number a, number b => a.numericallyEqual b
  | _, _ => false

end Literal

/-! ## Tokens -/

/-- A piece of the source with a meaning of its own. Every field can be told from the text and the
line, but a token keeps all four: it outlives the text that it was read from. -/
structure Token where
  kind : Kind
  /-- The text of the token in the source. -/
  lexeme : String
  /-- The value of the text, for strings and numbers. -/
  literal : Option Literal
  /-- The line on which the token starts, counted from one. -/
  line : Nat
  deriving DecidableEq, Repr

namespace Token

/-- The token that ends a scan. It has no text, so the texts of the tokens of a scan are all from
the source and the end adds nothing to them. -/
def endOfFile (line : Nat) : Token where
  kind := .endOfFile
  lexeme := ""
  literal := none
  line := line

/-- The text of a literal that may be absent. An absent one is shown as a word in angle brackets; a
string may spell the same, so the text does not say by itself whether there was a literal. -/
def renderLiteral : Option Literal → String
  | some literal => literal.render
  | none => "<nil>"

/-- The text of a token: kind, lexeme, line and literal, within braces. Lexeme and literal are
shown as they are, without escapes, so the text runs over several lines when they do, and where one
token ends and the next begins is not a matter of looking for a line break. -/
def render (t : Token) : String :=
  "\x7b" ++ t.kind.name ++ ": ('" ++ t.lexeme ++ "', line " ++ t.line.repr ++ "), "
    ++ renderLiteral t.literal ++ "\x7d"

/-- Whether two literals are the same: both absent, or present with the same value. This is the
sameness of values, which a NaN does not have with itself. -/
def equalLiteral : Option Literal → Option Literal → Bool
  | none, none => true
  | some a, some b => a.equal b
  | _, _ => false

/-- Whether two tokens are the same, number literals compared as numbers. All four fields count, the
line included: the same word further down is another token. -/
def equal (a b : Token) : Bool :=
  a.kind == b.kind && a.lexeme == b.lexeme && equalLiteral a.literal b.literal
    && a.line == b.line

/-! ## Where the two notions of sameness meet -/

/-- Without a literal there is no number to compare, and the two notions are one. -/
theorem equal_iff_of_literal_eq_none {a b : Token} (h : a.literal = none) :
    a.equal b = true ↔ a = b := by
  cases a
  cases b
  rename_i literal _
  cases h
  cases literal <;> simp [equal, equalLiteral, and_assoc]

/-- A token compares equal to itself exactly when its literal does. So it is a reflexive comparison
on every token that holds no NaN. -/
theorem equal_self (t : Token) : t.equal t = equalLiteral t.literal t.literal := by
  simp [equal]

end Token

end ScriptLexer
