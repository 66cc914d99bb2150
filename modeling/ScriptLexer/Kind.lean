import ScriptLexer.Kind.Operator
import ScriptLexer.Kind.Keyword

/-!
# Kinds of token

What a token can be: one of the operators, one of the keywords, one of the three classes of text
that vary (identifiers, strings and numbers), or the end of the source.

A kind says what a token is and not what its text is. For an operator and a keyword the one decides
the other, and for the three classes it does not, which is why a token keeps its text beside its
kind (`Token`). The end of the source is a kind as well, so that a scan can close with a token like
all the others and nobody who reads one has to ask whether there is a next.

Tables of kinds follow one order, that of `Kind.all`. It matters only where the kinds are listed;
a kind is otherwise known by its name, and names are unambiguous (`ofName?_name`). That is what
lets a printed token be read back: its kind stands first in it, and the name decides the kind.
-/

set_option autoImplicit false

namespace ScriptLexer

inductive Kind
  | operator (o : Operator)
  | identifier
  | string
  | number
  | keyword (k : Keyword)
  | endOfFile
  deriving DecidableEq, Repr, Inhabited

namespace Kind

def all : List Kind :=
  Operator.all.map operator ++ [identifier, string, number] ++ Keyword.all.map keyword
    ++ [endOfFile]

/-- The name under which a token of this kind is shown. Operators and keywords bring their own names
along; the other five are spelled here and nowhere else. -/
def name : Kind → String
  | operator o => o.name
  | identifier => "IDENTIFIER"
  | string => "STRING"
  | number => "NUMBER"
  | keyword k => k.name
  | endOfFile => "EOF"

/-- The kind that bears a name, found by going through the list of kinds. It inverts `name` and is
not a second table, so a new kind has to be added in one place only. -/
def ofName? (name : String) : Option Kind :=
  all.find? (·.name == name)

/-- The kind of a word: its keyword when it is reserved, else an identifier. The whole word is
looked up, after all of it has been read, so a word that only starts like a keyword is an
identifier. -/
def ofWord (word : List Char) : Kind :=
  match Keyword.ofText? word with
  | some k => keyword k
  | none => identifier

/-! ## The list of kinds is complete, and names tell kinds apart -/

@[simp] theorem mem_all (k : Kind) : k ∈ all := by
  cases k with
  | operator o => simp [all, Operator.mem_all]
  | keyword k => simp [all, Keyword.mem_all]
  | identifier | string | number | endOfFile => simp [all]

/-- A name leads back to the kind that bears it, so no two kinds share one. The search stops at the
first kind with the name, so this is a statement about the list as well as about the names. -/
@[simp] theorem ofName?_name (k : Kind) : ofName? k.name = some k := by
  cases k with
  | operator o => cases o <;> decide
  | keyword k => cases k <;> decide
  | identifier | string | number | endOfFile => decide

theorem name_injective {k l : Kind} (h : k.name = l.name) : k = l := by
  have hk := ofName?_name k
  rw [h, ofName?_name l] at hk
  exact (Option.some.inj hk).symm

end Kind

end ScriptLexer
