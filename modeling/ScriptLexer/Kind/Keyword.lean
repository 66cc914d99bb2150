/-!
# Keywords

The eighteen reserved words. A word of the source is a keyword exactly when its whole spelling is
in this table (`ofText?_eq_some_iff`); every other word is an identifier. The comparison is of
the spelling as it stands, so a word in other letter case is not reserved.

The constructors carry a mark in front of the word because most of the words mean something to Lean
itself. What a token shows and what the source spells are therefore both given as tables, `name` and
`text`, and neither is derived from the name of a constructor.
-/

set_option autoImplicit false

namespace ScriptLexer

inductive Keyword
  | kwAnd | kwBreak | kwClass | kwContinue | kwElse | kwFalse | kwFun | kwFor | kwIf
  | kwNil | kwOr | kwPrint | kwReturn | kwSuper | kwThis | kwTrue | kwVar | kwWhile
  deriving DecidableEq, Repr, Inhabited

namespace Keyword

def all : List Keyword :=
  [kwAnd, kwBreak, kwClass, kwContinue, kwElse, kwFalse, kwFun, kwFor, kwIf,
   kwNil, kwOr, kwPrint, kwReturn, kwSuper, kwThis, kwTrue, kwVar, kwWhile]

/-- The name under which a token of this keyword is shown, the word in capitals. A word of the
source that is spelled like that is an identifier. -/
def name : Keyword → String
  | kwAnd => "AND"
  | kwBreak => "BREAK"
  | kwClass => "CLASS"
  | kwContinue => "CONTINUE"
  | kwElse => "ELSE"
  | kwFalse => "FALSE"
  | kwFun => "FUN"
  | kwFor => "FOR"
  | kwIf => "IF"
  | kwNil => "NIL"
  | kwOr => "OR"
  | kwPrint => "PRINT"
  | kwReturn => "RETURN"
  | kwSuper => "SUPER"
  | kwThis => "THIS"
  | kwTrue => "TRUE"
  | kwVar => "VAR"
  | kwWhile => "WHILE"

/-- The spelling in source text. It is a list of characters and not a string because it is compared
with what has been taken from a text, which is one. -/
def text : Keyword → List Char
  | kwAnd => ['a', 'n', 'd']
  | kwBreak => ['b', 'r', 'e', 'a', 'k']
  | kwClass => ['c', 'l', 'a', 's', 's']
  | kwContinue => ['c', 'o', 'n', 't', 'i', 'n', 'u', 'e']
  | kwElse => ['e', 'l', 's', 'e']
  | kwFalse => ['f', 'a', 'l', 's', 'e']
  | kwFun => ['f', 'u', 'n']
  | kwFor => ['f', 'o', 'r']
  | kwIf => ['i', 'f']
  | kwNil => ['n', 'i', 'l']
  | kwOr => ['o', 'r']
  | kwPrint => ['p', 'r', 'i', 'n', 't']
  | kwReturn => ['r', 'e', 't', 'u', 'r', 'n']
  | kwSuper => ['s', 'u', 'p', 'e', 'r']
  | kwThis => ['t', 'h', 'i', 's']
  | kwTrue => ['t', 'r', 'u', 'e']
  | kwVar => ['v', 'a', 'r']
  | kwWhile => ['w', 'h', 'i', 'l', 'e']

/-- The keyword that a word spells, if it is reserved. The order of the table does not matter, since
no two keywords are spelled alike (`text_injective`). -/
def ofText? (word : List Char) : Option Keyword :=
  all.find? (·.text == word)

/-! ## The table read in both directions -/

@[simp] theorem mem_all (k : Keyword) : k ∈ all := by
  cases k <;> decide

theorem text_injective {k l : Keyword} (h : k.text = l.text) : k = l := by
  revert h
  cases k <;> cases l <;> decide

/-- A word is read as a keyword exactly when it is that keyword's spelling. Proofs go by this and by
the lemma behind it, and never through the search, so the table may be in any order. -/
theorem ofText?_eq_some_iff {word : List Char} {k : Keyword} :
    ofText? word = some k ↔ k.text = word := by
  constructor
  · intro h
    simpa using List.find?_some h
  · rintro rfl
    cases k <;> rfl

theorem ofText?_eq_none_iff {word : List Char} :
    ofText? word = none ↔ ∀ k : Keyword, k.text ≠ word := by
  simp [ofText?, List.find?_eq_none, mem_all]

end Keyword

end ScriptLexer
