/-!
# Faults and diagnostics

What can be wrong with a source text, as causes (`Fault`), and the record that is reported of it
(`Diagnostic`). The wording of every message is in `Fault.message` and the layout of every report
in `reportText`; nothing else in the library spells either.

A cause is a case with its data, and a diagnostic is text. Both are there because they serve two
readers: whoever proves something about faults wants to split on the cause, and whoever reads a
report has the message only. The message of a cause is decided here, so a proof can go from one to
the other.
-/

set_option autoImplicit false

namespace ScriptLexer

/-- Where a diagnostic comes from: from the source text, or from a contradiction within the
scanner. An internal one says that the scanner is wrong and not the text. -/
inductive Origin
  | lexical
  | internal
  deriving DecidableEq, Repr, Inhabited

/-- What a report puts behind the word for an error. A fault of the text is the usual case and is
not remarked on. -/
def Origin.place : Origin → String
  | .lexical => ""
  | .internal => " (internal)"

/-- The text of a report: the line, the word for an error with the place behind it, and the
message. The place is given as text, since not everything that is reported has an `Origin`. -/
def reportText (line : Nat) (place message : String) : String :=
  "[line " ++ line.repr ++ "] Error" ++ place ++ ": " ++ message

/-- A message about one line of the source. The line is kept apart from the message, so that a
diagnostic can be moved to another line without its text being taken to pieces. -/
structure Diagnostic where
  origin : Origin
  line : Nat
  message : String
  deriving DecidableEq, Repr

def Diagnostic.render (d : Diagnostic) : String :=
  reportText d.line d.origin.place d.message

/-! ## Causes -/

/-- Something wrong with a piece of the source. Each cause holds what its message needs, and not
where it was: the line is added when it is reported (`onLine`). -/
inductive Fault
  | unexpectedCharacter (c : Char)
  | unterminatedString
  /-- A number that was cut out as one and then could not be read. It never comes to that, and the
  cause is here because what cuts and what reads are two procedures that could disagree. -/
  | unreadableNumber (lexeme : String)
  deriving DecidableEq, Repr

namespace Fault

def origin : Fault → Origin
  | unexpectedCharacter _ => .lexical
  | unterminatedString => .lexical
  | unreadableNumber _ => .internal

def message : Fault → String
  | unexpectedCharacter c => "Unexpected character '" ++ c.toString ++ "'."
  | unterminatedString => "Unterminated string."
  | unreadableNumber lexeme =>
    "'" ++ lexeme ++ "' was scanned as a number but is not a valid float."

def onLine (fault : Fault) (line : Nat) : Diagnostic where
  origin := fault.origin
  line := line
  message := fault.message

end Fault

end ScriptLexer
