import ScriptLexer.Prompt

/-!
# The program

What the program does with its arguments, as a function of what it is given: the arguments, what
reading a file comes to, and the bytes on its standard input. With no argument it is the prompt,
with one it scans that file, and with more it says how it is used. Nothing here is done by effect:
the outcome is all that can be seen of a run, and the command line only brings it about.

A file is decoded with replacement characters, so every file that can be read is scanned. Errors
in it are the exit status's business, and a file that cannot be read is an error of usage. The
prompt is the other way about: it refuses a line that is not text, and no error of a text shows in
how it ends.
-/

set_option autoImplicit false

namespace ScriptLexer

/-- What a run of the program leaves behind: how it ended and the bytes on either output. How the
two outputs were interleaved is not part of it. -/
structure Outcome where
  status : ExitStatus
  stdout : List UInt8
  stderr : List UInt8
  deriving DecidableEq, Repr

/-- Why a file cannot be read, in the system's words and by its number. The program adds nothing to
either, so any reason can be given here and is printed as it is. -/
structure ReadFailure where
  reason : String
  number : Nat
  deriving DecidableEq, Repr

namespace ReadFailure

def notFound : ReadFailure := ⟨"No such file or directory", 2⟩

def isDirectory : ReadFailure := ⟨"Is a directory", 21⟩

/-- The line that is written about a file that cannot be read. -/
def message (failure : ReadFailure) : String :=
  "Could not open target file: " ++ failure.reason ++ " (os error " ++ failure.number.repr ++ ")\n"

end ReadFailure

namespace Program

/-- How the program is used. -/
def usage : String := "Usage: lox-scanner [script]\n"

/-- The text of a file. What is not UTF-8 in it becomes replacement characters, which the scanner
meets like any other character: outside strings and comments it reports them. -/
def sourceText (bytes : List UInt8) : String := Utf8.decodeLossy bytes

/-- What the program leaves behind after a session. The farewell comes behind all the diagnostics,
on the same output, and is not written through the reporter. -/
def outcomeOf (s : Session) (status : ExitStatus) (farewell : String) : Outcome where
  status := status
  stdout := s.out.written.toList
  stderr := s.reporter.sink.written.toList ++ Utf8.encode farewell

/-- The end of a run that was used wrongly. Nothing was scanned, so there are no tokens, not even
the one for the end of a text. -/
def refuse (message : String) : Outcome where
  status := .usage
  stdout := []
  stderr := Utf8.encode message

/-- Scans what the file holds, or says why it holds nothing. The sinks have no limit, so every write
succeeds and the session's result has nothing to add to its exit status. -/
def runFile : Except ReadFailure (List UInt8) → Outcome
  | .error failure => refuse failure.message
  | .ok bytes =>
    let session := ((Session.start none none).run (sourceText bytes)).1
    outcomeOf session session.exitStatus ""

/-- Answers the lines of the input. Errors in them do not count, since the session forgets them
after each line; only a line that is no text makes the run fail. -/
def runPrompt (input : List UInt8) : Outcome :=
  let (session, ending) := Prompt.loop (Session.start none none) input
  outcomeOf session ending.status ending.farewell

/-- What the program does with its arguments. The name of the program is not one of them, and the
files of the system are a function, of which at most one value is asked for. -/
def run (args : List String) (read : String → Except ReadFailure (List UInt8))
    (input : List UInt8) : Outcome :=
  match args with
  | [] => runPrompt input
  | [path] => runFile (read path)
  | _ => refuse usage

end Program

end ScriptLexer
