import ScriptLexer.Program

/-!
# The command line

The outermost layer: it fetches arguments, files and lines, and writes what the library answers.
What is answered, and with which exit status, is decided in `Program.lean` and `Prompt.lean`.

The prompt is driven line by line here, and not through `Program.runPrompt`, because a line has
to be answered before the next one is there to be read. The turns are those of `Prompt.loop`:
`Prompt.invite` and `Prompt.respond` are called on the same sessions in the same order, and a
session is only read here, never changed. So what is written piece by piece is what the session of
`Prompt.loop` holds in the end.
-/

set_option autoImplicit false

namespace ScriptLexer

namespace CommandLine

/-- The system's number for an error, which arrives with either sign. -/
def errorNumber (code : UInt32) : Nat :=
  if code < 0x80000000 then code.toNat else (0 - code).toNat

/-- The reason for an error in the words and with the number that are printed. The system gives the
reason in small letters. An error that carries no number of its own gets zero. -/
def readFailure : IO.Error → ReadFailure
  | .noFileOrDirectory _ code reason => ⟨reason.capitalize, errorNumber code⟩
  | .inappropriateType _ code reason => ⟨reason.capitalize, errorNumber code⟩
  | .permissionDenied _ code reason => ⟨reason.capitalize, errorNumber code⟩
  | .invalidArgument _ code reason => ⟨reason.capitalize, errorNumber code⟩
  | .resourceExhausted _ code reason => ⟨reason.capitalize, errorNumber code⟩
  | .hardwareFault code reason => ⟨reason.capitalize, errorNumber code⟩
  | other => ⟨toString other, 0⟩

/-- The bytes of a file, or why there are none. -/
def readFile (path : String) : IO (Except ReadFailure (List UInt8)) := do
  match ← (IO.FS.readBinFile path).toBaseIO with
  | .ok bytes => return .ok bytes.toList
  | .error e => return .error (readFailure e)

/-- Writes bytes and waits until they are out, so that the order on the two outputs is the order in
which they were written. -/
def write (stream : IO.FS.Stream) (bytes : List UInt8) : IO Unit := do
  stream.write ⟨bytes.toArray⟩
  stream.flush

/-- The bytes up to a line feed and with it, or up to the end of the input. They are taken one
by one, since a line at a terminal is not followed by anything yet. -/
def readLine (input : IO.FS.Stream) : IO (List UInt8) := do
  let mut line := #[]
  repeat
    let taken ← input.read 1
    line := line ++ taken.data
    if taken.isEmpty || taken.data == #[0x0A] then break
  return line.toList

/-- Writes what an outcome holds, and passes its exit code on. -/
def deliver (outcome : Outcome) : IO UInt32 := do
  write (← IO.getStderr) outcome.stderr
  write (← IO.getStdout) outcome.stdout
  return outcome.status.code.toUInt32

/-- Writes what a session holds behind what has been written of it before, and counts it as
written. -/
def release (session : Session) (written : Nat × Nat) : IO (Nat × Nat) := do
  write (← IO.getStderr) (session.reporter.sink.since written.1)
  write (← IO.getStdout) (session.out.since written.2)
  return (session.reporter.sink.written.size, session.out.written.size)

/-- The turns of `Prompt.loop`, with what is written taken out of the session before a line is
waited for: whoever types it has to see the invitation and the last answer first. -/
def prompt : IO UInt32 := do
  let input ← IO.getStdin
  let mut session := Session.start none none
  let mut written := (0, 0)
  repeat
    let invited := Prompt.invite session
    written ← release invited written
    match Prompt.respond invited (← readLine input) with
    | .ok answered => session := answered
    | .error ending =>
      write (← IO.getStderr) (Utf8.encode ending.farewell)
      return ending.status.code.toUInt32
  return ExitStatus.success.code.toUInt32

/-- Does what the arguments ask for. -/
def run : List String → IO UInt32
  | [] => prompt
  | [path] => do deliver (Program.runFile (← readFile path))
  | _ => deliver (Program.refuse Program.usage)

end CommandLine

end ScriptLexer

def main (args : List String) : IO UInt32 := ScriptLexer.CommandLine.run args
