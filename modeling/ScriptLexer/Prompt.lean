import ScriptLexer.Session

/-!
# The prompt

Reads lines and answers each by what it scans to. One session runs through all the lines, and it
is reset after each, so nothing is left of a line but what was written.

The prompt works on bytes, because that is what a line is before it is known to be text. A line
that is not UTF-8 ends the prompt: unlike a file, which is scanned with replacement characters in
it, a line is refused (`loop`).

A line is read with its end. What is scanned is the line without it (`stripLineEnd`), and an empty
line is not the end of the input, which has no line at all.

What the prompt does with one line is a function of its own (`respond`), apart from where the line
comes from. `loop` takes the lines from bytes that are all there; the command line waits for them.
Both are turns of the same two steps, `invite` and `respond`, and nothing else happens to a session.
-/

set_option autoImplicit false

namespace ScriptLexer

namespace Prompt

/-- What stands on the output where a line is waited for. It has no line feed, so what is typed
stands behind it. -/
def mark : String := "> "

/-- What is said about a line that is not UTF-8. The words are the system's for an error of input:
the line is not reported as a diagnostic, since it never was a text. -/
def undecodable : String :=
  "Error: Error \x7b kind: InvalidData, message: \"stream did not contain valid UTF-8\" \x7d\n"

/-- A character that ends a line or stands before one that does. The carriage return is one by
itself too, although it ends no line for the scanner. -/
def isLineEnd (c : Char) : Bool := c == '\n' || c == '\r'

/-- A line without its end: every line feed and carriage return that it ends in is dropped, not only
the last pair. What is dropped would have meant nothing but the line of the end. -/
def stripLineEnd (line : String) : String :=
  String.ofList (line.toList.reverse.dropWhile isLineEnd).reverse

/-- The first line of the input with its line feed, and the input behind it. The last line may
have no line feed, and there is an empty one only at the end of the input. -/
def cutLine (input : List UInt8) : List UInt8 × List UInt8 :=
  match input.dropWhile (· != 0x0A) with
  | [] => (input, [])
  | lineFeed :: rest => (input.takeWhile (· != 0x0A) ++ [lineFeed], rest)

/-- Writes the mark. Where the output has no room for it nothing comes of that: the session has no
flag for it, and the line is waited for all the same. -/
def invite (s : Session) : Session := { s with out := (s.out.write (Utf8.encode mark)).1 }

/-- Answers one line. What it leaves of the session is what was written, and nothing else: neither
an open string nor an error of this line is known to the next. -/
def answer (s : Session) (line : String) : Session := (s.run (stripLineEnd line)).1.reset

/-- How a prompt ended: at the end of the input, or at a line that is not UTF-8. A line with errors
is no end, and a prompt never ends for what a text says. -/
inductive Ending
  | endOfInput
  | undecodableLine
  deriving DecidableEq, Repr, Inhabited

namespace Ending

/-- The exit status. Errors in lines were forgotten line by line, so they have no part in it. -/
def status : Ending → ExitStatus
  | endOfInput => .success
  | undecodableLine => .failure

/-- The last thing that is said. The end of the input is nobody's fault and nothing is said of it.
-/
def farewell : Ending → String
  | endOfInput => ""
  | undecodableLine => undecodable

end Ending

/-- What a session that has invited does with the line that comes: answers it, or ends. It is given
the line and not the input, because at a terminal the input behind the line is not there yet; so the
loop below and the one that reads a terminal can both be made of it. -/
def respond (invited : Session) (line : List UInt8) : Except Ending Session :=
  if line = [] then .error .endOfInput
  else
    match Utf8.decode? line with
    | none => .error .undecodableLine
    | some text => .ok (answer invited text)

/-- A line that is answered is not empty: there was something to read. -/
theorem ne_nil_of_respond_eq_ok {invited answered : Session} {line : List UInt8}
    (h : respond invited line = .ok answered) : line ≠ [] := by
  rintro rfl
  contradiction

theorem cutLine_append (input : List UInt8) :
    (cutLine input).1 ++ (cutLine input).2 = input := by
  have h := List.takeWhile_append_dropWhile (p := (· != (0x0A : UInt8))) (l := input)
  unfold cutLine
  split
  · simp
  · rename_i lineFeed rest hd
    rw [hd] at h
    simpa using h

/-- A line that is not empty leaves less input. With `ne_nil_of_respond_eq_ok` it is why the loop
ends: it goes on only behind a line that was answered. -/
theorem length_cutLine_lt {input : List UInt8} (h : (cutLine input).1 ≠ []) :
    (cutLine input).2.length < input.length := by
  have hlen := congrArg List.length (cutLine_append input)
  have hpos := List.length_pos_iff.mpr h
  simp only [List.length_append] at hlen
  omega

/-- Invites and answers line after line. The session that is left is the one that invited last:
there is an invitation in front of the end of the input as well. -/
def loop (s : Session) (input : List UInt8) : Session × Ending :=
  match _ : respond (invite s) (cutLine input).1 with
  | .error ending => (invite s, ending)
  | .ok answered => loop answered (cutLine input).2
termination_by input.length
decreasing_by exact length_cutLine_lt (ne_nil_of_respond_eq_ok ‹_›)

end Prompt

end ScriptLexer
