import ScriptLexer.Diagnostic
import ScriptLexer.Sink

/-!
# The reporter

A reporter writes diagnostics to a sink and remembers that it was asked to. The memory is of the
attempt: it is set before the write, so a report that the sink has no room for counts as well.
Forgetting (`reset`) is only that; it gives the sink no room back.

The three ways to report differ in what they know of the place: `report` is told it, `error` has
none, and `emit` has it from the diagnostic. All three end in the same write of one line, so what is
shown of `report` holds of them all.
-/

set_option autoImplicit false

namespace ScriptLexer

/-- A sink for diagnostics, and whether any was reported since the last reset. The flag cannot be
read off the sink: a report may leave nothing there, and a reset leaves everything. -/
structure Reporter where
  sink : Sink
  hadError : Bool
  deriving DecidableEq, Repr

namespace Reporter

/-- A reporter over a sink, that has nothing to remember. What the sink already holds does not
matter to it, and is not counted as a report. -/
def ofSink (sink : Sink) : Reporter := ⟨sink, false⟩

/-- Reports a message about a line, with the place that stands behind the word for an error. The
flag is set whatever becomes of the write. -/
def report (r : Reporter) (line : Nat) (place message : String) : Reporter × WriteResult :=
  let (sink, result) := r.sink.writeLine (reportText line place message)
  (⟨sink, true⟩, result)

/-- Reports a message about a line, with no place. -/
def error (r : Reporter) (line : Nat) (message : String) : Reporter × WriteResult :=
  r.report line "" message

/-- Reports a diagnostic, by its line, the place that its origin stands for, and its message. -/
def emit (r : Reporter) (d : Diagnostic) : Reporter × WriteResult :=
  r.report d.line d.origin.place d.message

/-- Reports diagnostics in order, up to the first that the sink has no room for. With no diagnostic
there is no report, so the flag stays as it was. -/
def emitAll (r : Reporter) : List Diagnostic → Reporter × WriteResult
  | [] => (r, .ok)
  | d :: ds =>
    match r.emit d with
    | (after, .ok) => after.emitAll ds
    | (after, .sinkFull) => (after, .sinkFull)

/-- Forgets that anything was reported, and leaves the sink as it is. -/
def reset (r : Reporter) : Reporter := ⟨r.sink, false⟩

/-! ## What a report does -/

/-- A diagnostic is reported as its text and the end of the line: printed and reported it reads the
same. -/
theorem emit_eq (r : Reporter) (d : Diagnostic) :
    r.emit d = (⟨(r.sink.writeLine d.render).1, true⟩, (r.sink.writeLine d.render).2) := rfl

@[simp] theorem hadError_emit (r : Reporter) (d : Diagnostic) : (r.emit d).1.hadError = true := rfl

end Reporter

end ScriptLexer
