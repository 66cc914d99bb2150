import ScriptLexer.Reporter
import ScriptLexer.Scan

/-!
# Sessions

A session scans texts one after another and writes what they come to over two sinks: the
diagnostics to one, the tokens to the other, one to a line.

**Diagnostics go first and tokens depend on them.** A run writes all the diagnostics of a text
before the first token, and when they do not fit it writes no token. Whether a run had errors is
remembered over later runs until it is reset, and it is what the exit status says.

Both ends of the program are sessions: a file is one run, and a prompt is a run and a reset for each
line. Tokens and diagnostics go to sinks of their own, so in what order the two were written is not
to be seen from outside, except where a sink is full.
-/

set_option autoImplicit false

namespace ScriptLexer

/-- How the program can end. The four are kept apart by name and not by number, because a status is
decided in one place and becomes a number in another. -/
inductive ExitStatus
  | success
  /-- The input could not be read on. -/
  | failure
  /-- The arguments were wrong, or named no file that can be read. -/
  | usage
  /-- A text had errors. -/
  | dataError
  deriving DecidableEq, Repr, Inhabited

/-- The number that the system is told. The last two are the customary ones for wrong usage and for
wrong input data. -/
def ExitStatus.code : ExitStatus → Nat
  | success => 0
  | failure => 1
  | usage => 64
  | dataError => 65

/-- A sink for tokens and a reporter for diagnostics. A session holds nothing of the texts that it
has run, so runs have only the sinks and the flag in common. -/
structure Session where
  out : Sink
  reporter : Reporter
  deriving DecidableEq, Repr

namespace Session

/-- A session that has run nothing, over sinks of the given capacities. The two are independent: one
sink may be full while the other takes everything. -/
def start (outCapacity errCapacity : Option Nat) : Session :=
  ⟨Sink.empty outCapacity, Reporter.ofSink (Sink.empty errCapacity)⟩

/-- Scans a text, reports its diagnostics and writes its tokens, up to the first write that does
not fit. The scan is whole before anything is written, so a fault late in a text is reported before
its first token. -/
def run (s : Session) (source : String) : Session × WriteResult :=
  let found := scan source
  match s.reporter.emitAll found.diagnostics with
  | (reporter, .sinkFull) => (⟨s.out, reporter⟩, .sinkFull)
  | (reporter, .ok) =>
    let (out, result) := s.out.writeLines (found.tokens.map Token.render)
    (⟨out, reporter⟩, result)

/-- What the session has come to. That a write failed is not asked here: it is the result of the
run, and a full sink does not make a text wrong. -/
def exitStatus (s : Session) : ExitStatus :=
  if s.reporter.hadError then .dataError else .success

/-- Forgets that there were errors. What has been written stays written. -/
def reset (s : Session) : Session := ⟨s.out, s.reporter.reset⟩

end Session

end ScriptLexer
