import ScriptLexer.Proofs.Sink
import ScriptLexer.Session

/-!
# What a session leaves in its sinks

A session over two sinks of any sizes, through any sequence of runs and resets. The bytes of a run
are those of its diagnostics and those of its tokens, and **what the sinks hold, which runs succeed
and what the exit status says all have a closed form in these bytes and the two capacities**
(`session_over_sinks`). A run whose diagnostics do not fit shows no token, so the capacity of one
sink decides what is offered to the other; nothing else joins them.

The invariant is `Has`: each sink holds the first bytes of what it was offered. One step keeps it
(`Has.run`), and so do all of them (`Has.after`).

What is offered to the sink for tokens is the one thing that needs care. A run that stops at its
diagnostics offers nothing there, and whether it stops depends on what all earlier runs have
reported; so `shown` goes over the steps with what was reported before each.
-/

set_option autoImplicit false

namespace ScriptLexer

/-! ## The bytes of a run

What a run would write if there were room for everything. It depends on the text only, and all that
the sinks hold later is made of it.
-/

/-- The diagnostics of a text, one to a line. -/
def diagnosticBytes (source : String) : List UInt8 :=
  Utf8.encodeLines ((scan source).diagnostics.map Diagnostic.render)

/-- The tokens of a text, one to a line. -/
def tokenBytes (source : String) : List UInt8 :=
  Utf8.encodeLines ((scan source).tokens.map Token.render)

/-- Every line has the byte of its line feed, so only no lines are no bytes. -/
@[simp] theorem encodeLines_eq_nil_iff (lines : List String) :
    Utf8.encodeLines lines = [] ↔ lines = [] := by
  cases lines <;> simp

namespace Session

/-! ## One run -/

/-- The run of a text ends at its diagnostics, which do not fit. It is said of the session, by what
its reporter would answer; `stopsAtDiagnostics_iff` says it of bytes. -/
def StopsAtDiagnostics (s : Session) (source : String) : Prop :=
  (s.reporter.emitAll (scan source).diagnostics).2 = .sinkFull

/-- The text has diagnostics, and with them more is reported than fits. Without any diagnostic a
full sink does not matter, since nothing is written to it. -/
def Exceeds (errCapacity : Option Nat) (reported : List UInt8) (source : String) : Prop :=
  diagnosticBytes source ≠ [] ∧ ¬ Sink.Fits errCapacity (reported ++ diagnosticBytes source)

instance (errCapacity : Option Nat) (reported : List UInt8) (source : String) :
    Decidable (Exceeds errCapacity reported source) :=
  inferInstanceAs (Decidable (_ ∧ _))

/-- The sinks have these capacities, and each holds the first bytes of what it was offered. The
capacities are part of it because no step changes them. -/
structure Has (outCapacity errCapacity : Option Nat) (shown reported : List UInt8) (s : Session) :
    Prop where
  out_capacity : s.out.capacity = outCapacity
  err_capacity : s.reporter.sink.capacity = errCapacity
  out : s.out.Holds shown
  err : s.reporter.sink.Holds reported

/-- A run leaves its reporter as reporting the diagnostics does, whether it goes on to the tokens or
not. -/
theorem reporter_run (s : Session) (source : String) :
    (s.run source).1.reporter = (s.reporter.emitAll (scan source).diagnostics).1 := by
  rw [run]
  split <;> rename_i h <;> rw [h]

theorem run_of_stopsAtDiagnostics {s : Session} {source : String}
    (h : s.StopsAtDiagnostics source) :
    (s.run source).1.out = s.out ∧ (s.run source).2 = .sinkFull := by
  rw [StopsAtDiagnostics] at h
  rw [run]
  split
  · exact ⟨rfl, rfl⟩
  · rename_i hok
    rw [hok] at h
    contradiction

theorem run_of_not_stopsAtDiagnostics {s : Session} {source : String}
    (h : ¬ s.StopsAtDiagnostics source) :
    (s.run source).1.out = (s.out.writeLines ((scan source).tokens.map Token.render)).1 ∧
      (s.run source).2 = (s.out.writeLines ((scan source).tokens.map Token.render)).2 := by
  rw [StopsAtDiagnostics] at h
  rw [run]
  split
  · rename_i hfull
    rw [hfull] at h
    exact absurd rfl h
  · exact ⟨rfl, rfl⟩

/-- A run with errors is remembered, also if none of them could be written. -/
theorem hadError_run (s : Session) (source : String) :
    (s.run source).1.reporter.hadError = (s.reporter.hadError || (scan source).hasErrors) := by
  rw [reporter_run, Reporter.emitAll_eq, Scan.hasErrors]

namespace Has

variable {outCapacity errCapacity : Option Nat} {shown reported : List UInt8} {s : Session}

theorem start (outCapacity errCapacity : Option Nat) :
    Has outCapacity errCapacity [] [] (Session.start outCapacity errCapacity) :=
  ⟨rfl, rfl, Sink.holds_empty _, Sink.holds_empty _⟩

theorem stopsAtDiagnostics_iff (h : Has outCapacity errCapacity shown reported s)
    (source : String) : s.StopsAtDiagnostics source ↔ Exceeds errCapacity reported source := by
  have hok := h.err.writeLines_eq_ok_iff ((scan source).diagnostics.map Diagnostic.render)
  rw [← encodeLines_eq_nil_iff, h.err_capacity, ← diagnosticBytes] at hok
  rw [StopsAtDiagnostics, Reporter.emitAll_eq, Exceeds, ← not_or, ← hok]
  cases (s.reporter.sink.writeLines ((scan source).diagnostics.map Diagnostic.render)).2 <;> simp

/-- A run that goes on to the tokens succeeds exactly when they fit too. There is always one. -/
theorem run_eq_ok_iff (h : Has outCapacity errCapacity shown reported s) (source : String) :
    (s.run source).2 = .ok ↔
      ¬ s.StopsAtDiagnostics source ∧ Sink.Fits outCapacity (shown ++ tokenBytes source) := by
  by_cases hstop : s.StopsAtDiagnostics source
  · simp [(run_of_stopsAtDiagnostics hstop).2, hstop]
  · have hok := h.out.writeLines_eq_ok_iff ((scan source).tokens.map Token.render)
    have hne : (scan source).tokens.map Token.render ≠ [] := by simp [tokens_scan]
    rw [or_iff_right hne, h.out_capacity, ← tokenBytes] at hok
    rw [(run_of_not_stopsAtDiagnostics hstop).2, hok, and_iff_right hstop]

/-- One run offers its diagnostics, and its tokens unless the diagnostics are too much. -/
theorem run (h : Has outCapacity errCapacity shown reported s) (source : String) :
    Has outCapacity errCapacity
      (shown ++ if Exceeds errCapacity reported source then [] else tokenBytes source)
      (reported ++ diagnosticBytes source) (s.run source).1 := by
  have herr := h.err.writeLines ((scan source).diagnostics.map Diagnostic.render)
  have hcapacity := Sink.capacity_writeLines s.reporter.sink
    ((scan source).diagnostics.map Diagnostic.render)
  have hsink : (s.run source).1.reporter.sink =
      (s.reporter.sink.writeLines ((scan source).diagnostics.map Diagnostic.render)).1 := by
    rw [reporter_run, Reporter.emitAll_eq]
  rw [← hsink] at herr hcapacity
  rw [← diagnosticBytes] at herr
  -- the diagnostics are offered in any case, the tokens only once all of these were taken
  by_cases hstop : Exceeds errCapacity reported source
  · have hout := (run_of_stopsAtDiagnostics ((h.stopsAtDiagnostics_iff source).mpr hstop)).1
    rw [if_pos hstop, List.append_nil]
    exact ⟨by rw [hout, h.out_capacity], hcapacity.trans h.err_capacity, by rw [hout]; exact h.out,
      herr⟩
  · have hgoes := fun hstops => hstop ((h.stopsAtDiagnostics_iff source).mp hstops)
    have hout := (run_of_not_stopsAtDiagnostics hgoes).1
    have hholds := h.out.writeLines ((scan source).tokens.map Token.render)
    rw [← hout, ← tokenBytes] at hholds
    rw [if_neg hstop]
    exact ⟨by rw [hout, Sink.capacity_writeLines, h.out_capacity], hcapacity.trans h.err_capacity,
      hholds, herr⟩

theorem run_of_unlimited (h : Has outCapacity none shown reported s) (source : String) :
    Has outCapacity none (shown ++ tokenBytes source) (reported ++ diagnosticBytes source)
      (s.run source).1 := by
  have hrun := h.run source
  rwa [if_neg fun hexceeds => hexceeds.2 (Sink.fits_none _)] at hrun

theorem written_of_unlimited (h : Has none none shown reported s) :
    s.out.written.toList = shown ∧ s.reporter.sink.written.toList = reported := by
  have hout := h.out
  have herr := h.err
  rw [Sink.Holds, h.out_capacity] at hout
  rw [Sink.Holds, h.err_capacity] at herr
  exact ⟨hout, herr⟩

end Has

/-! ## All the steps -/

/-- What can be done with a session. -/
inductive Step
  | run (source : String)
  | reset
  deriving DecidableEq, Repr

/-- The session behind a step. The result of a run is not kept; it is a function of the session in
front of it. -/
def step (s : Session) : Step → Session
  | .run source => (s.run source).1
  | .reset => s.reset

def after (s : Session) (steps : List Step) : Session := steps.foldl step s

def Step.diagnosticBytes : Step → List UInt8
  | .run source => ScriptLexer.diagnosticBytes source
  | .reset => []

/-- The diagnostics of all the runs, whether they fitted or not. -/
def reported (steps : List Step) : List UInt8 := steps.flatMap Step.diagnosticBytes

/-- The tokens of the runs whose diagnostics are not too much, behind what was reported before. -/
def shown (errCapacity : Option Nat) (before : List UInt8) : List Step → List UInt8
  | [] => []
  | .run source :: steps =>
    (if Exceeds errCapacity before source then [] else tokenBytes source) ++
      shown errCapacity (before ++ diagnosticBytes source) steps
  | .reset :: steps => shown errCapacity before steps

/-- The invariant through all the steps. A reset changes neither sink. -/
theorem Has.after {outCapacity errCapacity : Option Nat} {seen before : List UInt8} {s : Session}
    (h : Has outCapacity errCapacity seen before s) (steps : List Step) :
    Has outCapacity errCapacity (seen ++ shown errCapacity before steps) (before ++ reported steps)
      (s.after steps) := by
  induction steps generalizing seen before s with
  | nil => simpa [shown, reported, Session.after] using h
  | cons first steps ih =>
    cases first with
    | run source =>
      have hbehind := ih (h.run source)
      rwa [List.append_assoc, List.append_assoc] at hbehind
    | reset =>
      have hreset : Has outCapacity errCapacity seen before s.reset :=
        ⟨h.out_capacity, h.err_capacity, h.out, h.err⟩
      exact ih hreset

/-! ## What is remembered -/

/-- Some run since the last reset found something wrong. It is said of the texts and the order of
the steps, with no session in it. -/
def ErrorSinceReset (steps : List Step) : Prop :=
  ∃ earlier source later, steps = earlier ++ .run source :: later ∧ .reset ∉ later ∧
    (scan source).diagnostics ≠ []

@[simp] theorem errorSinceReset_cons_run (source : String) (steps : List Step) :
    ErrorSinceReset (.run source :: steps) ↔
      (scan source).diagnostics ≠ [] ∧ .reset ∉ steps ∨ ErrorSinceReset steps := by
  constructor
  · rintro ⟨earlier, other, later, hsteps, hlater, hother⟩
    cases earlier with
    | nil =>
      obtain ⟨heq, rfl⟩ := List.cons.inj hsteps
      obtain rfl := Step.run.inj heq
      exact Or.inl ⟨hother, hlater⟩
    | cons first earlier =>
      exact Or.inr ⟨earlier, other, later, (List.cons.inj hsteps).2, hlater, hother⟩
  · rintro (⟨hsource, hsteps⟩ | ⟨earlier, other, later, rfl, hlater, hother⟩)
    · exact ⟨[], source, steps, rfl, hsteps, hsource⟩
    · exact ⟨.run source :: earlier, other, later, rfl, hlater, hother⟩

@[simp] theorem errorSinceReset_cons_reset (steps : List Step) :
    ErrorSinceReset (.reset :: steps) ↔ ErrorSinceReset steps := by
  constructor
  · rintro ⟨earlier, other, later, hsteps, hlater, hother⟩
    cases earlier with
    | nil => exact Step.noConfusion (List.cons.inj hsteps).1
    | cons first earlier =>
      exact ⟨earlier, other, later, (List.cons.inj hsteps).2, hlater, hother⟩
  · rintro ⟨earlier, other, later, rfl, hlater, hother⟩
    exact ⟨.reset :: earlier, other, later, rfl, hlater, hother⟩

/-- What is remembered at the end is an error since the last reset, or, without a reset, an error
that was remembered at the start. -/
theorem hadError_after (s : Session) (steps : List Step) :
    (s.after steps).reporter.hadError = true ↔
      s.reporter.hadError = true ∧ .reset ∉ steps ∨ ErrorSinceReset steps := by
  induction steps generalizing s with
  | nil =>
    have hnone : ¬ ErrorSinceReset [] := by
      rintro ⟨earlier, source, later, hsteps, -⟩
      simp at hsteps
    simp [after, hnone]
  | cons first steps ih =>
    cases first with
    | run source =>
      have hbehind := ih (s.run source).1
      rw [hadError_run, Bool.or_eq_true, Scan.hasErrors_iff, or_and_right, or_assoc] at hbehind
      have hmem : Step.reset ∉ Step.run source :: steps ↔ .reset ∉ steps := by simp
      rw [errorSinceReset_cons_run, hmem]
      exact hbehind
    | reset =>
      have hbehind := ih s.reset
      -- the reset drops what was remembered before, so only the steps behind it can be the reason
      have hforgotten : s.reset.reporter.hadError = false := rfl
      rw [hforgotten] at hbehind
      have hmem : ¬ Step.reset ∉ Step.reset :: steps := by simp
      rw [errorSinceReset_cons_reset, or_iff_right fun hand => hmem hand.2]
      exact hbehind.trans (or_iff_right fun hand => Bool.noConfusion hand.1)

/-- Of a session only two of the four exit codes come. -/
theorem code_exitStatus_eq_iff (s : Session) :
    (s.exitStatus.code = 65 ↔ s.reporter.hadError = true) ∧
      (s.exitStatus.code = 0 ↔ ¬ s.reporter.hadError = true) := by
  rw [exitStatus]
  cases s.reporter.hadError <;> decide

/-- **The sinks, the results and the exit status of a session, through any steps.** A run fails on
its diagnostics exactly when it has some and they exceed what is left of the sink for them, and
then it writes no token. -/
theorem session_over_sinks (outCapacity errCapacity : Option Nat) (steps : List Step) :
    ∃ s, (start outCapacity errCapacity).after steps = s ∧
      s.reporter.sink.written.toList = Sink.kept errCapacity (reported steps) ∧
      s.out.written.toList = Sink.kept outCapacity (shown errCapacity [] steps) ∧
      (s.exitStatus.code = 65 ↔ ErrorSinceReset steps) ∧
      (s.exitStatus.code = 0 ↔ ¬ ErrorSinceReset steps) ∧
      ∀ source,
        (s.StopsAtDiagnostics source ↔ Exceeds errCapacity (reported steps) source) ∧
        (s.StopsAtDiagnostics source →
          (s.run source).2 = .sinkFull ∧ (s.run source).1.out = s.out) ∧
        ((s.run source).2 = .ok ↔ ¬ s.StopsAtDiagnostics source ∧
          Sink.Fits outCapacity (shown errCapacity [] steps ++ tokenBytes source)) := by
  have hhas := (Has.start outCapacity errCapacity).after steps
  rw [List.nil_append, List.nil_append] at hhas
  -- a session that is just started remembers nothing, so only its steps can have had errors
  have hremembered : ((start outCapacity errCapacity).after steps).reporter.hadError = true ↔
      ErrorSinceReset steps :=
    (hadError_after _ steps).trans (or_iff_right fun hand => Bool.noConfusion hand.1)
  obtain ⟨hdataError, hsuccess⟩ :=
    code_exitStatus_eq_iff ((start outCapacity errCapacity).after steps)
  refine ⟨_, rfl, ?_, ?_, hdataError.trans hremembered, hsuccess.trans (not_congr hremembered), ?_⟩
  · rw [hhas.err, hhas.err_capacity]
  · rw [hhas.out, hhas.out_capacity]
  · intro source
    exact ⟨hhas.stopsAtDiagnostics_iff source,
      fun hstop => (run_of_stopsAtDiagnostics hstop).symm, hhas.run_eq_ok_iff source⟩

/-- A fault takes forty-two bytes to report, so of two only the first fits into fifty: a reset
leaves the sinks as they are. -/
theorem session_stops_at_second_fault :
    ((start none (some 50)).after [.run "@", .reset]).StopsAtDiagnostics "@" ∧
      (((start none (some 50)).after [.run "@", .reset]).run "@").2 = .sinkFull ∧
      (((start none (some 50)).after [.run "@", .reset]).run "@").1.out =
        ((start none (some 50)).after [.run "@", .reset]).out := by
  have hstop : ((start none (some 50)).after [.run "@", .reset]).StopsAtDiagnostics "@" := by
    rw [StopsAtDiagnostics]
    decide +kernel
  obtain ⟨s, rfl, -, -, -, -, hrun⟩ := session_over_sinks none (some 50) [.run "@", .reset]
  obtain ⟨-, hstops, -⟩ := hrun "@"
  exact ⟨hstop, hstops hstop⟩

end Session

end ScriptLexer
