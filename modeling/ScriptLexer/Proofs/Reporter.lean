import ScriptLexer.Proofs.Sink
import Mathlib.Data.List.Induction

/-!
# What a reporter leaves in its sink

A reporter over a sink of any size, through any sequence of its steps. Whichever way a diagnostic
comes in, it comes to one line, and **a step does to the sink what writing its lines does, and says
what that says** (`sink_take`). So the sink holds the first bytes of all the lines that the steps
were given, and a step succeeds exactly when it was given none or all of them so far fit
(`reporter_over_sink`).

What is remembered is apart from all that: a line that does not fit was attempted too, and a sink
that is full does not keep a reset from forgetting (`hadError_take`).

Inductions here take the last step off and not the first. What is remembered is decided at the end
of a run, by the steps since the last reset, and the sink's invariant goes either way.
-/

set_option autoImplicit false

namespace ScriptLexer

@[simp] theorem Utf8.encodeLines_append (lines more : List String) :
    encodeLines (lines ++ more) = encodeLines lines ++ encodeLines more := List.flatMap_append

/-- One line is lines, so that reporting one diagnostic and reporting several are one case. -/
theorem Sink.writeLines_singleton (s : Sink) (line : String) :
    s.writeLines [line] = s.writeLine line := by
  rw [writeLines]
  split
  · rename_i hline
    rw [hline, writeLines]
  · rename_i hline
    rw [hline]

namespace Reporter

/-- What a reporter can be asked for. -/
inductive Step
  | report (line : Nat) (place message : String)
  | error (line : Nat) (message : String)
  | emit (d : Diagnostic)
  | emitAll (ds : List Diagnostic)
  | reset
  deriving DecidableEq, Repr

/-- The reporter behind a step, and how the step ended. A reset writes nothing and cannot fail. -/
def take (r : Reporter) : Step → Reporter × WriteResult
  | .report line place message => r.report line place message
  | .error line message => r.error line message
  | .emit d => r.emit d
  | .emitAll ds => r.emitAll ds
  | .reset => (r.reset, .ok)

/-- The reporter behind all the steps. It goes on whatever the results are. -/
def after (r : Reporter) (steps : List Step) : Reporter :=
  steps.foldl (fun r step => (r.take step).1) r

/-- The lines that a step is given to write, with those that it gives up when one does not fit. -/
def Step.lines : Step → List String
  | .report line place message => [reportText line place message]
  | .error line message => [reportText line "" message]
  | .emit d => [d.render]
  | .emitAll ds => ds.map Diagnostic.render
  | .reset => []

/-- The bytes of all the lines that the steps are given. -/
def given (steps : List Step) : List UInt8 := Utf8.encodeLines (steps.flatMap Step.lines)

@[simp] theorem after_concat (r : Reporter) (steps : List Step) (step : Step) :
    r.after (steps ++ [step]) = ((r.after steps).take step).1 := by
  rw [after, List.foldl_append]
  rfl

@[simp] theorem after_nil (r : Reporter) : r.after [] = r := rfl

@[simp] theorem given_nil : given [] = [] := rfl

@[simp] theorem given_concat (steps : List Step) (step : Step) :
    given (steps ++ [step]) = given steps ++ Utf8.encodeLines step.lines := by
  rw [given, List.flatMap_append, Utf8.encodeLines_append, List.flatMap_singleton, ← given]

/-! ## One step -/

/-- To the sink a step is the writing of its lines. This is the step lemma: the four ways to report
and the reset differ in the lines only. -/
theorem sink_take (r : Reporter) (step : Step) :
    (r.take step).1.sink = (r.sink.writeLines step.lines).1 ∧
      (r.take step).2 = (r.sink.writeLines step.lines).2 := by
  cases step with
  | report => exact Sink.writeLines_singleton .. ▸ ⟨rfl, rfl⟩
  | error => exact Sink.writeLines_singleton .. ▸ ⟨rfl, rfl⟩
  | emit d => exact Sink.writeLines_singleton .. ▸ ⟨rfl, rfl⟩
  | emitAll ds =>
    rw [take, emitAll_eq]
    exact ⟨rfl, rfl⟩
  | reset => exact ⟨rfl, rfl⟩

/-- A step with a line to write is remembered, and a reset forgets. Of several lines the first at
least is attempted. -/
theorem hadError_take (r : Reporter) (step : Step) :
    (r.take step).1.hadError = true ↔
      step.lines ≠ [] ∨ step ≠ .reset ∧ r.hadError = true := by
  cases step with
  | emitAll ds =>
    rw [take, emitAll_eq]
    cases ds <;> simp [Step.lines]
  | reset => simp [take, reset, Step.lines]
  | _ => simp [take, report, error, emit, Step.lines]

@[simp] theorem capacity_take (r : Reporter) (step : Step) :
    (r.take step).1.sink.capacity = r.sink.capacity := by
  rw [(sink_take r step).1, Sink.capacity_writeLines]

/-! ## All the steps -/

variable {r : Reporter} {offered : List UInt8}

@[simp] theorem capacity_after (r : Reporter) (steps : List Step) :
    (r.after steps).sink.capacity = r.sink.capacity := by
  induction steps using List.reverseRecOn with
  | nil => simp
  | append_singleton steps step ih => simp [ih]

/-- The invariant through all the steps: the sink holds the first bytes of all the lines. -/
theorem holds_after (h : r.sink.Holds offered) (steps : List Step) :
    (r.after steps).sink.Holds (offered ++ given steps) := by
  induction steps using List.reverseRecOn with
  | nil => simpa using h
  | append_singleton steps step ih =>
    rw [after_concat, (sink_take _ step).1, given_concat, ← List.append_assoc]
    exact ih.writeLines step.lines

/-- Some step since the last reset had a line to write. Whether the line was written is not asked.
-/
def AttemptedSinceReset (steps : List Step) : Prop :=
  ∃ earlier step later, steps = earlier ++ step :: later ∧ step.lines ≠ [] ∧ .reset ∉ later

/-- What is remembered by its last step, in the same form as `hadError_take`, with which it makes
the induction. -/
theorem attemptedSinceReset_concat (steps : List Step) (last : Step) :
    AttemptedSinceReset (steps ++ [last]) ↔
      last.lines ≠ [] ∨ last ≠ .reset ∧ AttemptedSinceReset steps := by
  constructor
  · rintro ⟨earlier, step, later, hsteps, hlines, hlater⟩
    -- the last step is the one that had a line, or it is behind that one and no reset
    rcases later.eq_nil_or_concat with rfl | ⟨later, final, rfl⟩
    · obtain ⟨-, heq⟩ := List.append_inj' hsteps rfl
      obtain rfl := (List.cons.inj heq).1
      exact Or.inl hlines
    · rw [List.concat_eq_append] at hsteps hlater
      rw [← List.cons_append, ← List.append_assoc] at hsteps
      obtain ⟨rfl, heq⟩ := List.append_inj' hsteps rfl
      obtain rfl := (List.cons.inj heq).1
      rw [List.mem_append, not_or, List.mem_singleton] at hlater
      exact Or.inr ⟨Ne.symm hlater.2, earlier, step, later, rfl, hlines, hlater.1⟩
  · rintro (hlines | ⟨hlast, earlier, step, later, rfl, hlines, hlater⟩)
    · exact ⟨steps, last, [], rfl, hlines, List.not_mem_nil⟩
    · refine ⟨earlier, step, later ++ [last], by simp, hlines, ?_⟩
      rw [List.mem_append, not_or, List.mem_singleton]
      exact ⟨hlater, Ne.symm hlast⟩

/-- A reporter that has nothing to remember yet remembers the lines since the last reset. -/
theorem hadError_after (h : r.hadError = false) (steps : List Step) :
    (r.after steps).hadError = true ↔ AttemptedSinceReset steps := by
  induction steps using List.reverseRecOn with
  | nil =>
    have hnone : ¬ AttemptedSinceReset [] := by
      rintro ⟨earlier, step, later, hsteps, -⟩
      simp at hsteps
    simp [h, hnone]
  | append_singleton steps step ih =>
    rw [after_concat, hadError_take, ih, attemptedSinceReset_concat]

/-- **The sink, the results and the memory of a reporter, through any steps.** A diagnostic is
written as it is shown, with a line feed behind it. A step that has nothing to write never fails,
and neither does a reset, whether the sink is full or not. -/
theorem reporter_over_sink (capacity : Option Nat) (steps : List Step) :
    ∃ r, (ofSink (Sink.empty capacity)).after steps = r ∧
      r.sink.written.toList = Sink.kept capacity (given steps) ∧
      (r.hadError = true ↔ AttemptedSinceReset steps) ∧
      (∀ step, (r.take step).2 = .ok ↔
        step.lines = [] ∨ Sink.Fits capacity (given (steps ++ [step]))) ∧
      (∀ d : Diagnostic,
        (r.emit d).1.sink = (r.sink.write (Utf8.encode (d.render ++ "\n"))).1 ∧
        (r.emit d).2 = (r.sink.write (Utf8.encode (d.render ++ "\n"))).2) ∧
      r.take (.emitAll []) = (r, .ok) ∧ r.take .reset = (⟨r.sink, false⟩, .ok) := by
  have hcapacity := capacity_after (ofSink (Sink.empty capacity)) steps
  have hholds := holds_after (r := ofSink (Sink.empty capacity)) (Sink.holds_empty capacity) steps
  rw [List.nil_append] at hholds
  refine ⟨_, rfl, ?_, hadError_after rfl steps, ?_, fun d => ⟨rfl, rfl⟩, rfl, rfl⟩
  · rw [hholds, hcapacity]
    rfl
  · intro step
    rw [(sink_take _ step).2, hholds.writeLines_eq_ok_iff, hcapacity, given_concat]
    rfl

/-- Of two lines the second does not fit any more. It is remembered all the same, though a reset
came between, and behind it only a step without lines succeeds. -/
theorem reporter_remembers_what_does_not_fit :
    ∃ r, (ofSink (Sink.empty (some 40))).after
        [.error 1 "Unterminated string.", .reset, .emit ⟨.internal, 2, "'1' was cut."⟩] = r ∧
      r.sink.written.size = 40 ∧ r.hadError = true ∧
      (r.take (.emitAll [⟨.lexical, 3, "Unterminated string."⟩])).2 ≠ .ok ∧
      r.take (.emitAll []) = (r, .ok) := by
  obtain ⟨r, hr, hwritten, hremembered, hok, -, hnone, -⟩ := reporter_over_sink (some 40)
    [.error 1 "Unterminated string.", .reset, .emit ⟨.internal, 2, "'1' was cut."⟩]
  refine ⟨r, hr, ?_, hremembered.mpr ⟨[_, _], _, [], rfl, ?_, List.not_mem_nil⟩, ?_, hnone⟩
  · rw [← Array.length_toList, hwritten]
    decide +kernel
  · exact List.cons_ne_nil _ _
  · rw [ne_eq, hok]
    decide +kernel

end Reporter

end ScriptLexer
