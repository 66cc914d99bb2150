import ScriptLexer.Reporter

/-!
# Sinks that lines are offered to

What a sink holds depends on what it was offered, in order, and on nothing else: not on how the
offers were cut into writes, and not on the writes that were given up. **Lines that are written up
to the first that does not fit leave a sink as if all of them had been offered**
(`Holds.writeLines`), because a sink that was too small for one line is full. The result says
whether everything offered so far fits (`Holds.writeLines_eq_ok_iff`).

So a loop that stops at the first failure and one that goes on regardless leave the same sink, and
statements about sinks need not follow the control flow of what writes to them.
-/

set_option autoImplicit false

namespace ScriptLexer

/-- The bytes of lines, each with its line feed. That is what writing the lines offers to a sink. -/
def Utf8.encodeLines (lines : List String) : List UInt8 :=
  lines.flatMap fun line => encode (line ++ "\n")

@[simp] theorem Utf8.encodeLines_nil : encodeLines [] = [] := rfl

@[simp] theorem Utf8.encodeLines_cons (line : String) (lines : List String) :
    encodeLines (line :: lines) = encode (line ++ "\n") ++ encodeLines lines := rfl

namespace Sink

/-- All that was offered fits. Without a limit everything does. -/
def Fits (capacity : Option Nat) (offered : List UInt8) : Prop :=
  ∀ n, capacity = some n → offered.length ≤ n

/-- The sink holds the first bytes of what it was offered, as many as it takes. This is the
invariant of everything that writes: what was offered is carried by the proof, since the sink has
forgotten what did not fit. -/
def Holds (s : Sink) (offered : List UInt8) : Prop :=
  s.written.toList = kept s.capacity offered

variable {s : Sink} {capacity : Option Nat} {offered : List UInt8}

theorem Fits.of_append {more : List UInt8} (h : Fits capacity (offered ++ more)) :
    Fits capacity offered := by
  intro n hn
  have hle := h n hn
  rw [List.length_append] at hle
  omega

@[simp] theorem fits_none (offered : List UInt8) : Fits none offered := by
  intro n hn
  contradiction

@[simp] theorem fits_some_iff (n : Nat) : Fits (some n) offered ↔ offered.length ≤ n := by
  constructor
  · intro h
    exact h n rfl
  · rintro h m hm
    exact Option.some.inj hm ▸ h

instance (capacity : Option Nat) (offered : List UInt8) : Decidable (Fits capacity offered) :=
  match capacity with
  | none => .isTrue (fits_none offered)
  | some n => decidable_of_iff _ (fits_some_iff n).symm

/-- A sink that was offered too much is full, and takes nothing of what comes after. -/
theorem kept_append_of_not_fits (h : ¬ Fits capacity offered) (more : List UInt8) :
    kept capacity (offered ++ more) = kept capacity offered := by
  cases capacity with
  | none => exact absurd (fits_none offered) h
  | some n =>
    rw [fits_some_iff] at h
    exact List.take_append_of_le_length (Nat.le_of_not_le h)

@[simp] theorem holds_empty (capacity : Option Nat) : (empty capacity).Holds [] := by
  cases capacity with
  | none => rfl
  | some n => exact List.take_nil.symm

/-- What a full sink holds is also the start of any longer offer, so bytes that were never written
may be counted as offered. -/
theorem Holds.append_of_not_fits (h : s.Holds offered) (hfull : ¬ Fits s.capacity offered)
    (more : List UInt8) : s.Holds (offered ++ more) := by
  rw [Holds, kept_append_of_not_fits hfull]
  exact h

theorem Holds.write (h : s.Holds offered) (bytes : List UInt8) :
    (s.write bytes).1.Holds (offered ++ bytes) := written_write_of_kept h bytes

/-! ## Lines -/

/-- A line has at least the byte of its line feed. So a line is never a write of no bytes, which
would succeed at a full sink. -/
theorem encode_line_ne_nil (line : String) : Utf8.encode (line ++ "\n") ≠ [] := by simp

theorem Holds.writeLine_eq_ok_iff (h : s.Holds offered) (line : String) :
    (s.writeLine line).2 = .ok ↔ Fits s.capacity (offered ++ Utf8.encode (line ++ "\n")) := by
  rw [writeLine, write_eq_ok_iff_of_kept h, or_iff_right (encode_line_ne_nil line)]
  rfl

theorem writeLines_cons_of_ok {line : String} (h : (s.writeLine line).2 = .ok)
    (lines : List String) :
    s.writeLines (line :: lines) = (s.writeLine line).1.writeLines lines := by
  rw [writeLines]
  split
  · rename_i hline
    rw [hline]
  · rename_i hline
    rw [hline] at h
    contradiction

/-- Behind a line that does not fit nothing is written. The equation is stated with the result that
is not `ok`, so that `by_cases` on success gives the two equations. -/
theorem writeLines_cons_of_ne_ok {line : String} (h : (s.writeLine line).2 ≠ .ok)
    (lines : List String) : s.writeLines (line :: lines) = s.writeLine line := by
  rw [writeLines]
  split
  · rename_i hline
    rw [hline] at h
    exact absurd rfl h
  · rename_i hline
    exact hline.symm

@[simp] theorem capacity_writeLines (s : Sink) (lines : List String) :
    (s.writeLines lines).1.capacity = s.capacity := by
  induction lines generalizing s with
  | nil => rfl
  | cons line lines ih =>
    by_cases hline : (s.writeLine line).2 = .ok
    · rw [writeLines_cons_of_ok hline, ih, writeLine, capacity_write]
    · rw [writeLines_cons_of_ne_ok hline, writeLine, capacity_write]

/-- Writing lines leaves what offering all of them leaves, also when some of them were never
written. -/
theorem Holds.writeLines (h : s.Holds offered) (lines : List String) :
    (s.writeLines lines).1.Holds (offered ++ Utf8.encodeLines lines) := by
  induction lines generalizing s offered with
  | nil => simpa [Sink.writeLines] using h
  | cons line lines ih =>
    have hholds := h.write (Utf8.encode (line ++ "\n"))
    rw [← writeLine] at hholds
    rw [Utf8.encodeLines_cons, ← List.append_assoc]
    by_cases hline : (s.writeLine line).2 = .ok
    · rw [writeLines_cons_of_ok hline]
      exact ih hholds
    · rw [writeLines_cons_of_ne_ok hline]
      exact hholds.append_of_not_fits (mt (h.writeLine_eq_ok_iff line).mpr hline) _

/-- Writing lines succeeds exactly when there are none or everything offered so far fits. -/
theorem Holds.writeLines_eq_ok_iff (h : s.Holds offered) (lines : List String) :
    (s.writeLines lines).2 = .ok ↔
      lines = [] ∨ Fits s.capacity (offered ++ Utf8.encodeLines lines) := by
  induction lines generalizing s offered with
  | nil => simp [Sink.writeLines]
  | cons line lines ih =>
    have hholds := h.write (Utf8.encode (line ++ "\n"))
    have hok := h.writeLine_eq_ok_iff line
    rw [← writeLine] at hholds
    rw [Utf8.encodeLines_cons, ← List.append_assoc, or_iff_right (List.cons_ne_nil _ _)]
    by_cases hline : (s.writeLine line).2 = .ok
    · rw [writeLines_cons_of_ok hline, ih hholds, writeLine, capacity_write, or_iff_right_of_imp]
      -- without further lines, that the first one fits is all there is to say
      rintro rfl
      simpa using hok.mp hline
    · rw [writeLines_cons_of_ne_ok hline]
      exact iff_of_false hline fun hall => hline (hok.mpr hall.of_append)

end Sink

/-! ## Diagnostics -/

/-- Diagnostics are reported as lines, and any at all are remembered. With this a reporter is a sink
that lines are written to, and the flag is computed beside it. -/
theorem Reporter.emitAll_eq (r : Reporter) (ds : List Diagnostic) :
    r.emitAll ds =
      (⟨(r.sink.writeLines (ds.map Diagnostic.render)).1, r.hadError || !ds.isEmpty⟩,
        (r.sink.writeLines (ds.map Diagnostic.render)).2) := by
  induction ds generalizing r with
  | nil => simp [emitAll, Sink.writeLines]
  | cons d ds ih =>
    rw [emitAll, emit_eq, List.map_cons, Sink.writeLines]
    cases h : r.sink.writeLine d.render with
    | mk after result =>
      cases result with
      | ok => simp [ih]
      | sinkFull => simp

end ScriptLexer
