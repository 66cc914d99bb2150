import ScriptLexer.Program
import ScriptLexer.Proofs.Lines
import ScriptLexer.Proofs.Piece.OneLine
import ScriptLexer.Proofs.Session

/-!
# A whole run of the prompt

The prompt is a loop over what is left of the input, with a session that goes from one line to the
next. **What a run leaves is put together from the lines up to the first that is not text, each by
itself** (`run_prompt`): every line that is there is answered, an empty one too, and only the end of
the input and such a line end the run.

The invariant is that of a session, `Session.Has`: in one turn the sinks are offered the mark, the
tokens and the diagnostics of one line (`Has.invite`, `Has.answer`). They have no capacity, so all
of it is kept, and what the reset drops was never written.

The lines are given by what they are and not by how they are read (`byteLines`), so the loop is
first brought to have one equation for each way that its next line can be: none, no text, or text.
The induction is then on the texts, and the input goes along with it.
-/

set_option autoImplicit false

namespace ScriptLexer

namespace Prompt

/-- These are lines of text up to the first that is none, and `left` is that line and those behind
it, or nothing. Lines behind the first that is no text are not looked at, whether they are text or
not. -/
structure Reads (lines : List (List UInt8)) (texts : List String) (left : List (List UInt8)) :
    Prop where
  lines_eq : lines = texts.map Utf8.encode ++ left
  undecodable : ∀ line, left.head? = some line → ∀ text, Utf8.encode text ≠ line

/-- What one line of text adds to the output. The mark comes first, as it is written before the line
is read. -/
def turnBytes (text : String) : List UInt8 := Utf8.encode mark ++ tokenBytes (stripLineEnd text)

end Prompt

namespace Session.Has

variable {shown reported : List UInt8} {s : Session}

theorem invite (h : Has none none shown reported s) :
    Has none none (shown ++ Utf8.encode Prompt.mark) reported (Prompt.invite s) :=
  ⟨by rw [Prompt.invite, Sink.capacity_write, h.out_capacity], h.err_capacity, h.out.write _, h.err⟩

/-- An answer is a run. The reset behind it drops the flag, of which the invariant says nothing. -/
theorem answer (h : Has none none shown reported s) (line : String) :
    Has none none (shown ++ tokenBytes (Prompt.stripLineEnd line))
      (reported ++ diagnosticBytes (Prompt.stripLineEnd line)) (Prompt.answer s line) := by
  obtain ⟨hout, herr, hshown, hreported⟩ := h.run_of_unlimited (Prompt.stripLineEnd line)
  exact ⟨hout, herr, hshown, hreported⟩

end Session.Has

namespace Prompt

/-! ## The loop -/

variable {input line : List UInt8} {lines : List (List UInt8)}

theorem respond_nil (s : Session) : respond s [] = .error .endOfInput := rfl

theorem respond_of_undecodable (s : Session) (hne : line ≠ [])
    (hline : ∀ text, Utf8.encode text ≠ line) : respond s line = .error .undecodableLine := by
  rw [respond, if_neg hne, Utf8.decode?_eq_none_iff.mpr hline]

theorem respond_encode (s : Session) {text : String} (hne : Utf8.encode text ≠ []) :
    respond s (Utf8.encode text) = .ok (answer s text) := by
  rw [respond, if_neg hne, Utf8.decode?_eq_some_iff.mpr rfl]

theorem loop_of_respond_eq_error {s : Session} {ending : Ending}
    (h : respond (invite s) (cutLine input).1 = .error ending) :
    loop s input = (invite s, ending) := by
  rw [loop]
  split
  · rename_i other hother
    rw [h] at hother
    rw [Except.error.inj hother]
  · rename_i answered hanswered
    rw [h] at hanswered
    contradiction

theorem loop_of_respond_eq_ok {s answered : Session}
    (h : respond (invite s) (cutLine input).1 = .ok answered) :
    loop s input = loop answered (cutLine input).2 := by
  rw [loop]
  split
  · rename_i ending hending
    rw [h] at hending
    contradiction
  · rename_i other hother
    rw [h] at hother
    rw [Except.ok.inj hother]

theorem loop_of_nil (s : Session) (h : byteLines input = []) :
    loop s input = (invite s, .endOfInput) := by
  obtain rfl := eq_nil_of_byteLines_eq_nil h
  exact loop_of_respond_eq_error (respond_nil (invite s))

theorem loop_of_undecodable (s : Session) (h : byteLines input = line :: lines)
    (hline : ∀ text, Utf8.encode text ≠ line) : loop s input = (invite s, .undecodableLine) := by
  obtain ⟨hfirst, hne, -⟩ := cutLine_of_byteLines_eq_cons h
  refine loop_of_respond_eq_error ?_
  rw [hfirst, respond_of_undecodable _ hne hline]

theorem loop_of_text {text : String} (s : Session)
    (h : byteLines input = Utf8.encode text :: lines) :
    loop s input = loop (answer (invite s) text) (cutLine input).2 := by
  obtain ⟨hfirst, hne, -⟩ := cutLine_of_byteLines_eq_cons h
  refine loop_of_respond_eq_ok ?_
  rw [hfirst, respond_encode _ hne]

/-- The run over lines of text, from any session on. The session is general because the induction
goes on from the one that the first line leaves. -/
theorem has_loop {shown reported : List UInt8} {s : Session} {texts : List String}
    {left : List (List UInt8)} (h : s.Has none none shown reported)
    (hreads : Reads (byteLines input) texts left) :
    (loop s input).1.Has none none (shown ++ (texts.flatMap turnBytes ++ Utf8.encode mark))
        (reported ++ texts.flatMap fun text => diagnosticBytes (stripLineEnd text)) ∧
      (loop s input).2 = if left = [] then .endOfInput else .undecodableLine := by
  induction texts generalizing s shown reported input with
  | nil =>
    -- the mark is written before it is known that there is no line of text
    cases left with
    | nil => simpa [loop_of_nil s hreads.lines_eq] using h.invite
    | cons line lines =>
      have hloop := loop_of_undecodable s hreads.lines_eq (hreads.undecodable line rfl)
      simpa [hloop] using h.invite
  | cons text texts ih =>
    have hlines := hreads.lines_eq
    rw [List.map_cons, List.cons_append] at hlines
    obtain ⟨-, -, hrest⟩ := cutLine_of_byteLines_eq_cons hlines
    obtain ⟨hhas, hending⟩ := ih (h.invite.answer text) ⟨hrest, hreads.undecodable⟩
    rw [loop_of_text s hlines]
    exact ⟨by simpa [turnBytes] using hhas, hending⟩

end Prompt

namespace Program

/-- What the prompt leaves, for its lines of text and for what is left behind them. -/
theorem runPrompt_eq {input : List UInt8} {texts : List String} {left : List (List UInt8)}
    (h : Prompt.Reads (byteLines input) texts left) :
    runPrompt input =
      { status := if left = [] then .success else .failure
        stdout := texts.flatMap Prompt.turnBytes ++ Utf8.encode Prompt.mark
        stderr := (texts.flatMap fun text => diagnosticBytes (Prompt.stripLineEnd text)) ++
          if left = [] then [] else Utf8.encode Prompt.undecodable } := by
  obtain ⟨hhas, hending⟩ := Prompt.has_loop (Session.Has.start none none) h
  obtain ⟨hout, herr⟩ := hhas.written_of_unlimited
  rw [List.nil_append] at hout herr
  rw [runPrompt]
  rcases hloop : Prompt.loop (Session.start none none) input with ⟨session, ending⟩
  rw [hloop] at hout herr hending
  dsimp only at hout herr
  -- what is left over says why the loop ended, and so do the status and the farewell
  by_cases hleft : left = []
  · rw [if_pos hleft] at hending
    obtain rfl : ending = .endOfInput := hending
    simp only [outcomeOf, hout, herr, if_pos hleft]
    rfl
  · rw [if_neg hleft] at hending
    obtain rfl : ending = .undecodableLine := hending
    simp only [outcomeOf, hout, herr, if_neg hleft]
    rfl

end Program

/-- An empty line is answered, and behind a line that is no text nothing is read. -/
example : Program.run [] (fun _ => .error .notFound) (0x0A :: 0xFF :: 0x0A :: Utf8.encode "a") =
    { status := .failure
      stdout := Utf8.encode "> \x7bEOF: ('', line 1), <nil>\x7d\n> "
      stderr := Utf8.encode Prompt.undecodable } := by
  decide +kernel

end ScriptLexer
