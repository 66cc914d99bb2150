import ScriptLexer.Proofs.Prompt
import ScriptLexer.Proofs.Spacing

/-!
# A file and its lines at the prompt

A file is scanned with its line breaks and carriage returns in it, and at the prompt each line is
scanned without its end, by itself. **Where no string is left open in a line, the scan of the file
is the scans of its lines, set down where the lines are** (`run_file_by_line`). What the prompt
drops of a line is its line feed, which parts what is on both sides of it
(`Piece.itemsOn_split_append_newline`), and blanks in front of it, which mean nothing
(`Piece.itemsOn_split_append_blanks`).

The condition is asked of the lines, each by itself, since that is what can be seen at the prompt. A
string over two lines of the file is open in the first of them, and open again in the second from
its closing quote on, so the scans would have little to do with each other.
-/

set_option autoImplicit false

namespace ScriptLexer

/-! ## The items of a file by its lines -/

namespace Piece

/-- Without its end a line means what it means with it, and no string is open in either. -/
theorem itemsOn_split_stripLineEnd {body : List Char} (hbody : '\n' ∉ body)
    (hopen : ∀ contents,
      openString contents ∉ split (Prompt.stripLineEnd (String.ofList body)).toList) (line : Nat) :
    (∀ contents, openString contents ∉ split body) ∧
      itemsOn line (split body) =
        itemsOn line (split (Prompt.stripLineEnd (String.ofList body)).toList) := by
  obtain ⟨blanks, happend, hblanks⟩ := Prompt.exists_stripLineEnd_append hbody
  have h := itemsOn_split_append_blanks hopen hblanks line
  rwa [happend] at h

/-- A text means what its lines mean, each on its own line. The induction is on the lines and not on
the pieces: a line feed is put back behind a line, and the text in front of it cannot go on with it.
-/
theorem itemsOn_split_lines {source : String}
    (hopen : ∀ line ∈ textLines source, ∀ contents,
      openString contents ∉ split (Prompt.stripLineEnd line).toList) (n : Nat) :
    itemsOn n (split source.toList) =
      ((textLines source).zipIdx n).flatMap fun p =>
        itemsOn p.2 (split (Prompt.stripLineEnd p.1).toList) := by
  obtain ⟨chars, rfl⟩ : ∃ chars, String.ofList chars = source := ⟨_, String.ofList_toList⟩
  rw [textLines, String.toList_ofList] at hopen ⊢
  induction chars using cutBehind_induction '\n' generalizing n with
  | nil => simp
  | last line hne hline =>
    rw [cutBehind_of_not_mem hne hline] at hopen ⊢
    have hclosed := hopen _ (List.mem_singleton_self _)
    rw [(itemsOn_split_stripLineEnd hline hclosed n).2]
    exact (List.append_nil _).symm
  | cons body rest hbody ih =>
    rw [cutBehind_append_cons hbody, List.map_cons] at hopen ⊢
    obtain ⟨hfirst, hbehind⟩ := List.forall_mem_cons.mp hopen
    have hstripped : ∀ contents,
        openString contents ∉ split (Prompt.stripLineEnd (String.ofList body)).toList := by
      simpa using hfirst
    -- the body is put to its items by itself, so that the line feed behind it can be split off
    obtain ⟨hclosed, hitems⟩ := itemsOn_split_stripLineEnd hbody hstripped n
    have hnone : newlines body = 0 := List.count_eq_zero.mpr hbody
    simp [itemsOn_split_append_newline hclosed, hitems, hnone, ih _ hbehind]

end Piece

/-- The tokens of the lines of a text, each line scanned by itself and set down where it is, without
the token for its end. -/
def tokensByLine (source : String) : List Token :=
  ((textLines source).zipIdx 1).flatMap fun (line, n) =>
    (scan (Prompt.stripLineEnd line)).tokens.dropLast.map (Token.onLine n)

/-- The diagnostics of the lines of a text, each line scanned by itself and set down where it is. -/
def diagnosticsByLine (source : String) : List Diagnostic :=
  ((textLines source).zipIdx 1).flatMap fun (line, n) =>
    (scan (Prompt.stripLineEnd line)).diagnostics.map (Diagnostic.onLine n)

/-- No string is left open in a line. It is said by the diagnostics of the line, as whoever types it
would see them. -/
def ClosesStrings (source : String) : Prop :=
  ∀ line ∈ textLines source, ∀ d ∈ (scan (Prompt.stripLineEnd line)).diagnostics,
    d.message ≠ "Unterminated string."

/-- The scan of a text by its lines. The token for the end is left over: the lines have one each,
which is dropped, and the text has its own. -/
theorem scan_eq_by_line {source : String} (h : ClosesStrings source) :
    scan source =
      ⟨tokensByLine source ++ [Token.endOfFile (1 + newlines source.toList)],
        diagnosticsByLine source⟩ := by
  have hopen : ∀ line ∈ textLines source, ∀ contents,
      Piece.openString contents ∉ Piece.split (Prompt.stripLineEnd line).toList :=
    fun line hline => openString_not_mem_split (h line hline)
  have hline : ∀ p ∈ (textLines source).zipIdx 1, '\n' ∉ (Prompt.stripLineEnd p.1).toList :=
    fun p hp => Prompt.lineFeed_not_mem_stripLineEnd (List.fst_mem_of_mem_zipIdx hp)
  -- each line is on line one when it is scanned alone, and on its own line in the text
  have htokens : tokensByLine source =
      (Piece.itemsOn 1 (Piece.split source.toList)).filterMap Item.token? := by
    rw [Piece.itemsOn_split_lines hopen, List.filterMap_flatMap]
    exact List.flatMap_congr fun p hp =>
      (filterMap_itemsOn_of_lineFeed_not_mem (hline p hp) p.2).1.symm
  have hdiagnostics : diagnosticsByLine source =
      (Piece.itemsOn 1 (Piece.split source.toList)).filterMap Item.diagnostic? := by
    rw [Piece.itemsOn_split_lines hopen, List.filterMap_flatMap]
    exact List.flatMap_congr fun p hp =>
      (filterMap_itemsOn_of_lineFeed_not_mem (hline p hp) p.2).2.symm
  rw [scan_eq, htokens, hdiagnostics]

/-! ## Both runs -/

/-- What is encoded from a text has only lines of text. -/
theorem Prompt.reads_encode (source : String) :
    Reads (byteLines (Utf8.encode source)) (textLines source) [] where
  lines_eq := by rw [byteLines_encode, List.append_nil]
  undecodable := by simp

/-- What is left of a file that can be read is all of its scan, and whether there was an error. -/
theorem Program.runFile_ok (bytes : List UInt8) :
    runFile (.ok bytes) =
      { status := if (scan (sourceText bytes)).diagnostics = [] then .success else .dataError
        stdout := tokenBytes (sourceText bytes)
        stderr := diagnosticBytes (sourceText bytes) } := by
  obtain ⟨hout, herr⟩ :=
    ((Session.Has.start none none).run_of_unlimited (sourceText bytes)).written_of_unlimited
  have hstatus : ((Session.start none none).run (sourceText bytes)).1.exitStatus =
      if (scan (sourceText bytes)).diagnostics = [] then .success else .dataError := by
    rw [Session.exitStatus, Session.hadError_run, Scan.hasErrors]
    cases (scan (sourceText bytes)).diagnostics <;> rfl
  rw [runFile, outcomeOf, hout, herr, hstatus]
  simp [Utf8.encode]

theorem diagnosticsByLine_eq_nil_iff (source : String) :
    diagnosticsByLine source = [] ↔
      ∀ line ∈ textLines source, (scan (Prompt.stripLineEnd line)).diagnostics = [] := by
  have hlines : ((textLines source).zipIdx 1).map Prod.fst = textLines source :=
    List.zipIdx_map_fst 1 _
  conv_rhs => rw [← hlines]
  rw [diagnosticsByLine, List.flatMap_eq_nil_iff, List.forall_mem_map]
  exact forall₂_congr fun p _ => List.map_eq_nil_iff

/-- **A file holds what the prompt makes of its lines.** With no string left open in a line, the
tokens that are shown of a file are those that the prompt shows of its lines, each where its line
is and without the tokens for their ends, and one for the end of the file; so are the diagnostics.
There is an error in the file if and only if there is one in a line. -/
theorem run_file_by_line {source path : String} {read : String → Except ReadFailure (List UInt8)}
    (hclosed : ClosesStrings source) (hread : read path = .ok (Utf8.encode source))
    (input : List UInt8) :
    Program.run [] read (Utf8.encode source) =
        { status := .success
          stdout := ((textLines source).flatMap fun line =>
            Utf8.encode "> " ++ tokenBytes (Prompt.stripLineEnd line)) ++ Utf8.encode "> "
          stderr := (textLines source).flatMap fun line =>
            diagnosticBytes (Prompt.stripLineEnd line) } ∧
      scan (Program.sourceText (Utf8.encode source)) =
        ⟨tokensByLine source ++ [Token.endOfFile (1 + newlines source.toList)],
          diagnosticsByLine source⟩ ∧
      ∃ status, Program.run [path] read input =
          { status := status
            stdout := Utf8.encodeLines ((tokensByLine source ++
              [Token.endOfFile (1 + newlines source.toList)]).map Token.render)
            stderr := Utf8.encodeLines ((diagnosticsByLine source).map Diagnostic.render) } ∧
        (status.code = 65 ↔
          ∃ line ∈ textLines source, (scan (Prompt.stripLineEnd line)).diagnostics ≠ []) ∧
        (status.code = 0 ↔
          ∀ line ∈ textLines source, (scan (Prompt.stripLineEnd line)).diagnostics = []) := by
  have hscan : scan (Program.sourceText (Utf8.encode source)) =
      ⟨tokensByLine source ++ [Token.endOfFile (1 + newlines source.toList)],
        diagnosticsByLine source⟩ := by
    rw [Program.sourceText, Utf8.decodeLossy_encode]
    exact scan_eq_by_line hclosed
  -- the prompt shows line after line, the file its whole scan
  refine ⟨?_, hscan, ?_⟩
  · rw [Program.run, Program.runPrompt_eq (Prompt.reads_encode source), if_pos rfl, if_pos rfl,
      List.append_nil]
    rfl
  · have hfile : Program.run [path] read input = Program.runFile (.ok (Utf8.encode source)) := by
      rw [Program.run, hread]
    rw [hfile, Program.runFile_ok, tokenBytes, diagnosticBytes, hscan]
    -- a file asks whether it has any diagnostic, which it has if one of its lines has one
    have hany : (∃ line ∈ textLines source, (scan (Prompt.stripLineEnd line)).diagnostics ≠ []) ↔
        diagnosticsByLine source ≠ [] := by
      simp [diagnosticsByLine_eq_nil_iff]
    rw [hany, ← diagnosticsByLine_eq_nil_iff]
    refine ⟨_, rfl, ?_⟩
    by_cases hnone : diagnosticsByLine source = []
    · simp [hnone, ExitStatus.code]
    · simp [hnone, ExitStatus.code]

/-- Half an exponent and a comment, each in front of a carriage return. The digit behind the first
and the quote in the second make no difference. -/
theorem run_file_by_line_half_exponent :
    ClosesStrings "1e\r\n5 // \"@\r\n@" ∧
      scan (Program.sourceText (Utf8.encode "1e\r\n5 // \"@\r\n@")) =
        ⟨[⟨.number, "1", some (.number ⟨0x3FF0000000000000⟩), 1⟩, ⟨.identifier, "e", none, 1⟩,
          ⟨.number, "5", some (.number ⟨0x4014000000000000⟩), 2⟩, Token.endOfFile 3],
          [⟨.lexical, 3, "Unexpected character '@'."⟩]⟩ ∧
      (Program.run ["path"] (fun _ => .ok (Utf8.encode "1e\r\n5 // \"@\r\n@")) []).status.code =
        65 := by
  have hclosed : ClosesStrings "1e\r\n5 // \"@\r\n@" := by
    rw [ClosesStrings]
    decide +kernel
  have htokens : tokensByLine "1e\r\n5 // \"@\r\n@" =
      [⟨.number, "1", some (.number ⟨0x3FF0000000000000⟩), 1⟩, ⟨.identifier, "e", none, 1⟩,
        ⟨.number, "5", some (.number ⟨0x4014000000000000⟩), 2⟩] := by decide +kernel
  have hdiagnostics : diagnosticsByLine "1e\r\n5 // \"@\r\n@" =
      [⟨.lexical, 3, "Unexpected character '@'."⟩] := by decide +kernel
  obtain ⟨-, hscan, status, hrun, hcode, -⟩ :=
    @run_file_by_line _ "path" (fun _ => .ok (Utf8.encode "1e\r\n5 // \"@\r\n@")) hclosed rfl []
  rw [htokens, hdiagnostics] at hscan
  refine ⟨hclosed, hscan, ?_⟩
  rw [hrun]
  exact hcode.mpr (by decide +kernel)

end ScriptLexer
