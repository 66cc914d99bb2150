import ScriptLexer.Proofs.LineBreak

/-!
# What a string holds stays in the string

A quote ends every piece in front of it but a comment and an open string, and nothing looks past
it; and behind the closing quote the scanner goes on as at the start of a text, only on a later
line. **So a text with a string in it is scanned as what is in front of the string and what is
behind it, each by itself** (`scan_append_string`), and another string in its place changes the
token of the string and the lines behind it (`scan_eq_but_for_string`). Slashes, line feeds and
characters that are stray anywhere else mean nothing between quotes.

The two scans are each taken apart in the same way, and not compared piece by piece. That needs no
relation between the two strings, and the front of both is then the scan of one and the same text.
-/

set_option autoImplicit false

namespace ScriptLexer

/-- The text ends inside a string: its last quote opens one and is never closed. A quote behind it
would close that string and open none. -/
def EndsInString (source : String) : Prop :=
  ∃ contents, (Piece.split source.toList).getLast? = some (.openString contents)

/-- The text ends inside a comment: two slashes start one on its last line. A quote behind it would
be part of the comment. -/
def EndsInComment (source : String) : Prop :=
  ∃ body, (Piece.split source.toList).getLast? = some (.comment body)

/-! ## Around one string -/

namespace Piece

/-- A string behind a text that could not take its quote is a piece by itself. -/
theorem split_append_string {source contents : List Char}
    (hsource : ∀ p, (split source).getLast? = some p → p.continues '"' = false)
    (hcontents : '"' ∉ contents) (more : List Char) :
    split (source ++ ((string contents).text ++ more)) =
      split source ++ string contents :: split more := by
  have hclosed : Ends (string contents).continues more := fun _ _ => rfl
  rw [text, List.append_assoc, List.cons_append, split_append_of_separates rfl hsource,
    ← List.cons_append, ← List.append_assoc]
  exact congrArg (split source ++ ·) (split_append_of_ends (p := string contents) hcontents hclosed)

theorem itemsOn_split_append_string {source contents : List Char}
    (hsource : ∀ p, (split source).getLast? = some p → p.continues '"' = false)
    (hcontents : '"' ∉ contents) (line : Nat) (more : List Char) :
    itemsOn line (split (source ++ ((string contents).text ++ more))) =
      itemsOn line (split source) ++
        .ok ⟨.string, String.ofList (string contents).text,
          some (.string (String.ofList contents)), line + newlines source⟩ ::
        itemsOn (line + newlines source + newlines contents) (split more) := by
  rw [split_append_string hsource hcontents, itemsOn_append, flatMap_text_split, itemsOn,
    newlines_text_string]
  rfl

end Piece

/-- The scan of a text with a string in it is put together from both sides and the string. -/
theorem Scanner.finish_append_string {source contents : List Char}
    (hsource : ∀ p, (Piece.split source).getLast? = some p → p.continues '"' = false)
    (hcontents : '"' ∉ contents) (line : Nat) (more : List Char) :
    finish ⟨source ++ ((Piece.string contents).text ++ more), line⟩ =
      ⟨(Piece.itemsOn line (Piece.split source)).filterMap Item.token? ++
          ⟨.string, String.ofList (Piece.string contents).text,
            some (.string (String.ofList contents)), line + newlines source⟩ ::
          (finish ⟨more, line + newlines source + newlines contents⟩).tokens,
        (Piece.itemsOn line (Piece.split source)).filterMap Item.diagnostic? ++
          (finish ⟨more, line + newlines source + newlines contents⟩).diagnostics⟩ := by
  have hlines : line + newlines (source ++ (Piece.string contents).text) =
      line + newlines source + newlines contents := by simp [Nat.add_assoc]
  have hitems := Piece.itemsOn_split_append_string hsource hcontents line more
  rw [← List.append_assoc, ← hlines, List.append_cons] at hitems
  rw [← List.append_assoc, finish_append _ hitems, hlines]
  simp [Item.token?, Item.diagnostic?]

variable {a s : String}

/-- A text that does not end inside a string or a comment is scanned as it is by itself when a
string follows it, and so is what is behind the string, further down. -/
theorem scan_append_string (hstring : ¬ EndsInString a) (hcomment : ¬ EndsInComment a)
    (hs : '"' ∉ s.toList) (b : String) :
    scan (a ++ "\"" ++ s ++ "\"" ++ b) =
      ⟨(scan a).tokens.dropLast ++
          ⟨.string, "\"" ++ s ++ "\"", some (.string s), 1 + newlines a.toList⟩ ::
          (scan b).tokens.map (Token.moveDown (newlines a.toList + newlines s.toList)),
        (scan a).diagnostics ++
          (scan b).diagnostics.map
            (Diagnostic.moveDown (newlines a.toList + newlines s.toList))⟩ := by
  -- the quote is a separator, which only a comment and an open string go on with
  have hsource : ∀ p, (Piece.split a.toList).getLast? = some p → p.continues '"' = false := by
    intro p hp
    refine Piece.continues_of_separates rfl ?_ ?_
    · rintro body rfl
      exact hcomment ⟨body, hp⟩
    · rintro contents rfl
      exact hstring ⟨contents, hp⟩
  have htext : (a ++ "\"" ++ s ++ "\"" ++ b).toList =
      a.toList ++ ((Piece.string s.toList).text ++ b.toList) := by simp [Piece.text]
  have hlexeme : String.ofList (Piece.string s.toList).text = "\"" ++ s ++ "\"" := by
    simp [← String.toList_inj, Piece.text]
  have hwhole := Scanner.finish_append_string hsource hs 1 b.toList
  rw [Nat.add_assoc, Scanner.finish_add, ← htext, hlexeme, String.ofList_toList] at hwhole
  rw [scan_eq a, List.dropLast_concat]
  exact hwhole

/-- **Two texts that differ in what a string holds have scans that differ in that string only**, and
behind it in the lines, by as many as the one string has more line feeds than the other. -/
theorem scan_eq_but_for_string {s₁ s₂ : String} (hstring : ¬ EndsInString a)
    (hcomment : ¬ EndsInComment a) (h₁ : '"' ∉ s₁.toList) (h₂ : '"' ∉ s₂.toList) (b : String) :
    ∃ x y front line behind₁ behind₂ later₁ later₂,
      scan (a ++ "\"" ++ s₁ ++ "\"" ++ b) = x ∧ scan (a ++ "\"" ++ s₂ ++ "\"" ++ b) = y ∧
      x.tokens.length = y.tokens.length ∧ x.diagnostics.length = y.diagnostics.length ∧
      (scan a).tokens = front ++ [Token.endOfFile line] ∧
      x.tokens = front ++ ⟨.string, "\"" ++ s₁ ++ "\"", some (.string s₁), line⟩ :: behind₁ ∧
      y.tokens = front ++ ⟨.string, "\"" ++ s₂ ++ "\"", some (.string s₂), line⟩ :: behind₂ ∧
      behind₁.map (Token.moveDown (newlines s₂.toList)) =
        behind₂.map (Token.moveDown (newlines s₁.toList)) ∧
      x.diagnostics = (scan a).diagnostics ++ later₁ ∧
      y.diagnostics = (scan a).diagnostics ++ later₂ ∧
      later₁.map (Diagnostic.moveDown (newlines s₂.toList)) =
        later₂.map (Diagnostic.moveDown (newlines s₁.toList)) := by
  have hend : (scan a).tokens =
      (scan a).tokens.dropLast ++ [Token.endOfFile (1 + newlines a.toList)] := by
    rw [scan_eq, List.dropLast_concat]
  rw [scan_append_string hstring hcomment h₁, scan_append_string hstring hcomment h₂]
  refine ⟨_, _, _, _, _, _, _, _, rfl, rfl, by simp, by simp, hend, rfl, rfl, ?_, rfl, rfl, ?_⟩
  -- moved down by the line feeds of both strings, the two rests are the rest of `b`
  · rw [List.map_map, List.map_map]
    refine List.map_congr_left fun t _ => ?_
    simp only [Function.comp_apply, Token.moveDown_moveDown, Nat.add_right_comm]
  · rw [List.map_map, List.map_map]
    refine List.map_congr_left fun d _ => ?_
    simp only [Function.comp_apply, Diagnostic.moveDown_moveDown, Nat.add_right_comm]

/-- Half an exponent in front of the string, which would be made whole by what the first string
holds, and what would be a comment, a line feed and a stray character in the second. -/
theorem scan_eq_but_for_string_behind_half_exponent :
    ¬ EndsInString "1e" ∧ ¬ EndsInComment "1e" ∧ '"' ∉ "+5".toList ∧ '"' ∉ "//\n@".toList ∧
      ∃ behind₁ behind₂,
        (scan ("1e" ++ "\"" ++ "+5" ++ "\"" ++ "@")).tokens =
          [⟨.number, "1", some (.number ⟨0x3FF0000000000000⟩), 1⟩, ⟨.identifier, "e", none, 1⟩] ++
            ⟨.string, "\"" ++ "+5" ++ "\"", some (.string "+5"), 1⟩ :: behind₁ ∧
        (scan ("1e" ++ "\"" ++ "//\n@" ++ "\"" ++ "@")).tokens =
          [⟨.number, "1", some (.number ⟨0x3FF0000000000000⟩), 1⟩, ⟨.identifier, "e", none, 1⟩] ++
            ⟨.string, "\"" ++ "//\n@" ++ "\"", some (.string "//\n@"), 1⟩ :: behind₂ ∧
        behind₁.map (Token.moveDown 1) = behind₂.map (Token.moveDown 0) := by
  have hlast : (Piece.split "1e".toList).getLast? = some (.word ['e']) := by decide +kernel
  have hfront : (scan "1e").tokens = [⟨.number, "1", some (.number ⟨0x3FF0000000000000⟩), 1⟩,
      ⟨.identifier, "e", none, 1⟩, Token.endOfFile 1] := by decide +kernel
  have hstring : ¬ EndsInString "1e" := by
    rintro ⟨contents, h⟩
    exact Piece.noConfusion (Option.some.inj (hlast.symm.trans h))
  have hcomment : ¬ EndsInComment "1e" := by
    rintro ⟨body, h⟩
    exact Piece.noConfusion (Option.some.inj (hlast.symm.trans h))
  have h₁ : '"' ∉ "+5".toList := by decide
  have h₂ : '"' ∉ "//\n@".toList := by decide
  obtain ⟨x, y, front, line, behind₁, behind₂, -, -, rfl, rfl, -, -, hend, hx, hy, hbehind, -⟩ :=
    scan_eq_but_for_string hstring hcomment h₁ h₂ "@"
  rw [hfront] at hend
  obtain ⟨rfl, hline⟩ := List.append_inj' (show [_, _] ++ [_] = front ++ [_] from hend) rfl
  obtain rfl : 1 = line := by simpa [Token.endOfFile] using hline
  exact ⟨hstring, hcomment, h₁, h₂, behind₁, behind₂, hx, hy, hbehind⟩

end ScriptLexer
