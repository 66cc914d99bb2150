import ScriptLexer.Proofs.Piece.Separating
import ScriptLexer.Scan

/-!
# Scanning on both sides of a line break

A line break ends every piece but an open string, and nothing in front of it looks past it. **So a
text with a line break in it is scanned as the two texts on its sides, each by itself**
(`scan_append_line`), provided no string is open there. The second scan is moved down by as many
lines as the first one has (`moveDown`), since where a piece stands decides its line and nothing
else.

This is the lemma behind reading a file line by line. A comment at the end of the first text needs
no exception: a line feed is the one thing that it does not go on with.
-/

set_option autoImplicit false

namespace ScriptLexer

/-! ## Further down -/

/-- The token of the same text, so many lines further down. Unlike `Token.onLine` it keeps the
distances between lines, so it is right for texts of any number of lines. -/
def Token.moveDown (n : Nat) (t : Token) : Token := { t with line := t.line + n }

/-- The diagnostic of the same text, so many lines further down. -/
def Diagnostic.moveDown (n : Nat) (d : Diagnostic) : Diagnostic := { d with line := d.line + n }

@[simp] theorem Token.moveDown_moveDown (m n : Nat) (t : Token) :
    (t.moveDown m).moveDown n = t.moveDown (m + n) := by
  rw [moveDown, moveDown, moveDown, Nat.add_assoc]

@[simp] theorem Diagnostic.moveDown_moveDown (m n : Nat) (d : Diagnostic) :
    (d.moveDown m).moveDown n = d.moveDown (m + n) := by
  rw [moveDown, moveDown, moveDown, Nat.add_assoc]

/-- The item, token or diagnostic, so many lines further down. -/
def Item.moveDown (n : Nat) : Item → Item
  | .ok t => .ok (t.moveDown n)
  | .error d => .error (d.moveDown n)

@[simp] theorem Item.token?_moveDown (n : Nat) (item : Item) :
    Item.token? (item.moveDown n) = item.token?.map (Token.moveDown n) := by
  cases item <;> rfl

@[simp] theorem Item.diagnostic?_moveDown (n : Nat) (item : Item) :
    Item.diagnostic? (item.moveDown n) = item.diagnostic?.map (Diagnostic.moveDown n) := by
  cases item <;> rfl

namespace Piece

/-- The line is all that a piece means by where it stands. In no other respect does a token or a
fault depend on what came before. -/
theorem item?_add (line n : Nat) (p : Piece) :
    p.item? (line + n) = (p.item? line).map (Item.moveDown n) := by
  cases p with
  | number lexeme =>
    cases h : Decimal.ofText? lexeme <;>
      simp [item?, numberItem, h, Item.moveDown, Token.moveDown, Diagnostic.moveDown, Fault.onLine]
  | openString contents =>
    simp [item?, Item.moveDown, Diagnostic.moveDown, Fault.onLine, Nat.add_right_comm]
  | _ => rfl

theorem itemsOn_add (line n : Nat) (ps : List Piece) :
    itemsOn (line + n) ps = (itemsOn line ps).map (Item.moveDown n) := by
  induction ps generalizing line with
  | nil => rfl
  | cons p ps ih =>
    have hbehind := ih (line + newlines p.text)
    rw [Nat.add_right_comm] at hbehind
    simp [item?_add, hbehind, Option.toList_map]

end Piece

namespace Scanner

theorem finish_add (text : List Char) (line n : Nat) :
    finish ⟨text, line + n⟩ =
      ⟨(finish ⟨text, line⟩).tokens.map (Token.moveDown n),
        (finish ⟨text, line⟩).diagnostics.map (Diagnostic.moveDown n)⟩ := by
  rw [finish_eq, finish_eq, Piece.itemsOn_add, Item.filterMap_map (Item.token?_moveDown n),
    Item.filterMap_map (Item.diagnostic?_moveDown n), List.map_append, Nat.add_right_comm]
  rfl

end Scanner

/-! ## Across a line break -/

namespace Piece

/-- Only a string that is open goes on with a line feed. It is the one separator that comments end
at. -/
theorem continues_newline {p : Piece} (h : ∀ contents, p ≠ openString contents) :
    p.continues '\n' = false := by
  cases p with
  | comment body => rfl
  | _ => exact continues_of_separates rfl (by simp) h

theorem split_append_newline {source : List Char}
    (h : ∀ contents, openString contents ∉ split source) (more : List Char) :
    split (source ++ '\n' :: more) = split source ++ newline :: split more := by
  have hlast : ∀ p, (split source).getLast? = some p → p.continues '\n' = false := by
    intro p hp
    refine continues_newline fun contents heq => h contents ?_
    exact heq ▸ List.mem_of_getLast? hp
  rw [split_append_of_separates rfl hlast, split, cut_newline]

theorem itemsOn_split_append_newline {source : List Char}
    (h : ∀ contents, openString contents ∉ split source) (line : Nat) (more : List Char) :
    itemsOn line (split (source ++ '\n' :: more)) =
      itemsOn line (split source) ++ itemsOn (line + newlines source + 1) (split more) := by
  rw [split_append_newline h, itemsOn_append, flatMap_text_split]
  rfl

/-- A string that is open is reported, wherever it stands. So that no string is open can be asked of
the diagnostics, which can be seen, and need not be asked of the pieces. -/
theorem exists_of_openString_mem {contents : List Char} {ps : List Piece}
    (h : openString contents ∈ ps) (line : Nat) :
    ∃ d ∈ (itemsOn line ps).filterMap Item.diagnostic?, d.message = "Unterminated string." := by
  induction ps generalizing line with
  | nil => simp at h
  | cons p ps ih =>
    rw [itemsOn, List.filterMap_append]
    rcases List.mem_cons.mp h with rfl | h
    · exact ⟨_, List.mem_append_left _ List.mem_cons_self, rfl⟩
    · obtain ⟨d, hd, hmessage⟩ := ih h (line + newlines p.text)
      exact ⟨d, List.mem_append_right _ hd, hmessage⟩

end Piece

/-- The scan of a text with a line break in it is put together from both sides. -/
theorem Scanner.finish_append_newline {source : List Char}
    (h : ∀ contents, Piece.openString contents ∉ Piece.split source) (line : Nat)
    (more : List Char) :
    finish ⟨source ++ '\n' :: more, line⟩ =
      ⟨(Piece.itemsOn line (Piece.split source)).filterMap Item.token? ++
          (finish ⟨more, line + newlines source + 1⟩).tokens,
        (Piece.itemsOn line (Piece.split source)).filterMap Item.diagnostic? ++
          (finish ⟨more, line + newlines source + 1⟩).diagnostics⟩ := by
  have hbreak : line + newlines (source ++ ['\n']) = line + newlines source + 1 := by
    rw [newlines_append, Nat.add_assoc]
    rfl
  have hitems := Piece.itemsOn_split_append_newline h line more
  rw [List.append_cons, ← hbreak] at hitems ⊢
  exact finish_append _ hitems

/-- **A text with a line break after it is scanned as it is by itself**, and so is what is behind
the break, only further down by the line that the first text ends on. -/
theorem scan_append_line {a : String}
    (ha : ∀ d ∈ (scan a).diagnostics, d.message ≠ "Unterminated string.") (b : String) :
    ∃ body n, (scan a).tokens = body ++ [Token.endOfFile n] ∧
      (scan (a ++ "\n" ++ b)).tokens = body ++ (scan b).tokens.map (Token.moveDown n) ∧
      (scan (a ++ "\n" ++ b)).diagnostics =
        (scan a).diagnostics ++ (scan b).diagnostics.map (Diagnostic.moveDown n) := by
  have hclosed : ∀ contents, Piece.openString contents ∉ Piece.split a.toList := by
    intro contents hmem
    obtain ⟨d, hd, hmessage⟩ := Piece.exists_of_openString_mem hmem 1
    rw [scan_eq] at ha
    exact ha d hd hmessage
  have htext : (a ++ "\n" ++ b).toList = a.toList ++ '\n' :: b.toList := by simp
  have hline : 1 + newlines a.toList + 1 = 1 + (1 + newlines a.toList) := Nat.add_comm _ 1
  -- behind the break the scanner is on line `n + 1`, as if it had started `n` lines down
  have hwhole := Scanner.finish_append_newline hclosed 1 b.toList
  rw [hline, Scanner.finish_add, ← htext] at hwhole
  have hdiagnostics : (scan a).diagnostics =
      (Piece.itemsOn 1 (Piece.split a.toList)).filterMap Item.diagnostic? := by rw [scan_eq]
  refine ⟨(Piece.itemsOn 1 (Piece.split a.toList)).filterMap Item.token?, 1 + newlines a.toList,
    by rw [scan_eq], congrArg Scan.tokens hwhole, ?_⟩
  rw [hdiagnostics]
  exact congrArg Scan.diagnostics hwhole

/-- A closed string over two lines and half an exponent; behind the break, a digit that the exponent
could have gone on with. -/
theorem scan_append_line_half_exponent :
    (∀ d ∈ (scan "#\"a\n\" 1e").diagnostics, d.message ≠ "Unterminated string.") ∧
      (scan ("#\"a\n\" 1e" ++ "\n" ++ "5@")).tokens =
        [⟨.string, "\"a\n\"", some (.string "a\n"), 1⟩,
          ⟨.number, "1", some (.number ⟨0x3FF0000000000000⟩), 2⟩, ⟨.identifier, "e", none, 2⟩,
          ⟨.number, "5", some (.number ⟨0x4014000000000000⟩), 3⟩, Token.endOfFile 3] ∧
      (scan ("#\"a\n\" 1e" ++ "\n" ++ "5@")).diagnostics =
        [⟨.lexical, 1, "Unexpected character '#'."⟩,
          ⟨.lexical, 3, "Unexpected character '@'."⟩] := by
  have hfirst : scan "#\"a\n\" 1e" =
      ⟨[⟨.string, "\"a\n\"", some (.string "a\n"), 1⟩,
          ⟨.number, "1", some (.number ⟨0x3FF0000000000000⟩), 2⟩, ⟨.identifier, "e", none, 2⟩,
          Token.endOfFile 2], [⟨.lexical, 1, "Unexpected character '#'."⟩]⟩ := by decide +kernel
  have hsecond : scan "5@" = ⟨[⟨.number, "5", some (.number ⟨0x4014000000000000⟩), 1⟩,
      Token.endOfFile 1], [⟨.lexical, 1, "Unexpected character '@'."⟩]⟩ := by decide +kernel
  have hclosed : ∀ d ∈ (scan "#\"a\n\" 1e").diagnostics, d.message ≠ "Unterminated string." := by
    rw [hfirst]
    decide
  obtain ⟨body, n, hend, htokens, hdiagnostics⟩ := scan_append_line hclosed "5@"
  rw [hfirst] at hend hdiagnostics
  obtain ⟨rfl, hlast⟩ :=
    List.append_inj' (show [_, _, _] ++ [_] = body ++ [Token.endOfFile n] from hend) rfl
  obtain rfl : 2 = n := by simpa [Token.endOfFile] using hlast
  rw [hsecond] at htokens hdiagnostics
  exact ⟨hclosed, htokens, hdiagnostics⟩

end ScriptLexer
