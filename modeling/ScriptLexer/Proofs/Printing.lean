import Mathlib.Data.List.Chain
import ScriptLexer.Proofs.Piece.Yield

/-!
# Printing tokens and scanning them again

Which lists of tokens there are texts of (`WellFormed`), and a text for each (`printTokens`): every
token behind one space, and behind as many line feeds as bring the line up to its own. **The lists
that come of scans are the well-formed ones, and each comes of its text**
(`scan_wellFormed_and_scan_print`). A token needs no more than the space in front of it, because
no unit that yields a token goes on with a space or a line feed.

Printing gives a text with the same tokens and not the same text: comments are gone, and so is what
the blanks were. What is kept besides the tokens is where they stand, since a token has its line.
-/

set_option autoImplicit false

namespace ScriptLexer

/-! ## Well-formed lists of tokens -/

/-- The line that the text of a token ends on. It is another than the one it starts on for a string
with line feeds in it. -/
def Token.endLine (t : Token) : Nat := t.line + newlines t.lexeme.toList

/-- One token for the end of the text, and in front of it tokens that each are what their lexeme
yields. None of them starts before the one in front of it has ended, nor before `line`. Two tokens
may be on one line, whatever they are: printing keeps them apart. -/
structure WellFormed (line : Nat) (ts : List Token) : Prop where
  tokens : ∃ body last, ts = body ++ [Token.endOfFile last] ∧
    ∀ t ∈ body, Yields t.line t.lexeme.toList (some t)
  first : ∀ t ∈ ts.head?, line ≤ t.line
  lines : ts.IsChain fun t u => t.endLine ≤ u.line

namespace WellFormed

variable {line : Nat} {t : Token} {ts : List Token}

theorem endOfFile {last : Nat} (h : line ≤ last) : WellFormed line [Token.endOfFile last] where
  tokens := ⟨[], last, rfl, by simp⟩
  first := by
    intro t ht
    obtain rfl : Token.endOfFile last = t := by simpa using ht
    exact h
  lines := .singleton _

theorem cons (ht : Yields t.line t.lexeme.toList (some t)) (hline : line ≤ t.line)
    (hts : WellFormed t.endLine ts) : WellFormed line (t :: ts) where
  tokens := by
    obtain ⟨body, last, rfl, hbody⟩ := hts.tokens
    exact ⟨t :: body, last, rfl, List.forall_mem_cons.mpr ⟨ht, hbody⟩⟩
  first := by simpa using hline
  lines := List.isChain_cons.mpr ⟨hts.first, hts.lines⟩

/-- A well-formed list is only the token for the end of the text, or a token and such a list behind
it. -/
theorem eq_or_exists_cons (h : WellFormed line ts) :
    (∃ last, ts = [Token.endOfFile last] ∧ line ≤ last) ∨
      ∃ t rest, ts = t :: rest ∧ Yields t.line t.lexeme.toList (some t) ∧ line ≤ t.line ∧
        WellFormed t.endLine rest := by
  obtain ⟨body, last, rfl, hbody⟩ := h.tokens
  cases body with
  | nil => exact Or.inl ⟨last, rfl, h.first _ rfl⟩
  | cons t body =>
    obtain ⟨ht, hbody⟩ := List.forall_mem_cons.mp hbody
    obtain ⟨hfirst, hlines⟩ := List.isChain_cons.mp h.lines
    exact Or.inr ⟨t, _, rfl, ht, h.first t rfl, ⟨_, last, rfl, hbody⟩, hfirst, hlines⟩

theorem mono {line' : Nat} (h : WellFormed line ts) (hle : line' ≤ line) : WellFormed line' ts where
  tokens := h.tokens
  first := fun t ht => hle.trans (h.first t ht)
  lines := h.lines

end WellFormed

/-! ## The tokens of a scan are well-formed -/

/-- The tokens that pieces in a row mean, and the one for the end of their text. -/
theorem wellFormed_itemsOn (line : Nat) (ps : List Piece)
    (hps : ∀ p ∈ ps, ∀ line t, p.item? line = some (.ok t) → Yields line p.text (some t)) :
    WellFormed line ((Piece.itemsOn line ps).filterMap Item.token? ++
      [Token.endOfFile (line + newlines (ps.flatMap Piece.text))]) := by
  induction ps generalizing line with
  | nil => exact .endOfFile (Nat.le_add_right _ _)
  | cons p ps ih =>
    obtain ⟨hp, hps⟩ := List.forall_mem_cons.mp hps
    have hrest := ih (line + newlines p.text) hps
    rw [Nat.add_assoc, ← newlines_append, ← List.flatMap_cons] at hrest
    rw [Piece.itemsOn, List.filterMap_append, List.append_assoc]
    -- a piece without a token moves the line on, which only lowers what the others have to reach
    cases hitem : p.item? line with
    | none => exact hrest.mono (Nat.le_add_right _ _)
    | some item =>
      cases item with
      | error d => exact hrest.mono (Nat.le_add_right _ _)
      | ok t =>
        have ht := hp line t hitem
        obtain ⟨hlexeme, hline, -⟩ := ht.lexeme_eq
        have htext : t.lexeme.toList = p.text := by rw [hlexeme, String.toList_ofList]
        refine .cons (by rwa [hline, htext]) hline.ge ?_
        rwa [Token.endLine, hline, htext]

/-- The tokens of a scan are those of its pieces, each of which yields its own. -/
theorem wellFormed_tokens_scan (source : String) : WellFormed 1 (scan source).tokens := by
  have h := wellFormed_itemsOn 1 (Piece.split source.toList)
    fun p hp line t hitem => Piece.yields_of_mem_split hp hitem
  rw [Piece.flatMap_text_split] at h
  rw [tokens_scan, Scanner.items_eq]
  exact h

/-! ## Printing -/

/-- The text of tokens, from a line on. A token is printed behind the line feeds that are left to
its line and one space; the token for the end of the text only moves the line. A token that is
behind its line already gets no line feed, which is why not every list comes back. -/
def printFrom : Nat → List Token → List Char
  | _, [] => []
  | line, t :: ts =>
    List.replicate (t.line - line) '\n' ++
      (if t.kind = .endOfFile then [] else ' ' :: t.lexeme.toList) ++ printFrom t.endLine ts

/-- The text of tokens, from the first line on. -/
def printTokens (ts : List Token) : String := String.ofList (printFrom 1 ts)

example : printTokens [⟨.string, "\"a\n\"", some (.string "a\n"), 2⟩,
    ⟨.operator .plus, "+", none, 3⟩, Token.endOfFile 5] = "\n \"a\n\" +\n\n" := by decide

/-! ## Scanning what was printed -/

/-- What is printed starts with a space or a line feed, if it starts with anything. -/
theorem ends_printFrom {p : Char → Bool} (hspace : p ' ' = false) (hnewline : p '\n' = false)
    (line : Nat) (ts : List Token) : Ends p (printFrom line ts) := by
  induction ts generalizing line with
  | nil => exact .nil
  | cons t ts ih =>
    rw [printFrom]
    cases t.line - line with
    | zero =>
      split
      · exact ih t.endLine
      · exact .cons hspace
    | succ n => exact .cons hnewline

/-- A unit that yields a token goes on neither with a space nor with a line feed. -/
theorem continues_of_item? {p : Piece} (hp : p.IsUnit) {line : Nat} {item : Item}
    (hitem : p.item? line = some item) : p.continues ' ' = false ∧ p.continues '\n' = false := by
  cases p with
  | operator o => cases o <;> exact ⟨rfl, rfl⟩
  | string contents => exact ⟨rfl, rfl⟩
  | number lexeme => exact ⟨rfl, rfl⟩
  | word lexeme => exact ⟨rfl, rfl⟩
  | stray c => exact hp.elim
  | openString contents => exact hp.elim
  | _ => simp [Piece.item?] at hitem

namespace Scanner

variable {p : Piece} {rest : List Char}

theorem finish_of_item?_eq_none (hp : p.IsUnit) (hrest : Ends p.continues rest) {line : Nat}
    (hitem : p.item? line = none) :
    finish ⟨p.text ++ rest, line⟩ = finish ⟨rest, line + newlines p.text⟩ := by
  refine finish_append [] ?_
  rw [Piece.split_append_of_ends hp hrest, Piece.itemsOn, hitem]
  rfl

theorem finish_of_item?_eq_ok (hp : p.IsUnit) (hrest : Ends p.continues rest) {line : Nat}
    {t : Token} (hitem : p.item? line = some (.ok t)) :
    finish ⟨p.text ++ rest, line⟩ =
      ⟨t :: (finish ⟨rest, line + newlines p.text⟩).tokens,
        (finish ⟨rest, line + newlines p.text⟩).diagnostics⟩ := by
  refine finish_append [.ok t] ?_
  rw [Piece.split_append_of_ends hp hrest, Piece.itemsOn, hitem]
  rfl

theorem finish_space (rest : List Char) (line : Nat) :
    finish ⟨' ' :: rest, line⟩ = finish ⟨rest, line⟩ :=
  finish_of_item?_eq_none (show (Piece.blank ' ').IsUnit from rfl) (fun _ _ => rfl) rfl

theorem finish_newline (rest : List Char) (line : Nat) :
    finish ⟨'\n' :: rest, line⟩ = finish ⟨rest, line + 1⟩ :=
  finish_of_item?_eq_none (show Piece.newline.IsUnit from trivial) (fun _ _ => rfl) rfl

theorem finish_newlines (n : Nat) (rest : List Char) (line : Nat) :
    finish ⟨List.replicate n '\n' ++ rest, line⟩ = finish ⟨rest, line + n⟩ := by
  induction n generalizing line with
  | zero => rfl
  | succ n ih =>
    rw [List.replicate_succ, List.cons_append, finish_newline, ih, Nat.add_assoc, Nat.add_comm 1 n]

end Scanner

/-- What is printed from a line on is scanned from that line on as the tokens that were printed. The
line feeds that were put in front of a token are just as many as bring the scan to its line. -/
theorem finish_printFrom {line : Nat} {ts : List Token} (h : WellFormed line ts) :
    Scanner.finish ⟨printFrom line ts, line⟩ = ⟨ts, []⟩ := by
  induction ts generalizing line with
  | nil =>
    obtain ⟨body, last, hts, -⟩ := h.tokens
    simp at hts
  | cons t ts ih =>
    rw [printFrom, List.append_assoc, Scanner.finish_newlines]
    rcases h.eq_or_exists_cons with ⟨last, hts, hline⟩ | ⟨t', rest, hts, ht, hline, hrest⟩
    · -- behind the line feeds there is nothing, and they end on the line of the end
      obtain ⟨rfl, rfl⟩ := List.cons.inj hts
      have hlast : line + ((Token.endOfFile last).line - line) = last := Nat.add_sub_of_le hline
      have hkind : (Token.endOfFile last).kind = .endOfFile := rfl
      rw [hlast, if_pos hkind, printFrom, List.append_nil, Scanner.finish_eq]
      simp
    · -- the lexeme is cut off whole, because what is printed behind it does not go on with it
      obtain ⟨rfl, rfl⟩ := List.cons.inj hts
      obtain ⟨-, -, hkind⟩ := ht.lexeme_eq
      obtain ⟨p, hp, htext, hitem⟩ := ht.exists_piece
      obtain ⟨hspace, hnewline⟩ := continues_of_item? hp hitem
      have hends := ends_printFrom hspace hnewline t.endLine ts
      rw [Nat.add_sub_of_le hline, if_neg hkind, List.cons_append, Scanner.finish_space, ← htext,
        Scanner.finish_of_item?_eq_ok hp hends hitem, htext]
      have hprinted := ih hrest
      rw [Token.endLine] at hprinted ⊢
      rw [hprinted]

/-- **The tokens of every scan are well-formed, and every well-formed list of tokens is scanned
from its text.** -/
theorem scan_wellFormed_and_scan_print :
    (∀ source, WellFormed 1 (scan source).tokens) ∧
      ∀ ts, WellFormed 1 ts →
        (scan (printTokens ts)).diagnostics = [] ∧ (scan (printTokens ts)).tokens = ts := by
  refine ⟨wellFormed_tokens_scan, ?_⟩
  intro ts hts
  have h : scan (printTokens ts) = ⟨ts, []⟩ := by
    rw [scan, Scanner.ofText, printTokens, String.toList_ofList, finish_printFrom hts]
  rw [h]
  exact ⟨rfl, rfl⟩

/-- A string over two lines, and a token behind it on the line that the string ends on. -/
theorem scan_print_string_over_lines :
    (scan (printTokens [⟨.string, "\"a\n\"", some (.string "a\n"), 2⟩,
        ⟨.operator .plus, "+", none, 3⟩, Token.endOfFile 5])).tokens =
      [⟨.string, "\"a\n\"", some (.string "a\n"), 2⟩, ⟨.operator .plus, "+", none, 3⟩,
        Token.endOfFile 5] := by
  have hplus : WellFormed 3 [⟨.operator .plus, "+", none, 3⟩, Token.endOfFile 5] :=
    .cons (.operator .plus) (by decide) (.endOfFile (by decide))
  have hstring : WellFormed 1 [⟨.string, "\"a\n\"", some (.string "a\n"), 2⟩,
      ⟨.operator .plus, "+", none, 3⟩, Token.endOfFile 5] := by
    refine .cons ?_ (by decide) hplus
    exact Yields.string (by decide : '"' ∉ ['a', '\n'])
  exact (scan_wellFormed_and_scan_print.2 _ hstring).2

end ScriptLexer
