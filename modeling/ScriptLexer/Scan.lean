import ScriptLexer.Scanner

/-!
# Finished scans

A scan is what a whole text came to: its tokens, closed by the one token for the end of the text,
and what was wrong with it. Tokens and diagnostics are each in the order of the text. A fault
costs the piece it is in and nothing more, so there is a scan of every text.

In a scan the two are kept apart, and how they alternate is lost. Nobody who reads a scan asks for
it, and it is still there in the items (`Scanner.items`), of which a scan is the two halves. So what
is stated of items is the stronger statement, and `scan_eq` is how it comes down to scans.
-/

set_option autoImplicit false

namespace ScriptLexer

/-- The tokens and the diagnostics of a text. Neither is missing because of the other: a text with
faults has the tokens around them all the same. -/
structure Scan where
  tokens : List Token
  diagnostics : List Diagnostic
  deriving DecidableEq, Repr

namespace Scan

/-- Whether anything was wrong with the text. -/
def hasErrors (s : Scan) : Bool := !s.diagnostics.isEmpty

/-- Whether two lists of tokens are the same, number literals compared as numbers. That is coarser
than equality where zeros are, and not reflexive where a NaN is; no scan has a NaN in it, so of
scans it is an equivalence. -/
def equalTokens (a b : List Token) : Bool := a.isEqv b Token.equal

/-- Whether two scans are the same, number literals compared as numbers. Diagnostics hold no numbers
but lines, so of them this is equality. -/
def equal (a b : Scan) : Bool :=
  equalTokens a.tokens b.tokens && a.diagnostics == b.diagnostics

end Scan

/-- The token that an item is, if it is one. Together with `Item.diagnostic?` it sorts the items of
a text into the two halves of a scan. -/
def Item.token? : Item → Option Token
  | .ok t => some t
  | .error _ => none

def Item.diagnostic? : Item → Option Diagnostic
  | .ok _ => none
  | .error d => some d

/-- The scan of what a scanner has left. Its last token is on the line that the text ends on, which
the scanner knows only when it is through: the line is taken from where draining it has led. -/
def Scanner.finish (s : Scanner) : Scan :=
  let (seen, ended) := s.drain #[]
  let items := seen.toList
  { tokens := items.filterMap Item.token? ++ [Token.endOfFile ended.line]
    diagnostics := items.filterMap Item.diagnostic? }

/-- The scan of a text: the one of a scanner that is at its start, on its first line. -/
def scan (source : String) : Scan := (Scanner.ofText source).finish

/-! ## A scan by its items

The scanner collects into an array as it goes; what it collects is a list to reason about. The two
equations here say what the list is, by the scanner and then by the pieces of the text.
-/

theorem Scanner.tokens_finish (s : Scanner) :
    s.finish.tokens = s.items.filterMap Item.token? ++ [Token.endOfFile s.atEnd.line] := rfl

theorem Scanner.diagnostics_finish (s : Scanner) :
    s.finish.diagnostics = s.items.filterMap Item.diagnostic? := rfl

/-- Where a change of items is a change of what is taken from them, it may be made on either side of
the taking. The changes that are looked at are of the line and of the line ends. -/
theorem Item.filterMap_map {α : Type} {take : Item → Option α} {change : Item → Item}
    {change' : α → α} (h : ∀ item, take (change item) = (take item).map change')
    (items : List Item) :
    (items.map change).filterMap take = (items.filterMap take).map change' := by
  rw [List.filterMap_map, List.map_filterMap]
  exact congrArg (List.filterMap · items) (funext h)

/-- A scan says no more than the pieces of the text and the line it starts on: this is where the
scanner goes out of sight, and what is to be shown of two scans becomes a statement on pieces. -/
theorem Scanner.finish_eq (text : List Char) (line : Nat) :
    finish ⟨text, line⟩ =
      { tokens := (Piece.itemsOn line (Piece.split text)).filterMap Item.token? ++
          [Token.endOfFile (line + newlines text)]
        diagnostics := (Piece.itemsOn line (Piece.split text)).filterMap Item.diagnostic? } := by
  simp [finish, drain_eq_split text line]

/-- Where the items of a text stand in front of those of the text behind it, its tokens and its
diagnostics do as well. When that is so depends on how the two are cut, and is shown for each sort
of text: one before a line break, one before a string, one that is a single unit. -/
theorem Scanner.finish_append {text more : List Char} {line : Nat} (front : List Item)
    (h : Piece.itemsOn line (Piece.split (text ++ more)) =
      front ++ Piece.itemsOn (line + newlines text) (Piece.split more)) :
    finish ⟨text ++ more, line⟩ =
      { tokens := front.filterMap Item.token? ++ (finish ⟨more, line + newlines text⟩).tokens
        diagnostics := front.filterMap Item.diagnostic? ++
          (finish ⟨more, line + newlines text⟩).diagnostics } := by
  simp [finish_eq, h, Nat.add_assoc]

theorem scan_eq (source : String) :
    scan source =
      { tokens := (Piece.itemsOn 1 (Piece.split source.toList)).filterMap Item.token? ++
          [Token.endOfFile (1 + newlines source.toList)]
        diagnostics := (Piece.itemsOn 1 (Piece.split source.toList)).filterMap Item.diagnostic? } :=
  Scanner.finish_eq source.toList 1

/-- The tokens of a text are those among its items, and one for the end on the line of the end. -/
theorem tokens_scan (source : String) :
    (scan source).tokens = (Scanner.ofText source).items.filterMap Item.token? ++
      [Token.endOfFile (1 + newlines source.toList)] := by
  rw [scan, Scanner.tokens_finish, Scanner.atEnd_eq]
  rfl

theorem Scan.hasErrors_iff (s : Scan) : s.hasErrors = true ↔ s.diagnostics ≠ [] := by
  simp [Scan.hasErrors]

end ScriptLexer
