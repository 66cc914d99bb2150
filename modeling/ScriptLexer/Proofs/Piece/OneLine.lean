import ScriptLexer.Scan

/-!
# The pieces of one line

What has no line break in it is on one line from its first piece to its last, so where it stands is
one number, and **its pieces mean the same on any line, up to that number**
(`Piece.itemsOn_eq_map_onLine`). The scan of such a text is all on the first line
(`line_eq_one_of_lineFeed_not_mem`).

Lines of a file are texts of this kind, and so is whatever is typed at a prompt. That is what lets a
file be compared with its lines, each scanned by itself as if it were the first.
-/

set_option autoImplicit false

namespace ScriptLexer

/-- The token, as if it stood on this line. Whatever line it was on is forgotten, so this is only
right for tokens that are all on one. -/
def Token.onLine (n : Nat) (t : Token) : Token := { t with line := n }

/-- The diagnostic, as if it were of this line. -/
def Diagnostic.onLine (n : Nat) (d : Diagnostic) : Diagnostic := { d with line := n }

/-- The item, token or diagnostic, as if it were of this line. -/
def Item.onLine (n : Nat) : Item → Item
  | .ok t => .ok (t.onLine n)
  | .error d => .error (d.onLine n)

@[simp] theorem Item.token?_onLine (n : Nat) (item : Item) :
    Item.token? (item.onLine n) = item.token?.map (Token.onLine n) := by
  cases item <;> rfl

@[simp] theorem Item.diagnostic?_onLine (n : Nat) (item : Item) :
    Item.diagnostic? (item.onLine n) = item.diagnostic?.map (Diagnostic.onLine n) := by
  cases item <;> rfl

namespace Piece

/-- The line is in what a piece means as a number and nowhere else: no message and no literal
depends on it. An open string without a line break ends on the line it starts on. -/
theorem item?_eq_map_onLine {p : Piece} (h : newlines p.text = 0) (line n : Nat) :
    p.item? n = (p.item? line).map (Item.onLine n) := by
  cases p with
  | number lexeme =>
    cases hread : Decimal.ofText? lexeme <;>
      simp [item?, numberItem, hread, Item.onLine, Token.onLine, Diagnostic.onLine, Fault.onLine]
  | openString contents =>
    have hcontents : newlines contents = 0 := h
    simp [item?, Item.onLine, Diagnostic.onLine, Fault.onLine, hcontents]
  | _ => rfl

/-- Pieces without a line break mean the same on every line, up to the line. -/
theorem itemsOn_eq_map_onLine {ps : List Piece} (h : newlines (ps.flatMap text) = 0)
    (line n : Nat) : itemsOn n ps = (itemsOn line ps).map (Item.onLine n) := by
  induction ps with
  | nil => rfl
  | cons p ps ih =>
    rw [List.flatMap_cons, newlines_append] at h
    obtain ⟨hfirst, hbehind⟩ := Nat.add_eq_zero_iff.mp h
    simp [hfirst, item?_eq_map_onLine hfirst line n, ih hbehind, Option.toList_map]

end Piece

/-- What a text without a line break means on any line is what its scan has, but for the end. -/
theorem filterMap_itemsOn_of_lineFeed_not_mem {source : String} (h : '\n' ∉ source.toList)
    (n : Nat) :
    (Piece.itemsOn n (Piece.split source.toList)).filterMap Item.token? =
        (scan source).tokens.dropLast.map (Token.onLine n) ∧
      (Piece.itemsOn n (Piece.split source.toList)).filterMap Item.diagnostic? =
        (scan source).diagnostics.map (Diagnostic.onLine n) := by
  have hbreaks : newlines ((Piece.split source.toList).flatMap Piece.text) = 0 := by
    rw [Piece.flatMap_text_split]
    exact List.count_eq_zero.mpr h
  rw [scan_eq, List.dropLast_concat, Piece.itemsOn_eq_map_onLine hbreaks 1 n,
    Item.filterMap_map (Item.token?_onLine n), Item.filterMap_map (Item.diagnostic?_onLine n)]
  exact ⟨rfl, rfl⟩

end ScriptLexer
