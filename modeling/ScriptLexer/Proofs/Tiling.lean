import ScriptLexer.Proofs.LongestMatch

/-!
# The scanner accounts for the whole text

A text is a row of tiles with nothing between them, and what the scanner yields is what it yields
for the tiles, in order. **What a tile yields is decided by where the tile is** (`IsTile`): its
line is counted in the text that stands before it, or, for the one fault that is known only at the
end, in all of the text. So lines never decrease from one item to the next
(`exists_tiling`).

A tile is judged by the text around it and not by how the scanner came there. That makes the
statement one about positions: the same characters at another place in the text account for another
item, and an item on the wrong line would account for no tile.
-/

set_option autoImplicit false

namespace ScriptLexer

/-! ## Tiles -/

/-- A stretch of a text, with what the scanner yields for it. The stretch is characters and not a
piece, so that nothing of how it was cut is left in it. -/
structure Tile where
  text : List Char
  item? : Option Item

/-- A stretch that yields nothing: one blank, one line feed, or two slashes and the rest of their
line, up to its line feed or to the end of the text. What is behind it is part of the condition, or
half a comment would be one. -/
inductive IsSkipped : List Char → List Char → Prop
  | blank {c : Char} {behind : List Char} (hc : c = ' ' ∨ c = '\t' ∨ c = '\r') :
    IsSkipped [c] behind
  | newline {behind : List Char} : IsSkipped ['\n'] behind
  | comment {body behind : List Char} (hbody : '\n' ∉ body)
    (hbehind : ∀ c, behind.head? = some c → c = '\n') : IsSkipped ('/' :: '/' :: body) behind

/-- An item accounts for a stretch of text between two others. A token is the stretch and starts
where it does. A stray character is reported where it stands. An open string takes all that is left,
and is reported on the line that it ends on. -/
inductive Accounts (before text behind : List Char) : Item → Prop
  | token {t : Token} (hlexeme : t.lexeme.toList = text) (hline : t.line = 1 + newlines before)
    (hkind : t.kind ≠ .endOfFile) : Accounts before text behind (.ok t)
  | unexpected {c : Char} (htext : text = [c]) : Accounts before text behind
      (.error ⟨.lexical, 1 + newlines before, "Unexpected character '" ++ c.toString ++ "'."⟩)
  | unterminated {contents : List Char} (htext : text = '"' :: contents) (hquote : '"' ∉ contents)
    (hbehind : behind = []) : Accounts before text behind
      (.error ⟨.lexical, 1 + newlines (before ++ text), "Unterminated string."⟩)

/-- The tile is as it has to be between these two texts. -/
structure IsTile (before : List Char) (tile : Tile) (behind : List Char) : Prop where
  ne_nil : tile.text ≠ []
  skipped_iff : tile.item? = none ↔ IsSkipped tile.text behind
  accounts : ∀ item, tile.item? = some item → Accounts before tile.text behind item

/-- The tiles are the text `source`, which stands behind `before`, and each is as it has to be. What
a tile has in front of it is `before` and all the tiles to its left. -/
structure IsTiling (before source : List Char) (tiles : List Tile) : Prop where
  texts : tiles.flatMap Tile.text = source
  isTile : ∀ left tile right, tiles = left ++ tile :: right →
    IsTile (before ++ left.flatMap Tile.text) tile (right.flatMap Tile.text)

theorem IsTiling.nil (before : List Char) : IsTiling before [] [] where
  texts := rfl
  isTile := by simp

/-- A tiling may be taken apart from the left: the first tile goes over to what stands before. -/
theorem isTiling_cons_iff (before source : List Char) (tile : Tile) (tiles : List Tile) :
    IsTiling before (tile.text ++ source) (tile :: tiles) ↔
      IsTile before tile source ∧ IsTiling (before ++ tile.text) source tiles := by
  constructor
  · intro h
    have htexts : tiles.flatMap Tile.text = source := List.append_cancel_left h.texts
    refine ⟨?_, htexts, ?_⟩
    · have hfirst := h.isTile [] tile tiles rfl
      rwa [htexts, List.flatMap_nil, List.append_nil] at hfirst
    · intro left other right htiles
      have hother := h.isTile (tile :: left) other right (congrArg (tile :: ·) htiles)
      rwa [List.flatMap_cons, ← List.append_assoc] at hother
  · rintro ⟨htile, htiles⟩
    refine ⟨congrArg (tile.text ++ ·) htiles.texts, ?_⟩
    intro left other right hsplit
    -- the tile in question is the first, or it is one of the others
    cases left with
    | nil =>
      obtain ⟨rfl, rfl⟩ := List.cons.inj hsplit
      rwa [htiles.texts, List.flatMap_nil, List.append_nil]
    | cons first left =>
      obtain ⟨rfl, hbehind⟩ := List.cons.inj hsplit
      rw [List.flatMap_cons, ← List.append_assoc]
      exact htiles.isTile left other right hbehind

/-! ## Tiling a text by its pieces -/

/-- The tile of a piece that stands behind a text. -/
def Piece.tile (before : List Char) (p : Piece) : Tile := ⟨p.text, p.item? (1 + newlines before)⟩

theorem IsSkipped.yields {text behind : List Char} (h : IsSkipped text behind) (line : Nat) :
    Yields line text none := by
  cases h with
  | blank hc => exact .blank hc
  | newline => exact .newline
  | comment hbody _ => exact .comment hbody

/-- A comment that is a longest unit goes up to its line feed, or to the end of the text. -/
theorem IsLongestUnit.head?_behind_comment {line : Nat} {source body rest : List Char}
    {out : Option Token} (h : IsLongestUnit line source ('/' :: '/' :: body) rest out)
    (hbody : '\n' ∉ body) : ∀ c, rest.head? = some c → c = '\n' := by
  intro c hc
  obtain ⟨more, rfl⟩ := List.head?_eq_some_iff.mp hc
  by_contra hne
  -- with `c` it would be a longer one
  have hlonger : Yields line ('/' :: '/' :: (body ++ [c])) none :=
    .comment (by simp [hbody, Ne.symm hne])
  have hle := h.longest _ _ hlonger ⟨more, by simp [← h.append]⟩
  simp at hle

/-- A longest unit that yields nothing is a stretch that is skipped. Being longest matters for
comments only. -/
theorem IsLongestUnit.isSkipped {line : Nat} {source text rest : List Char}
    (h : IsLongestUnit line source text rest none) : IsSkipped text rest := by
  cases h.yields with
  | blank hc => exact .blank hc
  | newline => exact .newline
  | comment hbody => exact .comment hbody (h.head?_behind_comment hbody)

theorem IsLongestUnit.isTile {before source text rest : List Char} {out : Option Token}
    (h : IsLongestUnit (1 + newlines before) source text rest out) :
    IsTile before ⟨text, out.map .ok⟩ rest := by
  refine ⟨h.ne_nil, ⟨?_, ?_⟩, ?_⟩
  · intro hout
    obtain rfl := Option.map_eq_none_iff.mp hout
    exact h.isSkipped
  · intro hskipped
    rw [h.yields.eq_of_yields (hskipped.yields _), Option.map_none]
  · intro item hitem
    obtain ⟨t, rfl, rfl⟩ := Option.map_eq_some_iff.mp hitem
    obtain ⟨hlexeme, hline, hkind⟩ := h.yields.lexeme_eq
    refine .token ?_ hline hkind
    rw [hlexeme, String.toList_ofList]

/-- A stretch where no unit starts is a tile with the fault that accounts for it. -/
theorem StartsNoUnit.isTile {before source text rest : List Char} {item : Item}
    (h : StartsNoUnit source) (happend : text ++ rest = source) (hne : text ≠ [])
    (haccounts : Accounts before text rest item) : IsTile before ⟨text, some item⟩ rest := by
  refine ⟨hne, iff_of_false (Option.some_ne_none item) ?_, ?_⟩
  · intro hskipped
    exact h 1 text none ⟨rest, happend⟩ (hskipped.yields 1)
  · intro other hother
    obtain rfl := Option.some.inj hother
    exact haccounts

theorem isTile_cut (before : List Char) (c : Char) (tail : List Char) :
    IsTile before ((Piece.cut c tail).1.tile before) (Piece.cut c tail).2 := by
  by_cases hunit : (Piece.cut c tail).1.IsUnit
  · obtain ⟨out, hout, hitem⟩ := hunit.yields (1 + newlines before)
    rw [Piece.tile, hitem]
    exact (isLongestUnit_cut hunit hout).isTile
  · have hno := (startsNoUnit_iff c tail).mpr hunit
    rcases cut_of_startsNoUnit hno with ⟨rfl, hquote, hcut⟩ | ⟨-, -, hcut⟩
    · rw [hcut]
      -- the fault is on the line that the text ends on, counted from its start or from here
      have htail : Accounts before ('"' :: tail) [] (.error ⟨.lexical, _, _⟩) :=
        .unterminated rfl hquote rfl
      have hline : 1 + newlines (before ++ '"' :: tail) = 1 + newlines before + newlines tail := by
        rw [newlines_append, Nat.add_assoc]
        rfl
      rw [hline] at htail
      exact hno.isTile (List.append_nil _) (List.cons_ne_nil _ _) htail
    · rw [hcut]
      exact hno.isTile rfl (List.cons_ne_nil _ _) (.unexpected rfl)

theorem exists_isTiling (before source : List Char) :
    ∃ tiles, IsTiling before source tiles ∧
      tiles.filterMap Tile.item? = Piece.itemsOn (1 + newlines before) (Piece.split source) := by
  fun_induction Piece.split source generalizing before with
  | case1 => exact ⟨[], .nil before, rfl⟩
  | case2 c tail ih =>
    -- the first piece goes over to the text in front, where its lines count for the others
    obtain ⟨tiles, htiles, hitems⟩ := ih (before ++ (Piece.cut c tail).1.text)
    refine ⟨(Piece.cut c tail).1.tile before :: tiles, ?_, ?_⟩
    · rw [← Piece.text_append_cut c tail]
      exact (isTiling_cons_iff _ _ _ _).mpr ⟨isTile_cut before c tail, htiles⟩
    · rw [Piece.itemsOn, Nat.add_assoc, ← newlines_append, ← hitems]
      cases h : (Piece.cut c tail).1.item? (1 + newlines before) with
      | none => exact List.filterMap_cons_none h
      | some item => exact List.filterMap_cons_some h

/-! ## Lines never decrease -/

def Item.line : Item → Nat
  | .ok t => t.line
  | .error d => d.line

/-- The line of an item is one that its tile reaches. Tiles follow one another, so this is enough
for the order of the lines. -/
theorem Accounts.line_bounds {before text behind : List Char} {item : Item}
    (h : Accounts before text behind item) :
    1 + newlines before ≤ item.line ∧ item.line ≤ 1 + newlines (before ++ text) := by
  rw [newlines_append]
  cases h with
  | token hlexeme hline hkind =>
    simp only [Item.line, hline]
    omega
  | unexpected htext =>
    simp only [Item.line]
    omega
  | unterminated htext hquote hbehind =>
    simp only [Item.line, newlines_append]
    omega

/-- The items of a tiling are on the lines of its text, and in their order. -/
theorem IsTiling.lines {before source : List Char} {tiles : List Tile}
    (h : IsTiling before source tiles) :
    (∀ item ∈ tiles.filterMap Tile.item?,
        1 + newlines before ≤ item.line ∧ item.line ≤ 1 + newlines (before ++ source)) ∧
      ((tiles.filterMap Tile.item?).map Item.line).Pairwise (· ≤ ·) := by
  induction tiles generalizing before source with
  | nil => simp
  | cons tile tiles ih =>
    have hsource : tile.text ++ tiles.flatMap Tile.text = source := h.texts
    subst hsource
    obtain ⟨htile, htiles⟩ := (isTiling_cons_iff _ _ _ _).mp h
    obtain ⟨hbounds, hlines⟩ := ih htiles
    have hstart : newlines (before ++ tile.text) = newlines before + newlines tile.text :=
      newlines_append _ _
    have hend : newlines (before ++ (tile.text ++ tiles.flatMap Tile.text)) =
        newlines (before ++ tile.text) + newlines (tiles.flatMap Tile.text) := by
      rw [← List.append_assoc, newlines_append]
    rw [List.append_assoc] at hbounds
    have hlater : ∀ item ∈ tiles.filterMap Tile.item?, 1 + newlines before ≤ item.line ∧
        item.line ≤ 1 + newlines (before ++ (tile.text ++ tiles.flatMap Tile.text)) := by
      intro item hmem
      have := hbounds item hmem
      omega
    cases hitem : tile.item? with
    | none =>
      rw [List.filterMap_cons_none hitem]
      exact ⟨hlater, hlines⟩
    | some first =>
      have hfirst := (htile.accounts first hitem).line_bounds
      rw [List.filterMap_cons_some hitem, List.map_cons, List.pairwise_cons]
      refine ⟨?_, ?_, hlines⟩
      · intro item hmem
        rcases List.mem_cons.mp hmem with rfl | hmem
        · omega
        · exact hlater item hmem
      · intro line hline
        -- the first item is on a line of its tile, and the others are behind that
        obtain ⟨item, hmem, rfl⟩ := List.mem_map.mp hline
        exact hfirst.2.trans (hbounds item hmem).1

/-- **A text is tiled, and the items of its scanner are those of the tiles.** The scan has one
token more, for the end of the text, on the line that the text ends on. From one item to the next,
and to the end, lines never decrease. -/
theorem exists_tiling (source : String) :
    ∃ tiles, IsTiling [] source.toList tiles ∧
      tiles.filterMap Tile.item? = (Scanner.ofText source).items ∧
      (scan source).tokens = (Scanner.ofText source).items.filterMap Item.token? ++
        [Token.endOfFile (1 + newlines source.toList)] ∧
      ((Scanner.ofText source).items.map Item.line ++
        [1 + newlines source.toList]).Pairwise (· ≤ ·) := by
  obtain ⟨tiles, htiles, hitems⟩ := exists_isTiling [] source.toList
  have hsource : tiles.filterMap Tile.item? = (Scanner.ofText source).items := by
    rw [hitems, Scanner.items_eq]
    rfl
  obtain ⟨hbounds, hlines⟩ := htiles.lines
  rw [hsource] at hbounds hlines
  refine ⟨tiles, htiles, hsource, tokens_scan source, ?_⟩
  refine List.pairwise_append.mpr ⟨hlines, List.pairwise_singleton _ _, ?_⟩
  intro line hline last hlast
  obtain ⟨item, hitem, rfl⟩ := List.mem_map.mp hline
  rw [List.mem_singleton.mp hlast]
  exact (hbounds item hitem).2

end ScriptLexer
