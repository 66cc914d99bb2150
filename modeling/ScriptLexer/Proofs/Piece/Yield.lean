import ScriptLexer.Proofs.Numeral.Value
import ScriptLexer.Proofs.Piece.Cutting
import ScriptLexer.Scan

/-!
# The patterns of the language

The unit patterns, each with what a unit of it yields, as a relation that knows of no procedure
(`Yields`): a number yields whatever binary64 is nearest to what its text spells, and a word is a
keyword or an identifier by its text alone. **The pieces that the grammar allows are the units of
these patterns, and mean what the patterns yield** (`Yields.exists_piece`, `Piece.IsUnit.yields`),
so that what is said of a pattern holds of every token of a scan (`yields_of_mem_tokens`).

The relation is what a reader of the language would write down, and is the one to check against its
description. It stands apart from the pieces on purpose: where a piece *computes* the double of a
numeral or looks a word up in a table, a pattern says what the double or the keyword has to be.
-/

set_option autoImplicit false

namespace ScriptLexer

/-- The text is a unit, and yields this token, or none, when it starts on the line. Blanks, line
feeds and comments are units that yield nothing. Faults are not units: a text that is none of these
yields nothing because it is not related to anything. -/
inductive Yields (line : Nat) : List Char → Option Token → Prop
  | blank {c : Char} (hc : c = ' ' ∨ c = '\t' ∨ c = '\r') : Yields line [c] none
  | newline : Yields line ['\n'] none
  | comment {body : List Char} (hbody : '\n' ∉ body) : Yields line ('/' :: '/' :: body) none
  | operator (o : Operator) :
    Yields line o.text (some ⟨.operator o, String.ofList o.text, none, line⟩)
  | string {contents : List Char} (hcontents : '"' ∉ contents) :
    Yields line ('"' :: contents ++ ['"']) (some ⟨.string,
      String.ofList ('"' :: contents ++ ['"']), some (.string (String.ofList contents)), line⟩)
  | number {lexeme : List Char} {v : ℚ} {x : Binary64} (hv : Numeral.Denotes lexeme v)
    (hx : Binary64.IsNearest v x) :
    Yields line lexeme (some ⟨.number, String.ofList lexeme, some (.number x), line⟩)
  | keyword {lexeme : List Char} {k : Keyword} (hword : IsWord lexeme) (hk : k.text = lexeme) :
    Yields line lexeme (some ⟨.keyword k, String.ofList lexeme, none, line⟩)
  | identifier {lexeme : List Char} (hword : IsWord lexeme)
    (hk : ∀ k : Keyword, k.text ≠ lexeme) :
    Yields line lexeme (some ⟨.identifier, String.ofList lexeme, none, line⟩)

/-! ## Patterns and pieces -/

theorem isBlank_iff (c : Char) : isBlank c = true ↔ c = ' ' ∨ c = '\t' ∨ c = '\r' := by
  simp [isBlank, or_assoc]

/-- Whatever a pattern yields, the piece with that text means it. -/
theorem Yields.exists_piece {line : Nat} {text : List Char} {out : Option Token}
    (h : Yields line text out) :
    ∃ p : Piece, p.IsUnit ∧ p.text = text ∧ p.item? line = out.map .ok := by
  cases h with
  | @blank c hc => exact ⟨.blank c, (isBlank_iff c).mpr hc, rfl, rfl⟩
  | newline => exact ⟨.newline, trivial, rfl, rfl⟩
  | @comment body hbody => exact ⟨.comment body, hbody, rfl, rfl⟩
  | operator o => exact ⟨.operator o, trivial, rfl, rfl⟩
  | @string contents hcontents => exact ⟨.string contents, hcontents, rfl, rfl⟩
  | @number _ v x hv hx =>
    -- the grammar allows any nearest number, the scanner reads one; there is one only
    obtain ⟨y, hy, hitem⟩ := hv.numberItem line
    refine ⟨.number text, hv.isNumeral, rfl, ?_⟩
    rw [hx.unique hy]
    exact congrArg some hitem
  | @keyword _ k hword hk =>
    refine ⟨.word text, hword, rfl, ?_⟩
    simp only [Piece.item?, Kind.ofWord, Keyword.ofText?_eq_some_iff.mpr hk, Option.map_some]
  | identifier hword hk =>
    refine ⟨.word text, hword, rfl, ?_⟩
    simp only [Piece.item?, Kind.ofWord, Keyword.ofText?_eq_none_iff.mpr hk, Option.map_some]

/-- Every unit is of some pattern, and means what the pattern yields. -/
theorem Piece.IsUnit.yields {p : Piece} (hp : p.IsUnit) (line : Nat) :
    ∃ out, Yields line p.text out ∧ p.item? line = out.map .ok := by
  cases p with
  | blank c => exact ⟨none, .blank ((isBlank_iff c).mp hp), rfl⟩
  | newline => exact ⟨none, .newline, rfl⟩
  | comment body => exact ⟨none, .comment hp, rfl⟩
  | operator o => exact ⟨_, .operator o, rfl⟩
  | string contents => exact ⟨_, .string hp, rfl⟩
  | number lexeme =>
    obtain ⟨v, hv⟩ := Numeral.exists_denotes hp
    obtain ⟨x, hx, hitem⟩ := hv.numberItem line
    exact ⟨_, .number hv hx, congrArg some hitem⟩
  | word lexeme =>
    -- a word is a keyword if the table has it, and a name if it has not
    cases hk : Keyword.ofText? lexeme with
    | none =>
      refine ⟨_, .identifier hp (Keyword.ofText?_eq_none_iff.mp hk), ?_⟩
      simp only [Piece.item?, Piece.text, Kind.ofWord, hk, Option.map_some]
    | some k =>
      refine ⟨_, .keyword hp (Keyword.ofText?_eq_some_iff.mp hk), ?_⟩
      simp only [Piece.item?, Piece.text, Kind.ofWord, hk, Option.map_some]
  | stray => exact hp.elim
  | openString => exact hp.elim

/-- A unit yields one thing, although a pattern like that of numbers does not say how to find it. -/
theorem Yields.eq_of_yields {line : Nat} {text : List Char} {out out' : Option Token}
    (h : Yields line text out) (h' : Yields line text out') : out = out' := by
  obtain ⟨p, hp, htext, hitem⟩ := h.exists_piece
  obtain ⟨q, hq, htext', hitem'⟩ := h'.exists_piece
  obtain rfl := Piece.eq_of_text_eq hp hq (htext.trans htext'.symm)
  exact Option.map_injective (fun _ _ => Except.ok.inj) (hitem.symm.trans hitem')

/-- A token that a unit yields has the text of the unit as its lexeme, is on the line that the
unit starts on, and does not end a scan. -/
theorem Yields.lexeme_eq {line : Nat} {text : List Char} {t : Token}
    (h : Yields line text (some t)) :
    t.lexeme = String.ofList text ∧ t.line = line ∧ t.kind ≠ .endOfFile := by
  cases h <;> exact ⟨rfl, rfl, by simp⟩

/-! ## The tokens of a scan -/

theorem Piece.exists_of_mem_itemsOn {item : Item} {line : Nat} {ps : List Piece}
    (h : item ∈ itemsOn line ps) :
    ∃ p ∈ ps, ∃ start, p.item? start = some item := by
  induction ps generalizing line with
  | nil => simp [itemsOn] at h
  | cons p ps ih =>
    rcases List.mem_append.mp h with h | h
    · exact ⟨p, List.mem_cons_self, line, Option.mem_toList.mp h⟩
    · obtain ⟨q, hq, start, hitem⟩ := ih h
      exact ⟨q, List.mem_cons_of_mem p hq, start, hitem⟩

theorem Piece.yields_of_mem_split {source : List Char} {p : Piece} (hp : p ∈ split source)
    {line : Nat} {t : Token} (h : p.item? line = some (.ok t)) : Yields line p.text (some t) := by
  rcases isUnit_of_mem_split hp with hunit | ⟨c, rfl⟩ | ⟨contents, rfl, -⟩
  · obtain ⟨out, hout, hmeans⟩ := hunit.yields line
    obtain ⟨u, rfl, hu⟩ := Option.map_eq_some_iff.mp (hmeans.symm.trans h)
    rwa [← Except.ok.inj hu]
  · simp [item?] at h
  · simp [item?] at h

theorem Item.eq_ok_of_token? {item : Item} {t : Token} (h : item.token? = some t) :
    item = .ok t := by
  cases item with
  | ok u => exact congrArg Except.ok (Option.some.inj h)
  | error d => simp [Item.token?] at h

/-- The token is one that a scan may hold: the token for the end of a text, or one that the unit
that is its lexeme yields. Most tokens that can be written down are not, a keyword with a literal
for instance. -/
def Token.IsScanned (t : Token) : Prop :=
  t = endOfFile t.line ∨ Yields t.line t.lexeme.toList (some t)

/-- The token comes from an item, the item from a piece, and the piece is a unit of some pattern. -/
theorem isScanned_of_mem_tokens {source : String} {t : Token} (ht : t ∈ (scan source).tokens) :
    t.IsScanned := by
  rw [tokens_scan, Scanner.items_eq] at ht
  rcases List.mem_append.mp ht with ht | ht
  · obtain ⟨item, hitem, htoken⟩ := List.mem_filterMap.mp ht
    obtain ⟨p, hmem, start, hp⟩ := Piece.exists_of_mem_itemsOn hitem
    rw [Item.eq_ok_of_token? htoken] at hp
    have hyields := Piece.yields_of_mem_split hmem hp
    obtain ⟨hlexeme, hline, -⟩ := hyields.lexeme_eq
    refine Or.inr ?_
    rwa [hlexeme, hline, String.toList_ofList]
  · obtain rfl := List.mem_singleton.mp ht
    exact Or.inl rfl

/-- **Every token of a scan is yielded by the unit that is its lexeme**, but for the one that ends
the scan. -/
theorem yields_of_mem_tokens {source : String} {t : Token} (ht : t ∈ (scan source).tokens)
    (hkind : t.kind ≠ .endOfFile) : Yields t.line t.lexeme.toList (some t) := by
  refine (isScanned_of_mem_tokens ht).resolve_left fun hend => hkind ?_
  rw [hend, Token.endOfFile]

end ScriptLexer
