import ScriptLexer.Proofs.Piece.Yield

/-!
# The scanner is a longest-match scanner

The scanner decides by one or two characters and never gives anything back. The reference here
knows of no characters: it tries every prefix of the text against every pattern of the language,
takes the longest one that is a unit, and goes on behind it (`Munches`). **The two yield the same
items for every text** (`munches_iff_items`), so nothing the scanner takes greedily could have been
part of a longer unit, and nothing it gives up could have been the start of one.

The relation is total and has one outcome, and neither is in its definition: the first is that the
scanner's items satisfy it (`munches_itemsOn_split`), the second that whatever satisfies it is these
items (`Munches.itemsOn_eq`).
-/

set_option autoImplicit false

namespace ScriptLexer

/-! ## The reference -/

/-- Of all the prefixes of `source` that are units, `text` is the longest. It is not empty, `rest`
is what follows it, and it yields `out` when it starts on the line. Which of two prefixes is longer
does not depend on their patterns, so a keyword is no better than an identifier of the same text. -/
structure IsLongestUnit (line : Nat) (source text rest : List Char) (out : Option Token) :
    Prop where
  append : text ++ rest = source
  ne_nil : text ≠ []
  yields : Yields line text out
  longest : ∀ other out', Yields line other out' → other <+: source → other.length ≤ text.length

/-- No prefix of the text is a unit, of any pattern and on any line. -/
def StartsNoUnit (source : List Char) : Prop :=
  ∀ line text out, text <+: source → ¬ Yields line text out

/-- From the line on, the text has these items by longest match. Where no unit starts, a quote is
a string that is open to the end of the text, and any other character is a fault by itself. -/
inductive Munches : Nat → List Char → List Item → Prop
  | done {line : Nat} : Munches line [] []
  | skipped {line : Nat} {source text rest : List Char} {items : List Item}
    (h : IsLongestUnit line source text rest none)
    (hrest : Munches (line + newlines text) rest items) : Munches line source items
  | token {line : Nat} {source text rest : List Char} {t : Token} {items : List Item}
    (h : IsLongestUnit line source text rest (some t))
    (hrest : Munches (line + newlines text) rest items) : Munches line source (.ok t :: items)
  | unterminated {line : Nat} {rest : List Char} (h : StartsNoUnit ('"' :: rest)) :
    Munches line ('"' :: rest)
      [.error ⟨.lexical, line + newlines ('"' :: rest), "Unterminated string."⟩]
  | unexpected {line : Nat} {c : Char} {rest : List Char} {items : List Item} (hc : c ≠ '"')
    (h : StartsNoUnit (c :: rest)) (hrest : Munches line rest items) :
    Munches line (c :: rest)
      (.error ⟨.lexical, line, "Unexpected character '" ++ c.toString ++ "'."⟩ :: items)

/-! ## What is cut is the longest unit -/

/-- Any unit that a text starts with is a prefix of the unit that is cut off. -/
theorem Yields.prefix_text_cut {line : Nat} {text : List Char} {out : Option Token}
    (h : Yields line text out) {c : Char} {tail : List Char} (hstart : text <+: c :: tail) :
    (Piece.cut c tail).1.IsUnit ∧ text <+: (Piece.cut c tail).1.text := by
  obtain ⟨p, hp, rfl, -⟩ := h.exists_piece
  obtain ⟨rest, hrest⟩ := hstart
  obtain ⟨hunit, more, hmore⟩ := Piece.exists_text_cut_append hp hrest
  exact ⟨hunit, more, hmore.symm⟩

theorem isLongestUnit_cut {c : Char} {tail : List Char} (hunit : (Piece.cut c tail).1.IsUnit)
    {line : Nat} {out : Option Token} (hout : Yields line (Piece.cut c tail).1.text out) :
    IsLongestUnit line (c :: tail) (Piece.cut c tail).1.text (Piece.cut c tail).2 out where
  append := Piece.text_append_cut c tail
  ne_nil := Piece.text_ne_nil_of_isUnit hunit
  yields := hout
  longest := fun _ _ hother hstart => (hother.prefix_text_cut hstart).2.length_le

theorem IsLongestUnit.exists_cons {line : Nat} {source text rest : List Char}
    {out : Option Token} (h : IsLongestUnit line source text rest out) :
    ∃ c tail, source = c :: tail :=
  List.exists_cons_of_ne_nil (h.append ▸ List.append_ne_nil_of_left_ne_nil h.ne_nil rest)

/-- The longest unit is what is cut off, and means what it yields. -/
theorem IsLongestUnit.cut_eq {line : Nat} {c : Char} {tail text rest : List Char}
    {out : Option Token} (h : IsLongestUnit line (c :: tail) text rest out) :
    ∃ p, Piece.cut c tail = (p, rest) ∧ p.text = text ∧ p.item? line = out.map .ok := by
  obtain ⟨hunit, hstart⟩ := h.yields.prefix_text_cut ⟨rest, h.append⟩
  obtain ⟨out', hout', hitem⟩ := hunit.yields line
  have hcut := isLongestUnit_cut hunit hout'
  -- each of the two is as long as the other, and both start the same text
  have htext : text = (Piece.cut c tail).1.text :=
    hstart.eq_of_length_le (h.longest _ _ hout' ⟨_, hcut.append⟩)
  have hrest : (Piece.cut c tail).2 = rest := by
    refine List.append_cancel_left (hcut.append.trans ?_)
    rw [← htext, h.append]
  subst htext
  refine ⟨_, Prod.ext rfl hrest, rfl, ?_⟩
  rw [hitem, hout'.eq_of_yields h.yields]

/-- Where no unit starts, no unit is cut off, and the other way about. What is cut there is one of
the two faults. -/
theorem startsNoUnit_iff (c : Char) (tail : List Char) :
    StartsNoUnit (c :: tail) ↔ ¬ (Piece.cut c tail).1.IsUnit := by
  constructor
  · intro h hunit
    obtain ⟨out, hout, -⟩ := hunit.yields 1
    exact h 1 _ _ ⟨_, Piece.text_append_cut c tail⟩ hout
  · intro h line text out hstart hyields
    exact h (hyields.prefix_text_cut hstart).1

/-- What is cut off where no unit starts. A line feed is always a unit, so a fault of one character
does not move the line. -/
theorem cut_of_startsNoUnit {c : Char} {tail : List Char} (h : StartsNoUnit (c :: tail)) :
    c = '"' ∧ '"' ∉ tail ∧ Piece.cut c tail = (.openString tail, []) ∨
      c ≠ '"' ∧ c ≠ '\n' ∧ Piece.cut c tail = (.stray c, tail) := by
  have hnot := (startsNoUnit_iff c tail).mp h
  rcases Piece.isUnit_cut c tail with hunit | hstray | ⟨hopen, hc, hquote⟩
  · exact absurd hunit hnot
  · refine Or.inr ⟨?_, ?_, hstray⟩
    · rintro rfl
      rw [Piece.cut_quote, Piece.cutString] at hstray
      split at hstray <;> simp at hstray
    · rintro rfl
      simp [Piece.cut_newline] at hstray
  · exact Or.inl ⟨hc, hquote, hopen⟩

/-! ## The two yield the same -/

theorem itemsOn_split_cons {line : Nat} {c : Char} {tail rest : List Char} {p : Piece}
    (h : Piece.cut c tail = (p, rest)) :
    Piece.itemsOn line (Piece.split (c :: tail)) =
      (p.item? line).toList ++ Piece.itemsOn (line + newlines p.text) (Piece.split rest) := by
  rw [Piece.split, h, Piece.itemsOn]

/-- The scanner's items are reached by longest match: one step of the relation for each piece. -/
theorem munches_itemsOn_split (line : Nat) (source : List Char) :
    Munches line source (Piece.itemsOn line (Piece.split source)) := by
  fun_induction Piece.split source generalizing line with
  | case1 => exact .done
  | case2 c tail ih =>
    rw [Piece.itemsOn]
    by_cases hunit : (Piece.cut c tail).1.IsUnit
    · obtain ⟨out, hout, hitem⟩ := hunit.yields line
      rw [hitem]
      cases out with
      | none => exact .skipped (isLongestUnit_cut hunit hout) (ih _)
      | some t => exact .token (isLongestUnit_cut hunit hout) (ih _)
    · -- nothing is left behind an open string, and a stray character does not move the line
      have hno := (startsNoUnit_iff c tail).mpr hunit
      rcases cut_of_startsNoUnit hno with ⟨rfl, -, h⟩ | ⟨hquote, hnewline, h⟩
      · rw [h, Piece.split, Piece.itemsOn]
        exact .unterminated hno
      · rw [h] at ih ⊢
        rw [Piece.newlines_text_stray hnewline, Nat.add_zero]
        exact .unexpected hquote hno (ih line)

/-- Nothing else is. The induction is on the relation, and each of its rules fixes what is cut. -/
theorem Munches.itemsOn_eq {line : Nat} {source : List Char} {items : List Item}
    (h : Munches line source items) : Piece.itemsOn line (Piece.split source) = items := by
  induction h with
  | done => rw [Piece.split, Piece.itemsOn]
  | @skipped line source text rest items h hrest ih =>
    obtain ⟨c, tail, rfl⟩ := h.exists_cons
    obtain ⟨p, hcut, rfl, hitem⟩ := h.cut_eq
    rw [itemsOn_split_cons hcut, hitem, ih]
    rfl
  | @token line source text rest t items h hrest ih =>
    obtain ⟨c, tail, rfl⟩ := h.exists_cons
    obtain ⟨p, hcut, rfl, hitem⟩ := h.cut_eq
    rw [itemsOn_split_cons hcut, hitem, ih]
    rfl
  -- in both rules for faults no unit starts, so what is cut off is an open string or one character
  | @unterminated line rest h =>
    rcases cut_of_startsNoUnit h with ⟨-, -, hcut⟩ | ⟨hquote, -⟩
    · rw [itemsOn_split_cons hcut, Piece.split, Piece.itemsOn]
      rfl
    · contradiction
  | @unexpected line c rest items hc h hrest ih =>
    rcases cut_of_startsNoUnit h with ⟨hquote, -⟩ | ⟨-, hnewline, hcut⟩
    · contradiction
    · rw [itemsOn_split_cons hcut, Piece.newlines_text_stray hnewline, Nat.add_zero, ih]
      rfl

/-- The items of a text are the ones that are reached by longest match, and no others are. So are
the tokens and the diagnostics of its scan, with one token more for the end of the text. -/
theorem munches_iff_items (source : String) :
    (∀ items, Munches 1 source.toList items ↔ (Scanner.ofText source).items = items) ∧
      ∀ items, Munches 1 source.toList items →
        (scan source).tokens = items.filterMap Item.token? ++
            [Token.endOfFile (1 + newlines source.toList)] ∧
          (scan source).diagnostics = items.filterMap Item.diagnostic? := by
  have hiff : ∀ items, Munches 1 source.toList items ↔ (Scanner.ofText source).items = items := by
    intro items
    rw [Scanner.items_eq]
    constructor
    · exact Munches.itemsOn_eq
    · rintro rfl
      exact munches_itemsOn_split 1 source.toList
  refine ⟨hiff, ?_⟩
  intro items h
  obtain rfl := (hiff items).mp h
  exact ⟨tokens_scan source, Scanner.diagnostics_finish _⟩

/-- A mark with a sign but no digits behind it is no exponent: the numeral ends in front of it. -/
theorem munches_mark_without_digits :
    Munches 1 "1e+x".toList [.ok ⟨.number, "1", some (.number ⟨0x3FF0000000000000⟩), 1⟩,
        .ok ⟨.identifier, "e", none, 1⟩, .ok ⟨.operator .plus, "+", none, 1⟩,
        .ok ⟨.identifier, "x", none, 1⟩] ∧
      (scan "1e+x").diagnostics = [] := by
  obtain ⟨hitems, hscan⟩ := munches_iff_items "1e+x"
  have h := (hitems _).mpr (by decide +kernel : (Scanner.ofText "1e+x").items =
    [.ok ⟨.number, "1", some (.number ⟨0x3FF0000000000000⟩), 1⟩,
      .ok ⟨.identifier, "e", none, 1⟩, .ok ⟨.operator .plus, "+", none, 1⟩,
      .ok ⟨.identifier, "x", none, 1⟩])
  exact ⟨h, (hscan _ h).2⟩

end ScriptLexer
