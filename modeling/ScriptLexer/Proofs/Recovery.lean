import ScriptLexer.Proofs.OpenString

/-!
# A stray character costs itself only

A character that starts nothing is reported, and the scanner goes on behind it. **With a space in
the place of every character that is reported, a text has the same tokens, and no report but that of
an open string** (`scan_blankReported`): a stray character parts what is on its sides exactly as a
blank does. The same character may be part of a word, a string or a comment elsewhere in the text
and stays there, so what is replaced is decided by where the scanner stands when it reports
(`Scanner.blankReported`), and not by the character.

The replacement is defined by the calls of the scanner and shown to be that of the stray pieces
(`Scanner.blankReported_eq`). Pieces are what the proof goes by, but a definition by pieces would
say little about what a user sees reported.
-/

set_option autoImplicit false

namespace ScriptLexer

/-! ## What is reported where

The replacement as a user would make it: scan, look which reports are of a character, and put a
space at each place. It is a recursion on the calls of the scanner and ends because each of them
takes something.
-/

/-- Whether the item reports a character that was not expected. It is known by its message, as it
would be to somebody who has only the diagnostics. -/
def Item.reportsCharacter : Item → Bool
  | .ok _ => false
  | .error d => "Unexpected character".toList.isPrefixOf d.message.toList

/-- Of the three faults one starts with these words, and none of the others does whatever it quotes.
-/
theorem Item.reportsCharacter_onLine (fault : Fault) (line : Nat) :
    Item.reportsCharacter (.error (fault.onLine line)) = true ↔
      ∃ c, fault = .unexpectedCharacter c := by
  rw [reportsCharacter, List.isPrefixOf_iff_prefix]
  cases fault with
  | unexpectedCharacter c =>
    refine iff_of_true ⟨[' ', '\''] ++ c.toString.toList ++ "'.".toList, ?_⟩ ⟨c, rfl⟩
    change _ = ("Unexpected character '" ++ c.toString ++ "'.").toList
    simp
  | unterminatedString =>
    refine iff_of_false ?_ (by simp)
    change ¬ "Unexpected character".toList <+: "Unterminated string.".toList
    decide
  | unreadableNumber lexeme =>
    refine iff_of_false ?_ (by simp)
    change ¬ _ <+: ("'" ++ lexeme ++ "' was scanned as a number but is not a valid float.").toList
    simp

namespace Scanner

/-- The text that is left, with a space for every character in it that the scanner reports. A
character is reported as soon as it is taken, so it is the last one that the scanner has taken when
it reports. -/
def blankReported (s : Scanner) : List Char :=
  match _ : s.next with
  | (none, _) => s.rest
  | (some item, after) =>
    let taken := s.rest.take (s.rest.length - after.rest.length)
    (if Item.reportsCharacter item then taken.dropLast ++ [' '] else taken) ++ after.blankReported
termination_by s.rest.length
decreasing_by exact length_rest_next_lt ‹s.next = _›

end Scanner

/-- The text with a space for every character in it that its scanner reports. -/
def blankReported (source : String) : String :=
  String.ofList (Scanner.ofText source).blankReported

/-! ## By pieces

The same replacement made piece by piece. It does not move the boundaries of the other pieces: what
stands in front of the character stands in front of the space as well, since the two sorts of pieces
that go on with a space, a comment and an open string, would have taken the character along.
-/

namespace Piece

/-- The piece with a space for a stray character. A blank is a unit that means nothing, which is
what the scanner makes of the character, too. -/
def blanked : Piece → Piece
  | stray _ => blank ' '
  | p => p

theorem blanked_of_ne_stray {p : Piece} (h : ∀ c, p ≠ stray c) : p.blanked = p := by
  cases p with
  | stray c => exact absurd rfl (h c)
  | _ => rfl

theorem reportsCharacter_iff {p : Piece} {line : Nat} {item : Item} (h : p.item? line = some item) :
    item.reportsCharacter = true ↔ ∃ c, p = stray c := by
  cases p with
  | stray c =>
    obtain rfl := Option.some.inj h
    exact iff_of_true ((Item.reportsCharacter_onLine _ line).mpr ⟨c, rfl⟩) ⟨c, rfl⟩
  | openString contents =>
    obtain rfl := Option.some.inj h
    refine iff_of_false (fun hreports => ?_) (by simp)
    obtain ⟨c, hc⟩ := (Item.reportsCharacter_onLine _ _).mp hreports
    exact Fault.noConfusion hc
  | number lexeme =>
    refine iff_of_false (fun hreports => ?_) (by simp)
    obtain rfl := Option.some.inj h
    rw [numberItem] at hreports
    split at hreports
    · contradiction
    · obtain ⟨c, hc⟩ := (Item.reportsCharacter_onLine _ _).mp hreports
      exact Fault.noConfusion hc
  | operator o | string contents | word lexeme =>
    obtain rfl := Option.some.inj h
    exact iff_of_false Bool.false_ne_true (by simp)
  | _ => contradiction

/-- The text with a space for each of its stray characters. -/
def blankedText (source : List Char) : List Char := (split source).flatMap fun p => p.blanked.text

@[simp] theorem blankedText_nil : blankedText [] = [] := by
  simp [blankedText]

theorem StandsBefore.blankedText_append {p : Piece} {rest : List Char} (h : p.StandsBefore rest) :
    blankedText (p.text ++ rest) = p.blanked.text ++ blankedText rest := by
  rw [blankedText, h.split_append, List.flatMap_cons, blankedText]

/-- Up to the first stray character nothing is changed. This is the form that
`StandsBefore.exchange` asks for: what is kept, and from where on everything may be different. -/
theorem blankedText_cases (source : List Char) :
    blankedText source = source ∨
      ∃ kept c old new, source = kept ++ c :: old ∧ IsStray c ∧
        blankedText source = kept ++ ' ' :: new := by
  induction source using piece_induction with
  | nil => exact Or.inl blankedText_nil
  | piece p rest hp ih =>
    rw [hp.blankedText_append]
    rcases hp.cases with hunit | ⟨c, rfl, hc⟩ | ⟨contents, rfl, -, rfl⟩
    · have hsame : p.blanked = p := blanked_of_ne_stray (by rintro c rfl; exact hunit)
      rw [hsame]
      rcases ih with heq | ⟨kept, c, old, new, rfl, hc, heq⟩
      · exact Or.inl (congrArg (p.text ++ ·) heq)
      · refine Or.inr ⟨p.text ++ kept, c, old, new, (List.append_assoc _ _ _).symm, hc, ?_⟩
        rw [heq, List.append_assoc]
    · exact Or.inr ⟨[], c, rest, blankedText rest, rfl, hc, rfl⟩
    · exact Or.inl (by simp [blanked])

/-- Every piece stands before the changed text as well, with a space in its place if it is a stray
character. -/
theorem StandsBefore.before_blankedText {p : Piece} {rest : List Char} (h : p.StandsBefore rest) :
    p.blanked.StandsBefore (blankedText rest) := by
  by_cases hstray : ∃ c, p = stray c
  · obtain ⟨c, rfl⟩ := hstray
    exact IsUnit.standsBefore (p := blank ' ') rfl fun _ _ => rfl
  rw [blanked_of_ne_stray (not_exists.mp hstray)]
  rcases blankedText_cases rest with heq | ⟨kept, c, old, new, rfl, hc, heq⟩
  · rwa [heq]
  · rw [heq]
    refine h.exchange (.cons hc.isPart_eq_false) (.cons rfl) ?_
    rintro rfl
    -- only a comment or an open string could go on with the space, and would with `c` as well
    have hnext := h.continues_eq_false hc.continues_eq_false
    refine .cons (continues_of_separates rfl ?_ ?_)
    · rintro body rfl
      exact hc.not_newline (by simpa [continues] using hnext)
    · rintro contents rfl
      exact List.cons_ne_nil _ _ h.of_openString.2

/-- **A text with spaces for its stray characters has the same pieces**, but for those. -/
theorem split_blankedText (source : List Char) :
    split (blankedText source) = (split source).map blanked := by
  induction source using piece_induction with
  | nil => simp
  | piece p rest hp ih =>
    rw [hp.blankedText_append, hp.before_blankedText.split_append, ih, hp.split_append,
      List.map_cons]

/-- A stray character among the pieces of a text is one by itself, and so it is no line feed. -/
theorem isStray_of_mem_split {source : List Char} {c : Char} (h : stray c ∈ split source) :
    IsStray c := by
  induction source using piece_induction with
  | nil => simp at h
  | piece p rest hp ih =>
    rw [hp.split_append] at h
    rcases List.mem_cons.mp h with rfl | h
    · exact hp.of_stray
    · exact ih h

theorem newlines_blanked {p : Piece} (h : ∀ c, p = stray c → c ≠ '\n') :
    newlines p.blanked.text = newlines p.text := by
  cases p with
  | stray c => simp [blanked, text, newlines, h c rfl]
  | _ => rfl

@[simp] theorem newlines_blankedText (source : List Char) :
    newlines (blankedText source) = newlines source := by
  induction source using piece_induction with
  | nil => simp
  | piece p rest hp ih =>
    have hfirst : newlines p.blanked.text = newlines p.text := by
      refine newlines_blanked ?_
      rintro c rfl
      exact hp.of_stray.not_newline
    rw [hp.blankedText_append, newlines_append, newlines_append, hfirst, ih]

/-- With spaces for stray characters the pieces mean the same, but for the reports of these. -/
theorem itemsOn_map_blanked {ps : List Piece} (h : ∀ c, stray c ∈ ps → c ≠ '\n') (line : Nat) :
    itemsOn line (ps.map blanked) =
      (itemsOn line ps).filter fun item => !item.reportsCharacter := by
  induction ps generalizing line with
  | nil => rfl
  | cons p ps ih =>
    have hbehind := ih fun c hmem => h c (List.mem_cons_of_mem p hmem)
    rw [List.map_cons, itemsOn, itemsOn, List.filter_append, ← hbehind]
    by_cases hstray : ∃ c, p = stray c
    · obtain ⟨c, rfl⟩ := hstray
      -- a space for a line feed would move the lines, so the character must be none
      have hline : newlines (stray c).blanked.text = newlines (stray c).text := by
        refine newlines_blanked fun d heq => ?_
        rw [← stray.inj heq]
        exact h c List.mem_cons_self
      have hreports := (Item.reportsCharacter_onLine (.unexpectedCharacter c) line).mpr ⟨c, rfl⟩
      have hitem : ((stray c).item? line).toList =
          [.error ((Fault.unexpectedCharacter c).onLine line)] := rfl
      rw [hitem, List.filter_cons_of_neg (by simp [hreports]), ← hline]
      rfl
    · rw [blanked_of_ne_stray (not_exists.mp hstray)]
      cases hitem : p.item? line with
      | none => rfl
      | some item =>
        have hreports : item.reportsCharacter = false := by
          simpa using mt (reportsCharacter_iff hitem).mp hstray
        simp [hreports]

end Piece

/-! ## By the steps of the scanner

One call may skip any number of pieces before the one that it reports, so a call is taken apart into
the pieces it goes over, and the text it replaces into their texts.
-/

namespace Scanner

theorem blankReported_of_next_eq_none {s after : Scanner} (h : s.next = (none, after)) :
    s.blankReported = s.rest := by
  rw [blankReported]
  split
  · rfl
  · rename_i heq
    rw [h] at heq
    cases heq

/-- A step with a report replaces the last character that it has taken, and one without replaces
nothing. -/
theorem blankReported_of_next_eq_some {s after : Scanner} {item : Item}
    (h : s.next = (some item, after)) {taken : List Char} (htaken : s.rest = taken ++ after.rest) :
    s.blankReported =
      (if item.reportsCharacter then taken.dropLast ++ [' '] else taken) ++
        after.blankReported := by
  have htake : s.rest.take (s.rest.length - after.rest.length) = taken := by
    rw [htaken, List.length_append, Nat.add_sub_cancel, List.take_left]
  rw [blankReported]
  split
  · rename_i heq
    rw [h] at heq
    cases heq
  · rename_i heq
    rw [h] at heq
    cases heq
    rw [htake]

/-- What a step takes is in front of what it leaves, and the line feeds in it are counted. -/
theorem exists_taken (s : Scanner) :
    ∃ taken, s.rest = taken ++ s.next.2.rest ∧ s.next.2.line = s.line + newlines taken := by
  fun_induction next s with
  | case1 line => exact ⟨[], rfl, rfl⟩
  | case2 => exact ⟨_, (Piece.text_append_cut _ _).symm, rfl⟩
  | case3 _ _ _ piece _ _ ih =>
    obtain ⟨taken, htaken, hline⟩ := ih
    refine ⟨piece.text ++ taken, ?_, ?_⟩
    · rw [List.append_assoc, ← htaken]
      exact (Piece.text_append_cut _ _).symm
    · rw [hline, newlines_append, ← Nat.add_assoc]

/-- What is skipped is not changed. The step that skips it takes more than the piece that it
reports, and only the last character of all that is replaced. -/
theorem blankReported_of_next_eq {s t : Scanner} (h : s.next = t.next) {skipped : List Char}
    (hskipped : s.rest = skipped ++ t.rest) :
    s.blankReported = skipped ++ t.blankReported := by
  rcases hnext : t.next with ⟨_ | item, after⟩
  · rw [blankReported_of_next_eq_none (h.trans hnext), blankReported_of_next_eq_none hnext,
      hskipped]
  · obtain ⟨taken, htaken, -⟩ := exists_taken t
    rw [hnext] at htaken
    have hne : taken ≠ [] := by
      rintro rfl
      have hlt := length_rest_next_lt hnext
      rw [htaken] at hlt
      exact Nat.lt_irrefl _ hlt
    have hlonger : s.rest = skipped ++ taken ++ after.rest := by
      rw [hskipped, htaken, List.append_assoc]
    rw [blankReported_of_next_eq_some (h.trans hnext) hlonger,
      blankReported_of_next_eq_some hnext htaken, List.dropLast_append_of_ne_nil hne]
    split <;> simp only [List.append_assoc]

theorem next_append_of_some {p : Piece} {rest : List Char} (h : p.StandsBefore rest) {line : Nat}
    {item : Item} (hitem : p.item? line = some item) :
    next ⟨p.text ++ rest, line⟩ = (some item, ⟨rest, line + newlines p.text⟩) := by
  obtain ⟨c, tail, hsource, hcut⟩ := h
  simp only [hsource, next_cons, hcut, hitem]

theorem next_append_of_none {p : Piece} {rest : List Char} (h : p.StandsBefore rest) {line : Nat}
    (hitem : p.item? line = none) :
    next ⟨p.text ++ rest, line⟩ = next ⟨rest, line + newlines p.text⟩ := by
  obtain ⟨c, tail, hsource, hcut⟩ := h
  simp only [hsource, next_cons, hcut, hitem]

/-- **What the scanner reports are the stray characters**, each where it stands. -/
theorem blankReported_eq (text : List Char) (line : Nat) :
    blankReported ⟨text, line⟩ = Piece.blankedText text := by
  induction text using Piece.piece_induction generalizing line with
  | nil =>
    rw [blankReported_of_next_eq_none (next_of_rest_eq_nil line), Piece.blankedText_nil]
  | piece p rest hp ih =>
    rw [hp.blankedText_append, ← ih (line + newlines p.text)]
    -- a piece without an item is gone over by the call that yields a later one
    cases hitem : p.item? line with
    | none =>
      have hsame : p.blanked = p := by
        refine Piece.blanked_of_ne_stray ?_
        rintro c rfl
        contradiction
      rw [blankReported_of_next_eq (next_append_of_none hp hitem) rfl, hsame]
    | some item =>
      rw [blankReported_of_next_eq_some (next_append_of_some hp hitem) rfl]
      by_cases hstray : ∃ c, p = .stray c
      · rw [if_pos ((Piece.reportsCharacter_iff hitem).mpr hstray)]
        obtain ⟨c, rfl⟩ := hstray
        rfl
      · rw [if_neg (mt (Piece.reportsCharacter_iff hitem).mp hstray),
          Piece.blanked_of_ne_stray (not_exists.mp hstray)]

end Scanner

/-! ## The scan -/

/-- What is reported of a text is a character or an open string. -/
theorem Piece.reportsCharacter_iff_message_ne {source : List Char} {p : Piece}
    (hp : p ∈ split source) {line : Nat} {d : Diagnostic} (h : p.item? line = some (.error d)) :
    Item.reportsCharacter (.error d) = true ↔ d.message ≠ "Unterminated string." := by
  rw [reportsCharacter_iff h]
  constructor
  · rintro ⟨c, rfl⟩ hmessage
    obtain ⟨contents, heq⟩ := eq_openString_of_item? h hmessage
    exact Piece.noConfusion heq
  · intro hne
    rcases isUnit_of_mem_split hp with hunit | hstray | ⟨contents, rfl, -⟩
    · -- a unit means a token, if anything
      obtain ⟨out, -, hmeans⟩ := hunit.yields line
      rw [hmeans] at h
      obtain ⟨t, -, ht⟩ := Option.map_eq_some_iff.mp h
      contradiction
    · exact hstray
    · obtain rfl := Except.error.inj (Option.some.inj h)
      exact absurd rfl hne

theorem Item.filter_token?_reportsCharacter (items : List Item) :
    (items.filter fun item => !item.reportsCharacter).filterMap Item.token? =
      items.filterMap Item.token? := by
  rw [List.filterMap_filter]
  refine List.filterMap_congr fun item _ => ?_
  cases item with
  | ok t => rfl
  | error d => exact ite_self none

/-- Without the reports of characters the diagnostics of a text are those of open strings. -/
theorem Piece.filter_diagnostic?_reportsCharacter (source : List Char) (line : Nat) :
    ((itemsOn line (split source)).filter fun item => !item.reportsCharacter).filterMap
        Item.diagnostic? =
      ((itemsOn line (split source)).filterMap Item.diagnostic?).filter
        fun d => d.message == "Unterminated string." := by
  rw [List.filterMap_filter, List.filter_filterMap]
  refine List.filterMap_congr fun item hmem => ?_
  cases item with
  | ok t => rfl
  | error d =>
    obtain ⟨p, hp, start, hitem⟩ := exists_of_mem_itemsOn hmem
    have hiff := reportsCharacter_iff_message_ne hp hitem
    by_cases hmessage : d.message = "Unterminated string."
    · have hreports : Item.reportsCharacter (.error d) = false := by simpa [hmessage] using hiff
      simp [hreports, Item.diagnostic?, Option.filter, hmessage]
    · simp [hiff.mpr hmessage, Item.diagnostic?, Option.filter, hmessage]

/-- **With a space for every character that is reported, a text has the tokens that it has with
these characters**, and only an open string is still reported, if there is one. -/
theorem scan_blankReported (source : String) :
    (scan (blankReported source)).tokens = (scan source).tokens ∧
      (scan (blankReported source)).diagnostics =
        ((scan source).diagnostics.filter fun d => d.message == "Unterminated string.") ∧
      (scan (blankReported source)).diagnostics.length ≤ 1 := by
  have htext : (blankReported source).toList = Piece.blankedText source.toList := by
    rw [blankReported, String.toList_ofList, Scanner.ofText, Scanner.blankReported_eq]
  -- the scanner replaces by position, the pieces by sort, and both come to the same text
  have hitems : Piece.itemsOn 1 (Piece.split (blankReported source).toList) =
      (Piece.itemsOn 1 (Piece.split source.toList)).filter fun item => !item.reportsCharacter := by
    rw [htext, Piece.split_blankedText,
      Piece.itemsOn_map_blanked fun c hmem => (Piece.isStray_of_mem_split hmem).not_newline]
  have hscan : scan (blankReported source) = ⟨(scan source).tokens,
      (scan source).diagnostics.filter fun d => d.message == "Unterminated string."⟩ := by
    rw [scan_eq, scan_eq, hitems, htext, Piece.newlines_blankedText,
      Item.filter_token?_reportsCharacter, Piece.filter_diagnostic?_reportsCharacter]
  rw [hscan]
  exact ⟨rfl, rfl, length_filter_unterminated_le source⟩

/-- Both question marks that are reported are replaced, and the one in the word is not. -/
example : blankReported "1?a?+?\"?" = "1 a?+ \"?" := by
  decide +kernel

end ScriptLexer
