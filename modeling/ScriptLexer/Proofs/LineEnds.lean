import ScriptLexer.Proofs.Spacing

/-!
# Line ends of either sort

Where lines end in a carriage return and a line feed, the carriage return is a blank in front of the
line feed: it parts nothing that the line feed does not part, a comment takes it, and only a string
keeps it. **So a text with such line ends has the scan that it has with line feeds alone**, but for
what its strings hold (`scan_crlf`).

The change is one function on characters (`crlfChars`), and that is what the proofs compute with.
The functions called `crlf` say where it shows: in a source everywhere, in a token only if it is a
string, and in a piece if it is a string, closed or open.
-/

set_option autoImplicit false

namespace ScriptLexer

/-! ## Another line end

The change commutes with putting texts together, which is what lets it be followed from piece to
piece, and it neither adds nor takes away a quote or a line feed.
-/

/-- The characters with a carriage return put in front of each line feed. This is the change itself,
one character at a time, and the lemmas below are about it. A line feed that has a carriage return
in front of it already gets another. -/
def crlfChars (text : List Char) : List Char :=
  text.flatMap fun c => if c = '\n' then ['\r', '\n'] else [c]

/-- The source with the other line ends, as a text that can be scanned. It is `crlfChars` for the
statements, in which a source, a lexeme and the contents of a string are all strings. -/
def crlf (text : String) : String := String.ofList (crlfChars text.toList)

/-- The literal of a string with the other line ends in it. A number has none. -/
def Literal.crlf : Literal → Literal
  | string contents => string (ScriptLexer.crlf contents)
  | number value => number value

/-- The token with the other line ends in its text, where it is a string. Other tokens are on one
line, and are as they are. -/
def Token.crlf (t : Token) : Token :=
  if t.kind = .string then
    { t with lexeme := ScriptLexer.crlf t.lexeme, literal := t.literal.map Literal.crlf }
  else t

/-- The item with the other line ends, where it is a token. A diagnostic stays as it is, since no
line feed is ever reported. -/
def Item.crlf : Item → Item
  | .ok t => .ok t.crlf
  | .error d => .error d

@[simp] theorem crlfChars_nil : crlfChars [] = [] := rfl

@[simp] theorem crlfChars_append (a b : List Char) :
    crlfChars (a ++ b) = crlfChars a ++ crlfChars b :=
  List.flatMap_append

@[simp] theorem crlfChars_newline (more : List Char) :
    crlfChars ('\n' :: more) = '\r' :: '\n' :: crlfChars more := rfl

theorem crlfChars_of_lineFeed_not_mem {text : List Char} (h : '\n' ∉ text) :
    crlfChars text = text := by
  induction text with
  | nil => rfl
  | cons c text ih =>
    obtain ⟨hc, htext⟩ := not_or.mp (mt List.mem_cons.mpr h)
    rw [crlfChars, List.flatMap_cons, if_neg (Ne.symm hc)]
    exact congrArg (c :: ·) (ih htext)

/-- The lines are the same ones, since only line feeds count. -/
@[simp] theorem newlines_crlfChars (text : List Char) :
    newlines (crlfChars text) = newlines text := by
  induction text with
  | nil => rfl
  | cons c text ih =>
    have hfirst : newlines (crlfChars [c]) = newlines [c] := by
      by_cases hc : c = '\n'
      · rw [hc]
        rfl
      · rw [crlfChars_of_lineFeed_not_mem (by simpa using Ne.symm hc)]
    rw [← List.singleton_append, crlfChars_append, newlines_append, newlines_append, hfirst, ih]

theorem quote_not_mem_crlfChars {text : List Char} (h : '"' ∉ text) : '"' ∉ crlfChars text := by
  rw [crlfChars, List.mem_flatMap]
  rintro ⟨c, hc, hmem⟩
  split at hmem
  · simp at hmem
  · exact h (List.mem_singleton.mp hmem ▸ hc)

/-- Where a text stops or goes on with a line feed, it stops or goes on with a carriage return. -/
theorem ends_crlfChars {p : Char → Bool} {text : List Char} (h : Ends (· != '\n') text)
    (hreturn : p '\r' = false) : Ends p (crlfChars text) := by
  cases text with
  | nil => exact .nil
  | cons c text =>
    obtain rfl : c = '\n' := by simpa using h c rfl
    rw [crlfChars_newline]
    exact .cons hreturn

theorem crlf_ofList (text : List Char) :
    crlf (String.ofList text) = String.ofList (crlfChars text) := by
  rw [crlf, String.toList_ofList]

/-! ## Pieces

A piece of the text becomes one piece of the changed text, with two exceptions. A line feed becomes
two pieces, a blank and the line feed, and at the end of a comment the first of these is taken by
the comment.
-/

namespace Piece

/-- The piece that stands in the changed text where this one stood. Pieces that hold a text over
lines hold the changed one. A line feed stays as it is, because the carriage return in front of it
is a piece of its own, or goes into the comment there. -/
def crlf : Piece → Piece
  | string contents => string (crlfChars contents)
  | openString contents => openString (crlfChars contents)
  | p => p

theorem crlf_of_isUnit {p : Piece} (hp : p.IsUnit) (hstring : ∀ contents, p ≠ string contents) :
    p.crlf = p := by
  cases p with
  | string contents => exact absurd rfl (hstring contents)
  | openString => exact hp.elim
  | _ => rfl

/-- Only a line feed and a string have line feeds in them, of all the units. -/
theorem IsUnit.lineFeed_not_mem_text {p : Piece} (hp : p.IsUnit) (hnewline : p ≠ newline)
    (hstring : ∀ contents, p ≠ string contents) : '\n' ∉ p.text := by
  cases p with
  | blank c =>
    have hc : isBlank c = true := hp
    intro hmem
    rw [← List.mem_singleton.mp hmem] at hc
    exact absurd hc (by decide)
  | comment body =>
    have hbody : '\n' ∉ body := hp
    simp [text, hbody]
  | operator o => cases o <;> decide
  | number lexeme => exact fun hmem => absurd (Numeral.isPart_of_isNumeral hp _ hmem) (by decide)
  | word lexeme => exact fun hmem => absurd (isWordChar_of_isWord hp _ hmem) (by decide)
  | newline => contradiction
  | string contents => exact absurd rfl (hstring contents)
  | stray => exact hp.elim
  | openString => exact hp.elim

theorem crlfChars_text_string (contents : List Char) :
    crlfChars (string contents).text = (string (crlfChars contents)).text := by
  rw [text, crlfChars_append, ← List.singleton_append, crlfChars_append]
  rfl

/-- With the other line ends a piece means the same, but for a string. -/
theorem item?_crlf (p : Piece) (line : Nat) :
    p.crlf.item? line = (p.item? line).map Item.crlf := by
  cases p with
  | string contents =>
    simp only [crlf, item?, Option.map_some, Item.crlf, Token.crlf, if_true, Literal.crlf,
      crlf_ofList, crlfChars_text_string]
  | openString contents => simp only [crlf, item?, newlines_crlfChars, Option.map_some, Item.crlf]
  | number lexeme =>
    simp only [crlf, item?, numberItem, Option.map_some]
    split <;> rfl
  | word lexeme =>
    -- no keyword makes a string of a word, so the lexeme of its token is left alone
    have hkind : Kind.ofWord lexeme ≠ .string := by
      rw [Kind.ofWord]
      split <;> simp
    simp only [crlf, item?, Option.map_some, Item.crlf, Token.crlf, if_neg hkind]
  | _ => rfl

namespace StandsBefore

variable {p : Piece} {rest : List Char}

/-- The change of a text is that of its pieces, but for a line feed, which becomes two of them. -/
theorem crlfChars_text (h : p.StandsBefore rest) (hnewline : p ≠ newline) :
    crlfChars p.text = p.crlf.text := by
  rcases h.cases with hunit | ⟨c, rfl, hc⟩ | ⟨contents, rfl, -, -⟩
  · by_cases hstring : ∃ contents, p = string contents
    · obtain ⟨contents, rfl⟩ := hstring
      exact crlfChars_text_string contents
    · rw [crlf_of_isUnit hunit (not_exists.mp hstring), crlfChars_of_lineFeed_not_mem
        (hunit.lineFeed_not_mem_text hnewline (not_exists.mp hstring))]
  · exact crlfChars_of_lineFeed_not_mem (by simpa [text] using hc.not_newline.symm)
  · rw [text, ← List.singleton_append, crlfChars_append]
    rfl

/-- A piece stands before the text with the other line ends as well, if it does not stop at a line
feed because it is a comment. -/
theorem crlf (h : p.StandsBefore rest) (hcomment : ∀ body, p ≠ comment body) :
    p.crlf.StandsBefore (crlfChars rest) := by
  rcases h.cases with hunit | ⟨c, rfl, hc⟩ | ⟨contents, rfl, hquote, rfl⟩
  · by_cases hstring : ∃ contents, p = string contents
    · obtain ⟨contents, rfl⟩ := hstring
      have hclosed : (string (crlfChars contents)).IsUnit := quote_not_mem_crlfChars hunit
      exact hclosed.standsBefore fun _ _ => rfl
    · -- up to the next line feed the text stays as it is, and only a comment stops there
      have hline : crlfChars rest = rest.takeWhile (· != '\n') ++
          crlfChars (rest.dropWhile (· != '\n')) := by
        conv_lhs => rw [← List.takeWhile_append_dropWhile (p := (· != '\n')) (l := rest)]
        rw [crlfChars_append, crlfChars_of_lineFeed_not_mem (not_mem_takeWhile_ne _ _)]
      have hends : Ends (· != '\n') (rest.dropWhile (· != '\n')) := .dropWhile _ rest
      have hopen : ∀ contents, p ≠ openString contents := by
        rintro contents rfl
        exact hunit
      rw [← List.takeWhile_append_dropWhile (p := (· != '\n')) (l := rest)] at h
      rw [crlf_of_isUnit hunit (not_exists.mp hstring), hline]
      refine h.exchange (hends.mono fun d hd => ?_) (ends_crlfChars hends rfl) fun _ =>
        ends_crlfChars hends (continues_of_separates rfl hcomment hopen)
      rw [bne_iff_ne]
      rintro rfl
      contradiction
  · exact ⟨c, _, rfl, hc.cut_eq _⟩
  · exact openString_standsBefore (quote_not_mem_crlfChars hquote)

end StandsBefore

theorem itemsOn_split_return (more : List Char) (line : Nat) :
    itemsOn line (split ('\r' :: more)) = itemsOn line (split more) :=
  itemsOn_split_blanks_append (List.forall_mem_singleton.mpr rfl) more line

/-- Behind a comment the carriage return of its line end may be left out: the comment takes it. -/
theorem itemsOn_split_dropWhile_crlfChars {rest : List Char} (h : Ends (· != '\n') rest)
    (line : Nat) :
    itemsOn line (split ((crlfChars rest).dropWhile (· != '\n'))) =
      itemsOn line (split (crlfChars rest)) := by
  cases rest with
  | nil => rfl
  | cons c more =>
    obtain rfl : c = '\n' := by simpa using h c rfl
    rw [crlfChars_newline, itemsOn_split_return]
    rfl

/-- **With the other line ends a text means the same**, but for its strings. -/
theorem itemsOn_split_crlfChars (source : List Char) (line : Nat) :
    itemsOn line (split (crlfChars source)) = (itemsOn line (split source)).map Item.crlf := by
  induction source using piece_induction generalizing line with
  | nil => simp
  | piece p rest hp ih =>
    rw [crlfChars_append, hp.itemsOn_split_append, List.map_append, ← ih]
    -- a line feed becomes two pieces, and a comment takes the carriage return of the line end
    -- behind it; every other piece goes over to one piece
    by_cases hnewline : p = newline
    · subst hnewline
      have hstands : newline.StandsBefore (crlfChars rest) :=
        IsUnit.standsBefore (p := newline) trivial fun _ _ => rfl
      have htext : crlfChars newline.text ++ crlfChars rest =
          '\r' :: (newline.text ++ crlfChars rest) := rfl
      rw [htext, itemsOn_split_return, hstands.itemsOn_split_append]
      rfl
    by_cases hcomment : ∃ body, p = comment body
    · obtain ⟨body, rfl⟩ := hcomment
      have hbody : '\n' ∉ body := hp.isUnit (by simp) (by simp)
      have hends : Ends (· != '\n') rest := hp.ends_continues (by simp)
      have hsame : (comment body).crlf = comment body := rfl
      rw [hp.crlfChars_text hnewline, hsame, itemsOn_split_comment_append hbody,
        itemsOn_split_dropWhile_crlfChars hends, newlines_text_comment hbody, Nat.add_zero]
      rfl
    · have hstands := hp.crlf (not_exists.mp hcomment)
      have hlines : newlines p.crlf.text = newlines p.text := by
        rw [← hp.crlfChars_text hnewline, newlines_crlfChars]
      rw [hp.crlfChars_text hnewline, hstands.itemsOn_split_append, item?_crlf, hlines,
        Option.toList_map]

end Piece

/-! ## Scans -/

@[simp] theorem Item.token?_crlf (item : Item) :
    Item.token? item.crlf = item.token?.map Token.crlf := by
  cases item <;> rfl

@[simp] theorem Item.diagnostic?_crlf (item : Item) :
    Item.diagnostic? item.crlf = item.diagnostic? := by
  cases item <;> rfl

/-- **With a carriage return in front of each line feed a text has the same scan**, but for what its
strings hold. -/
theorem scan_crlf (source : String) :
    scan (crlf source) = ⟨(scan source).tokens.map Token.crlf, (scan source).diagnostics⟩ := by
  have htext : (crlf source).toList = crlfChars source.toList := by
    rw [crlf, String.toList_ofList]
  have hdiagnostics : Item.diagnostic? ∘ Item.crlf = Item.diagnostic? :=
    funext Item.diagnostic?_crlf
  rw [scan_eq, scan_eq, htext, Piece.itemsOn_split_crlfChars, newlines_crlfChars,
    Item.filterMap_map Item.token?_crlf, List.filterMap_map, hdiagnostics, List.map_append]
  rfl

/-- A comment takes the carriage return, half an exponent is not made whole, and a string keeps
it. -/
example : (scan (crlf "1e\n5//\n\"\n\"")).tokens =
    [⟨.number, "1", some (.number ⟨0x3FF0000000000000⟩), 1⟩, ⟨.identifier, "e", none, 1⟩,
      ⟨.number, "5", some (.number ⟨0x4014000000000000⟩), 2⟩,
      ⟨.string, "\"\r\n\"", some (.string "\r\n"), 3⟩, Token.endOfFile 4] := by
  decide +kernel

end ScriptLexer
