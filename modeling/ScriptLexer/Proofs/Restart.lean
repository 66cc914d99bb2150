import Mathlib.Logic.Function.Iterate
import ScriptLexer.Proofs.LineEnds
import ScriptLexer.Proofs.Recovery
import ScriptLexer.Reader

/-!
# Going on as from the start

A reader keeps what it has taken of a piece in two places, most of its steps add to them, and it has
several ways out of a piece that yield nothing of them. **Whatever it has read before, a reader
between two items keeps nothing of it, and goes on as one that starts with the rest of the text**,
on a later line (`read_on_as_from_start`). A stale character would be part of the next lexeme and a
stale value would be the next token's. So this is shown against the scanner, which keeps neither:
the two agree call for call (`next_toReader`).

The agreement holds only from a reader on that keeps nothing, and that is the invariant: one call
leads from such a reader to such a reader. Of a reader in the middle of a piece it says nothing.
-/

set_option autoImplicit false

namespace ScriptLexer

/-! ## One piece -/

namespace Piece.StandsBefore

variable {p : Piece} {after : List Char}

/-- Line feeds are in three sorts of pieces only. -/
theorem newlines_text (h : p.StandsBefore after) (hnewline : p ≠ newline)
    (hstring : ∀ contents, p ≠ string contents) (hopen : ∀ contents, p ≠ openString contents) :
    newlines p.text = 0 := by
  rcases h.cases with hunit | ⟨c, rfl, hc⟩ | ⟨contents, heq, -, -⟩
  · exact List.count_eq_zero.mpr (hunit.lineFeed_not_mem_text hnewline hstring)
  · exact newlines_text_stray hc.not_newline
  · exact absurd heq (hopen contents)

/-- The line feeds that a reader counts in a piece are all that are in it. -/
theorem line_through (h : p.StandsBefore after) (r : Reader) :
    (r.through p after).2.line = r.line + newlines p.text := by
  cases p with
  -- the reader counts at line feeds and in strings, and no other piece has a line feed in it
  | newline => rfl
  | string contents =>
    rw [newlines_text_string]
    rfl
  | openString contents =>
    rw [newlines_text_openString]
    rfl
  | number lexeme =>
    rw [h.newlines_text (by simp) (by simp) (by simp)]
    simp only [Reader.through, Reader.readValue]
    split <;> rfl
  | _ =>
    rw [h.newlines_text (by simp) (by simp) (by simp)]
    rfl

end Piece.StandsBefore

namespace Reader

/-- Where nothing has been kept before, what a piece comes to is what it means. With a character
kept from before the lexeme would have it in front, and the value of a string, whose first character
is left out, would have lost the wrong one. -/
theorem itemOn?_through (p : Piece) (before after : List Char) (line : Nat) :
    itemOn? line (through p after ⟨before, [], none, line⟩) = p.item? line := by
  cases p with
  | string contents =>
    have hcontents : (Piece.string contents).text.tail.dropLast = contents := by simp [Piece.text]
    simp only [itemOn?, through, behind, List.nil_append, hcontents]
    rfl
  | number lexeme =>
    have hlexeme : ([] : List Char) ++ (Piece.number lexeme).text = lexeme := rfl
    rw [through, readValue, Piece.item?, Piece.numberItem, behind, hlexeme]
    cases Decimal.ofText? lexeme <;> rfl
  | _ => rfl

section

variable {p : Piece} {after : List Char} {line : Nat} (h : p.StandsBefore after)

include h

theorem readPiece_append {r : Reader} (hrest : r.rest = p.text ++ after) :
    r.readPiece = r.through p after := by
  obtain ⟨c, tail, hsource, hcut⟩ := h
  rw [readPiece_eq (hrest.trans hsource), hcut]

theorem rest_ne_nil : p.text ++ after ≠ [] := by
  obtain ⟨c, tail, hsource, -⟩ := h
  rw [hsource]
  exact List.cons_ne_nil c tail

theorem forget_through (before : List Char) :
    (through p after ⟨before, [], none, line⟩).2.forget =
      ⟨after, [], none, line + newlines p.text⟩ := by
  rw [forget, rest_through, h.line_through]

/-- A reader that has kept nothing yields what the next piece means, and keeps nothing again. -/
theorem next_append_of_some {item : Item} (hitem : p.item? line = some item) :
    next ⟨p.text ++ after, [], none, line⟩ =
      (some item, ⟨after, [], none, line + newlines p.text⟩) := by
  have hread := readPiece_append h (r := ⟨p.text ++ after, [], none, line⟩) rfl
  rw [next_of_item (rest_ne_nil h) (by rw [hread, itemOn?_through, hitem]), hread, forget_through h]

/-- Nor does it keep anything of a piece that it skips. -/
theorem next_append_of_none (hitem : p.item? line = none) :
    next ⟨p.text ++ after, [], none, line⟩ =
      next ⟨after, [], none, line + newlines p.text⟩ := by
  have hread := readPiece_append h (r := ⟨p.text ++ after, [], none, line⟩) rfl
  rw [next_of_no_item (rest_ne_nil h) (by rw [hread, itemOn?_through, hitem]), hread,
    forget_through h]

end

end Reader

/-! ## Call for call -/

namespace Scanner

/-- The reader that stands where the scanner stands. -/
def toReader (s : Scanner) : Reader := ⟨s.rest, [], none, s.line⟩

/-- **A reader that has kept nothing and the scanner that stands there yield the same**, and are in
one place again. -/
theorem next_toReader (s : Scanner) : s.toReader.next = (s.next.1, s.next.2.toReader) := by
  obtain ⟨text, line⟩ := s
  induction text using Piece.piece_induction generalizing line with
  | nil =>
    rw [next_of_rest_eq_nil, Reader.next_of_rest_eq_nil rfl]
  | piece p rest hp ih =>
    cases hitem : p.item? line with
    | none =>
      rw [next_append_of_none hp hitem]
      exact (Reader.next_append_of_none hp hitem).trans (ih (line + newlines p.text))
    | some item =>
      rw [next_append_of_some hp hitem]
      exact Reader.next_append_of_some hp hitem

theorem iterate_next_toReader (s : Scanner) (n : Nat) :
    (fun r : Reader => r.next.2)^[n] s.toReader =
      ((fun s : Scanner => s.next.2)^[n] s).toReader := by
  have hstep : Function.Semiconj toReader (fun s => s.next.2) fun r => r.next.2 := by
    intro s
    exact (congrArg Prod.snd (next_toReader s)).symm
  exact (hstep.iterate_right n s).symm

/-- The reader has the scanner's items left. The two loops are separate definitions, so the
agreement of one call goes into an induction on what is left of the text. -/
theorem items_toReader (s : Scanner) : s.toReader.items = s.items := by
  induction hn : s.rest.length using Nat.strongRecOn generalizing s with
  | ind n ih =>
    subst hn
    have hread := next_toReader s
    rcases hnext : s.next with ⟨_ | item, after⟩
    · rw [hnext] at hread
      rw [items_of_next_eq_none hnext, Reader.items_of_next_eq_none hread]
    · rw [hnext] at hread
      rw [items_of_next_eq_some hnext, Reader.items_of_next_eq_some hread,
        ih _ (length_rest_next_lt hnext) after rfl]

end Scanner

/-! ## In the text -/

/-- The reader stands between two pieces of this text: it has kept nothing, and it is on the line
that the text in front of it has come to. This is the invariant of the calls; that what is in front
is whole pieces is not said, and not needed. -/
structure Reader.StandsIn (source : String) (r : Reader) : Prop where
  lexeme : r.lexeme = []
  literal : r.literal = none
  place : ∃ consumed, source.toList = consumed ++ r.rest ∧ r.line = 1 + newlines consumed

namespace Reader

variable {source : String} {r : Reader}

theorem standsIn_ofText (source : String) : (ofText source).StandsIn source where
  lexeme := rfl
  literal := rfl
  place := ⟨[], rfl, rfl⟩

namespace StandsIn

theorem eq_toReader (h : r.StandsIn source) : r = Scanner.toReader ⟨r.rest, r.line⟩ := by
  cases r
  rw [Scanner.toReader, ← h.lexeme, ← h.literal]

theorem next_eq (h : r.StandsIn source) :
    r.next = ((Scanner.mk r.rest r.line).next.1, (Scanner.mk r.rest r.line).next.2.toReader) := by
  rw [← Scanner.next_toReader, ← h.eq_toReader]

theorem items_eq (h : r.StandsIn source) : r.items = (Scanner.mk r.rest r.line).items := by
  rw [← Scanner.items_toReader, ← h.eq_toReader]

theorem next (h : r.StandsIn source) : r.next.2.StandsIn source := by
  obtain ⟨consumed, hsource, hline⟩ := h.place
  obtain ⟨taken, hrest, hbehind⟩ := Scanner.exists_taken ⟨r.rest, r.line⟩
  rw [h.next_eq]
  refine ⟨rfl, rfl, consumed ++ taken, ?_, ?_⟩
  · rw [hsource, List.append_assoc]
    exact congrArg (consumed ++ ·) hrest
  · rw [newlines_append, ← Nat.add_assoc, ← hline]
    exact hbehind

/-- What is left means what it would mean at the start of a text, on later lines. -/
theorem items (h : r.StandsIn source) :
    r.items = (ofText (String.ofList r.rest)).items.map (Item.moveDown (r.line - 1)) := by
  obtain ⟨consumed, -, hline⟩ := h.place
  have hfirst : 1 + (r.line - 1) = r.line := by omega
  have hread : r.items = Piece.itemsOn (1 + (r.line - 1)) (Piece.split r.rest) := by
    rw [hfirst, h.items_eq, Scanner.items_eq]
  have hstart : (ofText (String.ofList r.rest)).items = Piece.itemsOn 1 (Piece.split r.rest) := by
    rw [← Scanner.items_eq ⟨r.rest, 1⟩, ← Scanner.items_toReader, ofText, String.toList_ofList]
    rfl
  rw [hread, hstart, Piece.itemsOn_add]

end StandsIn

theorem standsIn_iterate_next (source : String) (n : Nat) :
    ((fun r : Reader => r.next.2)^[n] (ofText source)).StandsIn source := by
  induction n with
  | zero => exact standsIn_ofText source
  | succ n ih =>
    rw [Function.iterate_succ_apply']
    exact ih.next

end Reader

/-- **After any number of calls a reader keeps nothing of what it has read**, is on the line that
this has come to, and has the items left that it would have from the start of the rest of the text,
so many lines further down. The scanner is where the reader is. -/
theorem read_on_as_from_start (source : String) (n : Nat) :
    ∃ r, (fun r : Reader => r.next.2)^[n] (Reader.ofText source) = r ∧
      r.StandsIn source ∧
      (∀ item after, r.next = (some item, after) → after.rest.length < r.rest.length) ∧
      r.items = (Reader.ofText (String.ofList r.rest)).items.map (Item.moveDown (r.line - 1)) ∧
      (fun s : Scanner => s.next.2)^[n] (Scanner.ofText source) = ⟨r.rest, r.line⟩ ∧
      r.next.1 = (Scanner.mk r.rest r.line).next.1 ∧
      r.items = (Scanner.mk r.rest r.line).items := by
  have hscanner := Scanner.iterate_next_toReader (Scanner.ofText source) n
  have hr := Reader.standsIn_iterate_next source n
  refine ⟨_, rfl, hr, fun item after h => Reader.length_rest_next_lt h, hr.items, ?_, ?_, ?_⟩
  · exact congrArg (fun r : Reader => Scanner.mk r.rest r.line) hscanner.symm
  · exact congrArg Prod.fst hr.next_eq
  · exact hr.items_eq

/-- Behind the string its value is forgotten, and behind the fault the character is. -/
example : (fun r : Reader => r.next.2)^[2] (Reader.ofText "\"a\nb\" $ x") =
    ⟨" x".toList, [], none, 2⟩ := by
  decide +kernel

end ScriptLexer
