import ScriptLexer.Proofs.Lines
import ScriptLexer.Proofs.Spacing

/-!
# A text without the line ends at its end

The prompt drops the end of a line before it scans it: all the carriage returns and line feeds at
the end, in whatever order. What it keeps is the longest part of the line that does not end in one
of them (`Prompt.isUnended_stripLineEnd`, `isLongestUnended_of_append`). **Nothing that is scanned
is lost with them** (`scan_stripLineEnd`). They part nothing, because nothing is behind them; a
comment takes a carriage return, and means nothing with it or without; and where a string is open
they are in the string, which yields no token. What they move is the line that the text ends on, and
an open string is reported on that line.

No quote is among the characters that are dropped, so line ends cannot close a string, and where one
is open the last piece stays the last. If quotes were dropped as well, the tokens would change.
-/

set_option autoImplicit false

namespace ScriptLexer

/-! ## What is dropped -/

/-- The text ends in neither a carriage return nor a line feed. It may be empty, and of a line of
nothing but line ends it is. -/
def IsUnended (text : List Char) : Prop := ∀ c, text.getLast? = some c → c ≠ '\r' ∧ c ≠ '\n'

/-- Of all the prefixes of the text that end in neither a carriage return nor a line feed, this is
the longest. It is one of them, so no other definition of dropping line ends could keep more. -/
structure IsLongestUnended (kept text : List Char) : Prop where
  starts : kept <+: text
  unended : IsUnended kept
  longest : ∀ other, other <+: text → IsUnended other → other.length ≤ kept.length

/-- A prefix with nothing but line ends behind it is the longest that does not end in one. -/
theorem isLongestUnended_of_append {kept ending : List Char} (hkept : IsUnended kept)
    (hending : ∀ c ∈ ending, c = '\r' ∨ c = '\n') : IsLongestUnended kept (kept ++ ending) where
  starts := List.prefix_append kept ending
  unended := hkept
  longest := by
    intro other hother hunended
    refine Nat.le_of_not_lt fun hlt => ?_
    -- what is longer goes on with line ends, and so ends in one
    obtain ⟨more, rfl⟩ :=
      List.prefix_of_prefix_length_le (List.prefix_append kept ending) hother (Nat.le_of_lt hlt)
    have hne : more ≠ [] := by
      rintro rfl
      simp at hlt
    have hmore : more <+: ending := (List.prefix_append_right_inj kept).mp hother
    have hlast : (kept ++ more).getLast? = some (more.getLast hne) := by
      rw [List.getLast?_append, List.getLast?_eq_some_getLast hne, Option.some_or]
    obtain ⟨hreturn, hfeed⟩ := hunended _ hlast
    rcases hending _ (hmore.subset (List.getLast_mem hne)) with heq | heq
    · exact hreturn heq
    · exact hfeed heq

namespace Prompt

theorem eq_of_isLineEnd {c : Char} (h : isLineEnd c = true) : c = '\r' ∨ c = '\n' := by
  simpa [isLineEnd, or_comm] using h

theorem isUnended_stripLineEnd (line : String) : IsUnended (stripLineEnd line).toList := by
  intro c hc
  rw [toList_stripLineEnd] at hc
  have hne : line.toList.rdropWhile isLineEnd ≠ [] := by
    intro hnil
    rw [hnil] at hc
    contradiction
  have hlast := List.rdropWhile_last_not isLineEnd line.toList hne
  rw [List.getLast?_eq_some_getLast hne] at hc
  rw [Option.some.inj hc] at hlast
  constructor <;> rintro rfl <;> exact hlast rfl

theorem exists_ending (line : String) :
    ∃ ending : String, stripLineEnd line ++ ending = line ∧
      ∀ c ∈ ending.toList, c = '\r' ∨ c = '\n' := by
  refine ⟨.ofList (line.toList.rtakeWhile isLineEnd), ?_, ?_⟩
  · rw [← String.toList_inj, String.toList_append, toList_stripLineEnd, String.toList_ofList]
    exact List.rdropWhile_append_rtakeWhile
  · intro c hc
    rw [String.toList_ofList] at hc
    exact eq_of_isLineEnd (List.mem_rtakeWhile_imp hc)

end Prompt

/-! ## Line ends behind a text -/

namespace Piece

/-- Line ends mean nothing, all the way to the end of the text. -/
theorem itemsOn_split_lineEnds {ending : List Char} (h : ∀ c ∈ ending, c = '\r' ∨ c = '\n')
    (line : Nat) : itemsOn line (split ending) = [] := by
  induction ending generalizing line with
  | nil => simp
  | cons c ending ih =>
    obtain ⟨hc, hbehind⟩ := List.forall_mem_cons.mp h
    -- neither a carriage return nor a line feed means anything; the second moves the line
    rcases hc with rfl | rfl
    · rw [split, cut_blank rfl]
      exact ih hbehind _
    · rw [split, cut_newline]
      exact ih hbehind _

/-- Behind a text without an open string line ends mean nothing, and if the text ends in a comment
that takes some of them, the others mean nothing either. -/
theorem itemsOn_split_append_lineEnds {source ending : List Char}
    (hopen : ∀ contents, openString contents ∉ split source)
    (hending : ∀ c ∈ ending, c = '\r' ∨ c = '\n') (line : Nat) :
    itemsOn line (split (source ++ ending)) = itemsOn line (split source) := by
  have hseparates : Ends (fun d => !separates d) ending := by
    intro d hd
    rcases hending d (List.mem_of_head? hd) with rfl | rfl <;> rfl
  have hleft : ∀ c ∈ leftBehind source ending, c = '\r' ∨ c = '\n' := by
    intro c hc
    unfold leftBehind at hc
    split at hc
    · exact hending c ((List.dropWhile_sublist _).subset hc)
    · exact hending c hc
  rw [itemsOn_split_append hopen hseparates, itemsOn_split_lineEnds hleft, List.append_nil]

/-- An open string takes what is behind it, if no quote is in it. The pieces in front are the same
for all texts that may be behind. -/
theorem exists_split_append_of_openString_mem {source contents : List Char}
    (h : openString contents ∈ split source) :
    ∃ ps, (∀ other, openString other ∉ ps) ∧
      ∀ more, '"' ∉ more → split (source ++ more) = ps ++ [openString (contents ++ more)] := by
  obtain ⟨front, ps, rfl, hquote, -, hclosed, hsplit⟩ := exists_front_of_openString_mem h
  refine ⟨ps, hclosed, fun more hmore => ?_⟩
  have hall : '"' ∉ contents ++ more := by simp [hquote, hmore]
  rw [List.append_assoc, List.cons_append, hsplit, split_openString hall]

end Piece

/-! ## Scans -/

/-- The diagnostic, so many lines further down if it reports an open string. All the others are
about a place in the text, and the place does not move. -/
def Diagnostic.moveOpenDown (n : Nat) (d : Diagnostic) : Diagnostic :=
  if d.message = "Unterminated string." then d.moveDown n else d

theorem Diagnostic.map_moveOpenDown_eq_self {n : Nat} {ds : List Diagnostic}
    (h : ∀ d ∈ ds, d.message ≠ "Unterminated string.") : ds.map (moveOpenDown n) = ds := by
  have hsame : ∀ d ∈ ds, moveOpenDown n d = d := fun d hd => if_neg (h d hd)
  rw [List.map_congr_left hsame, List.map_id']

/-- With line ends behind it a text has the scan that it has without them, but for the line that it
ends on. -/
theorem scan_append_lineEnds (source : String) {ending : String}
    (h : ∀ c ∈ ending.toList, c = '\r' ∨ c = '\n') :
    ∃ body line diagnostics, scan source = ⟨body ++ [Token.endOfFile line], diagnostics⟩ ∧
      scan (source ++ ending) =
        ⟨body ++ [Token.endOfFile (line + newlines ending.toList)],
          diagnostics.map (Diagnostic.moveOpenDown (newlines ending.toList))⟩ := by
  have hlines : 1 + newlines (source ++ ending).toList =
      1 + newlines source.toList + newlines ending.toList := by
    rw [String.toList_append, newlines_append, Nat.add_assoc]
  by_cases hopen : ∃ contents, Piece.openString contents ∈ Piece.split source.toList
  · -- the string takes the line ends, and is still the last piece
    obtain ⟨contents, hmem⟩ := hopen
    obtain ⟨ps, hclosed, hsplit⟩ := Piece.exists_split_append_of_openString_mem hmem
    have hquote : '"' ∉ ending.toList := fun hmem => by simpa using h _ hmem
    have hshort := hsplit [] List.not_mem_nil
    have hlong := hsplit ending.toList hquote
    rw [List.append_nil, List.append_nil] at hshort
    rw [← String.toList_append] at hlong
    have hfront : ∀ d ∈ (Piece.itemsOn 1 ps).filterMap Item.diagnostic?,
        d.message ≠ "Unterminated string." := by
      intro d hd hmessage
      obtain ⟨other, hother⟩ := Piece.exists_openString_mem hd hmessage
      exact hclosed other hother
    refine ⟨_, _, _, (scan_of_split_openString hshort).2, ?_⟩
    rw [(scan_of_split_openString hlong).2, hlines, List.map_append,
      Diagnostic.map_moveOpenDown_eq_self hfront]
    rfl
  · have hclosed := not_exists.mp hopen
    have hnone : ∀ d ∈ (scan source).diagnostics, d.message ≠ "Unterminated string." :=
      fun d hd hmessage => hopen (exists_openString_mem_split_iff.mpr ⟨d, hd, hmessage⟩)
    rw [scan_eq] at hnone
    refine ⟨_, _, _, scan_eq source, ?_⟩
    rw [scan_eq, hlines, String.toList_append, Piece.itemsOn_split_append_lineEnds hclosed h,
      Diagnostic.map_moveOpenDown_eq_self hnone]

/-- **Without the line ends at its end a line has the scan that it has with them**: the same tokens
up to the end, and the same diagnostics. Only the end is as many lines further up as line feeds are
dropped, and with it the report of an open string. What is kept is the longest prefix that does not
end in a carriage return or a line feed. -/
theorem scan_stripLineEnd (line : String) :
    ∃ ending body n diagnostics,
      IsLongestUnended (Prompt.stripLineEnd line).toList line.toList ∧
      Prompt.stripLineEnd line ++ ending = line ∧
      scan (Prompt.stripLineEnd line) = ⟨body ++ [Token.endOfFile n], diagnostics⟩ ∧
      scan line = ⟨body ++ [Token.endOfFile (n + newlines ending.toList)],
        diagnostics.map fun d =>
          if d.message = "Unterminated string." then d.moveDown (newlines ending.toList)
          else d⟩ := by
  obtain ⟨ending, hline, hending⟩ := Prompt.exists_ending line
  obtain ⟨body, n, diagnostics, hkept, hwhole⟩ :=
    scan_append_lineEnds (Prompt.stripLineEnd line) hending
  have hlongest := isLongestUnended_of_append (Prompt.isUnended_stripLineEnd line) hending
  rw [← String.toList_append] at hlongest
  rw [hline] at hlongest hwhole
  exact ⟨ending, body, n, diagnostics, hlongest, hline, hkept, hwhole⟩

/-- A comment takes one carriage return, and an open string all that is dropped. -/
example : scan "//\r\n\r\n" = ⟨[Token.endOfFile 3], []⟩ ∧
    scan "\"\r\n\r\n" = ⟨[Token.endOfFile 3], [⟨.lexical, 3, "Unterminated string."⟩]⟩ ∧
    Prompt.stripLineEnd "//\r\n\r\n" = "//" := by
  decide +kernel

end ScriptLexer
