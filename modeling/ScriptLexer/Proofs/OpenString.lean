import ScriptLexer.Proofs.LineBreak
import ScriptLexer.Proofs.Piece.Standing
import ScriptLexer.Proofs.Piece.Yield

/-!
# Strings that are left open

A quote that is not closed takes all the text behind it. So there is one such quote in a text at
most, it is the last quote of the text, and **what is in front of it is the same whatever stands
behind it** (`Piece.exists_front_of_openString_mem`). More text without a quote only makes the fault
longer, and a quote mends it, and nothing else with it (`scan_of_openString`).

That a string is open is asked here in two ways, of the pieces and of the diagnostics. Proofs need
the first and statements the second, and `exists_openString_mem_split_iff` goes from one to the
other.
-/

set_option autoImplicit false

namespace ScriptLexer

/-! ## The report

Between the fault in the list of pieces and the message in the list of diagnostics, in both
directions. A statement about scans can only name the message.
-/

/-- The message of an open string is that of no other fault. Messages are text, so this has to be
shown; the two others hold the text of what is wrong, which could have been anything. -/
theorem Fault.eq_unterminatedString {fault : Fault} {line : Nat}
    (h : (fault.onLine line).message = "Unterminated string.") : fault = unterminatedString := by
  cases fault with
  | unterminatedString => rfl
  | unexpectedCharacter c =>
    have hchars : ("Unexpected character '" ++ c.toString ++ "'.").toList =
        "Unterminated string.".toList := congrArg String.toList h
    simp at hchars
  | unreadableNumber lexeme =>
    have hchars : ("'" ++ lexeme ++ "' was scanned as a number but is not a valid float.").toList =
        "Unterminated string.".toList := congrArg String.toList h
    simp at hchars

theorem Piece.eq_openString_of_item? {p : Piece} {line : Nat} {d : Diagnostic}
    (h : p.item? line = some (.error d)) (hmessage : d.message = "Unterminated string.") :
    ∃ contents, p = openString contents := by
  cases p with
  | openString contents => exact ⟨contents, rfl⟩
  -- the other two faults have messages of their own
  | stray c =>
    simp only [item?, Option.some.injEq, Except.error.injEq] at h
    rw [← h] at hmessage
    exact Fault.noConfusion (Fault.eq_unterminatedString hmessage)
  | number lexeme =>
    simp only [item?, numberItem, Option.some.injEq] at h
    split at h
    · contradiction
    · rw [← Except.error.inj h] at hmessage
      exact Fault.noConfusion (Fault.eq_unterminatedString hmessage)
  | _ => simp [item?] at h

theorem Piece.exists_openString_mem {ps : List Piece} {line : Nat} {d : Diagnostic}
    (hd : d ∈ (itemsOn line ps).filterMap Item.diagnostic?)
    (hmessage : d.message = "Unterminated string.") : ∃ contents, openString contents ∈ ps := by
  obtain ⟨item, hitem, hdiagnostic⟩ := List.mem_filterMap.mp hd
  obtain ⟨p, hp, start, hmeans⟩ := exists_of_mem_itemsOn hitem
  cases item with
  | ok t => simp [Item.diagnostic?] at hdiagnostic
  | error e =>
    obtain rfl := Option.some.inj hdiagnostic
    obtain ⟨contents, rfl⟩ := eq_openString_of_item? hmeans hmessage
    exact ⟨contents, hp⟩

/-- An open string is reported if and only if there is one. -/
theorem exists_openString_mem_split_iff {source : String} :
    (∃ contents, Piece.openString contents ∈ Piece.split source.toList) ↔
      ∃ d ∈ (scan source).diagnostics, d.message = "Unterminated string." := by
  rw [scan_eq]
  constructor
  · rintro ⟨contents, hmem⟩
    exact Piece.exists_of_openString_mem hmem 1
  · rintro ⟨d, hd, hmessage⟩
    exact Piece.exists_openString_mem hd hmessage

/-- A scan that does not report an open string is of a text without one. -/
theorem openString_not_mem_split {source : String}
    (h : ∀ d ∈ (scan source).diagnostics, d.message ≠ "Unterminated string.")
    (contents : List Char) : Piece.openString contents ∉ Piece.split source.toList := by
  intro hmem
  obtain ⟨d, hd, hmessage⟩ := exists_openString_mem_split_iff.mp ⟨contents, hmem⟩
  exact h d hd hmessage

/-! ## In front of the quote

The induction goes through the text up to the piece that is the open string. No piece in front of it
has looked past the quote, which is a character that no numeral goes on with.
-/

namespace Piece

theorem split_openString {contents : List Char} (h : '"' ∉ contents) :
    split ('"' :: contents) = [openString contents] := by
  have hsplit := (openString_standsBefore h).split_append
  rwa [List.append_nil, split] at hsplit

/-- **What is in front of an open string is decided without looking past its quote**: the pieces
there are the same with any other text behind the quote, and none of them is an open string. -/
theorem exists_front_of_openString_mem {source contents : List Char}
    (h : openString contents ∈ split source) :
    ∃ front ps, source = front ++ '"' :: contents ∧ '"' ∉ contents ∧ ps.flatMap text = front ∧
      (∀ other, openString other ∉ ps) ∧
      ∀ behind, split (front ++ '"' :: behind) = ps ++ split ('"' :: behind) := by
  induction source using piece_induction with
  | nil => simp at h
  | piece p rest hp ih =>
    rw [hp.split_append] at h
    by_cases hopen : ∃ other, p = openString other
    · obtain ⟨other, rfl⟩ := hopen
      obtain ⟨hquote, rfl⟩ := hp.of_openString
      rw [split] at h
      obtain rfl := openString.inj (List.mem_singleton.mp h)
      exact ⟨[], [], List.append_nil _, hquote, rfl, by simp, fun behind => rfl⟩
    · have hmem : openString contents ∈ split rest :=
        (List.mem_cons.mp h).resolve_left fun heq => hopen ⟨contents, heq.symm⟩
      obtain ⟨front, ps, rfl, hquote, rfl, hclosed, hsplit⟩ := ih hmem
      refine ⟨(p :: ps).flatMap text, p :: ps, by rw [List.flatMap_cons, List.append_assoc], hquote,
        rfl, ?_, ?_⟩
      · intro other hother
        rcases List.mem_cons.mp hother with heq | hother
        · exact hopen ⟨other, heq.symm⟩
        · exact hclosed other hother
      · -- every piece in front of the quote stands there with any text behind the quote
        intro behind
        have hstands : p.StandsBefore (ps.flatMap text ++ '"' :: behind) := by
          refine hp.exchange (.cons rfl) (.cons rfl) ?_
          intro hnil
          rw [hnil, List.nil_append] at hp
          exact .cons (hp.continues_eq_false rfl)
        rw [List.flatMap_cons, List.append_assoc, hstands.split_append, hsplit, List.cons_append]

end Piece

/-! ## Scans

A text whose last piece is singled out has the scan of the others and what that piece means. The
three texts that are compared, as it was, with more text and with a quote behind it, differ in that
piece only.
-/

theorem scan_of_split {source : String} {ps : List Piece} {p : Piece} {item : Item}
    (h : Piece.split source.toList = ps ++ [p])
    (hitem : p.item? (1 + newlines (ps.flatMap Piece.text)) = some item) :
    (Scanner.ofText source).items = Piece.itemsOn 1 ps ++ [item] ∧
      scan source =
        ⟨(Piece.itemsOn 1 ps).filterMap Item.token? ++ (item.token?.toList ++
            [Token.endOfFile (1 + newlines source.toList)]),
          (Piece.itemsOn 1 ps).filterMap Item.diagnostic? ++ item.diagnostic?.toList⟩ := by
  have hitems : Piece.itemsOn 1 (Piece.split source.toList) = Piece.itemsOn 1 ps ++ [item] := by
    rw [h, Piece.itemsOn_append, Piece.itemsOn, hitem]
    rfl
  refine ⟨?_, ?_⟩
  · rw [Scanner.items_eq]
    exact hitems
  · rw [scan_eq, hitems, List.filterMap_append, List.filterMap_append, List.append_assoc]
    cases item <;> rfl

/-- The scan of a text that a string is open in. The string is the last piece, and its fault is on
the line that the whole text ends on. -/
theorem scan_of_split_openString {source : String} {ps : List Piece} {contents : List Char}
    (h : Piece.split source.toList = ps ++ [.openString contents]) :
    (Scanner.ofText source).items = Piece.itemsOn 1 ps ++
        [.error ⟨.lexical, 1 + newlines source.toList, "Unterminated string."⟩] ∧
      scan source =
        ⟨(Piece.itemsOn 1 ps).filterMap Item.token? ++
            [Token.endOfFile (1 + newlines source.toList)],
          (Piece.itemsOn 1 ps).filterMap Item.diagnostic? ++
            [⟨.lexical, 1 + newlines source.toList, "Unterminated string."⟩]⟩ := by
  have hline : 1 + newlines source.toList =
      1 + newlines (ps.flatMap Piece.text) + newlines contents := by
    rw [← Piece.flatMap_text_split source.toList, h, List.flatMap_append, newlines_append,
      Nat.add_assoc, List.flatMap_singleton]
    rfl
  have hitem : (Piece.openString contents).item? (1 + newlines (ps.flatMap Piece.text)) =
      some (.error ⟨.lexical, 1 + newlines source.toList, "Unterminated string."⟩) := by
    rw [hline]
    rfl
  exact scan_of_split h hitem

/-- An open string is reported once at most, because there is one at most: it takes all the text
behind it. -/
theorem length_filter_unterminated_le (source : String) :
    ((scan source).diagnostics.filter fun d => d.message == "Unterminated string.").length ≤ 1 := by
  by_cases hopen : ∃ contents, Piece.openString contents ∈ Piece.split source.toList
  · obtain ⟨contents, hmem⟩ := hopen
    obtain ⟨front, ps, hsource, hquote, -, hclosed, hsplit⟩ :=
      Piece.exists_front_of_openString_mem hmem
    have hpieces : Piece.split source.toList = ps ++ [.openString contents] := by
      rw [hsource, hsplit, Piece.split_openString hquote]
    -- what is reported in front of the open string is something else
    have hnone : ((Piece.itemsOn 1 ps).filterMap Item.diagnostic?).filter
        (fun d => d.message == "Unterminated string.") = [] := by
      refine List.filter_eq_nil_iff.mpr fun d hd hmessage => ?_
      obtain ⟨other, hother⟩ := Piece.exists_openString_mem hd (by simpa using hmessage)
      exact hclosed other hother
    rw [(scan_of_split_openString hpieces).2, List.filter_append, hnone]
    exact List.length_filter_le _ _
  · have hnone := mt exists_openString_mem_split_iff.mpr hopen
    rw [List.filter_eq_nil_iff.mpr fun d hd hmessage => hnone ⟨d, hd, by simpa using hmessage⟩]
    exact Nat.zero_le 1

/-- **A string that is open is open to the end of the text, and a quote at the end mends that and
nothing else.** It is reported once, behind everything else, on the line that the text ends on. More
text without a quote leaves all as it is but for that line. With a quote behind it, the text from
the open quote on is one string, on the line of that quote, and the report is gone. -/
theorem scan_of_openString {source : String}
    (h : ∃ d ∈ (scan source).diagnostics, d.message = "Unterminated string.") :
    ∃ (front contents : String) (tokens : List Token) (diagnostics : List Diagnostic),
      source = front ++ "\"" ++ contents ∧ '"' ∉ contents.toList ∧
      (∀ d ∈ diagnostics, d.message ≠ "Unterminated string.") ∧
      (Scanner.ofText source).items.getLast? =
        some (.error ⟨.lexical, 1 + newlines source.toList, "Unterminated string."⟩) ∧
      scan source = ⟨tokens ++ [Token.endOfFile (1 + newlines source.toList)],
        diagnostics ++ [⟨.lexical, 1 + newlines source.toList, "Unterminated string."⟩]⟩ ∧
      ∀ s : String, '"' ∉ s.toList →
        scan (source ++ s) =
            ⟨tokens ++ [Token.endOfFile (1 + newlines source.toList + newlines s.toList)],
              diagnostics ++ [⟨.lexical, 1 + newlines source.toList + newlines s.toList,
                "Unterminated string."⟩]⟩ ∧
          scan (source ++ s ++ "\"") =
            ⟨tokens ++ [⟨.string, "\"" ++ contents ++ s ++ "\"", some (.string (contents ++ s)),
                1 + newlines front.toList⟩,
                Token.endOfFile (1 + newlines source.toList + newlines s.toList)],
              diagnostics⟩ := by
  obtain ⟨chars, hmem⟩ := exists_openString_mem_split_iff.mpr h
  obtain ⟨front, ps, hsource, hchars, hfront, hclosed, hsplit⟩ :=
    Piece.exists_front_of_openString_mem hmem
  have hopen : Piece.split source.toList = ps ++ [.openString chars] := by
    rw [hsource, hsplit, Piece.split_openString hchars]
  obtain ⟨hitems, hscan⟩ := scan_of_split_openString hopen
  -- the pieces in front of the quote stay for good, and what is behind it is one piece: the open
  -- string, the same one with `s` in it, or the closed one
  refine ⟨.ofList front, .ofList chars, _, _, ?_, by simpa using hchars, ?_, ?_, hscan, ?_⟩
  · simp [← String.toList_inj, hsource]
  · intro d hd hmessage
    obtain ⟨other, hother⟩ := Piece.exists_openString_mem hd hmessage
    exact hclosed other hother
  · rw [hitems, List.getLast?_concat]
  · intro s hs
    have hall : '"' ∉ chars ++ s.toList := by simp [hchars, hs]
    have hlines : 1 + newlines (source ++ s).toList =
        1 + newlines source.toList + newlines s.toList := by
      rw [String.toList_append, newlines_append, Nat.add_assoc]
    constructor
    · have hlonger :
          Piece.split (source ++ s).toList = ps ++ [.openString (chars ++ s.toList)] := by
        rw [String.toList_append, hsource, List.append_assoc, List.cons_append, hsplit,
          Piece.split_openString hall]
      rw [← hlines]
      exact (scan_of_split_openString hlonger).2
    -- with a quote at the end the last piece is a string that ends with the text
    · have hlist : (source ++ s ++ "\"").toList = front ++ '"' :: (chars ++ s.toList ++ ['"']) := by
        simp [hsource]
      have hmended : Piece.split (source ++ s ++ "\"").toList =
          ps ++ [.string (chars ++ s.toList)] := by
        have hstring := Piece.split_append_of_ends (p := .string (chars ++ s.toList)) hall .nil
        rw [List.append_nil, Piece.split] at hstring
        rw [hlist, hsplit, ← hstring]
        rfl
      have hend : newlines (source ++ s ++ "\"").toList = newlines (source ++ s).toList := by
        rw [String.toList_append, newlines_append]
        rfl
      have hlexeme : String.ofList (Piece.string (chars ++ s.toList)).text =
          "\"" ++ String.ofList chars ++ s ++ "\"" := by
        simp [← String.toList_inj, Piece.text]
      have hcontents : String.ofList (chars ++ s.toList) = String.ofList chars ++ s := by
        rw [String.ofList_append, String.ofList_toList]
      have hwhole := (scan_of_split hmended rfl).2
      rw [hend, hlines, hfront, hlexeme, hcontents] at hwhole
      rw [hwhole, String.toList_ofList]
      simp [Item.token?, Item.diagnostic?]

/-- A quote in a comment and a closed string over two lines, and then half an exponent and the quote
that stays open. -/
theorem scan_of_openString_behind_half_exponent :
    (∃ d ∈ (scan "//\"\n\"a\n\"1e\"b#").diagnostics, d.message = "Unterminated string.") ∧
      '"' ∉ "\n".toList ∧
      (scan ("//\"\n\"a\n\"1e\"b#" ++ "\n")).diagnostics =
        [⟨.lexical, 4, "Unterminated string."⟩] ∧
      (scan ("//\"\n\"a\n\"1e\"b#" ++ "\n" ++ "\"")).diagnostics = [] ∧
      ∃ contents line, (scan ("//\"\n\"a\n\"1e\"b#" ++ "\n" ++ "\"")).tokens =
        [⟨.string, "\"a\n\"", some (.string "a\n"), 2⟩,
          ⟨.number, "1", some (.number ⟨0x3FF0000000000000⟩), 3⟩, ⟨.identifier, "e", none, 3⟩,
          ⟨.string, "\"" ++ contents ++ "\n" ++ "\"", some (.string (contents ++ "\n")), line⟩,
          Token.endOfFile 4] := by
  have hfirst : scan "//\"\n\"a\n\"1e\"b#" =
      ⟨[⟨.string, "\"a\n\"", some (.string "a\n"), 2⟩,
        ⟨.number, "1", some (.number ⟨0x3FF0000000000000⟩), 3⟩, ⟨.identifier, "e", none, 3⟩,
        Token.endOfFile 3], [⟨.lexical, 3, "Unterminated string."⟩]⟩ := by decide +kernel
  have hopen : ∃ d ∈ (scan "//\"\n\"a\n\"1e\"b#").diagnostics,
      d.message = "Unterminated string." := by
    rw [hfirst]
    exact ⟨_, List.mem_singleton_self _, rfl⟩
  have hs : '"' ∉ "\n".toList := by decide
  obtain ⟨front, contents, tokens, diagnostics, -, -, -, -, hscan, hmore⟩ :=
    scan_of_openString hopen
  obtain ⟨hlonger, hmended⟩ := hmore "\n" hs
  rw [hfirst, Scan.mk.injEq] at hscan
  obtain ⟨htokens, -⟩ :=
    List.append_inj' (show [_, _, _] ++ [_] = tokens ++ [Token.endOfFile _] from hscan.1) rfl
  obtain ⟨hdiagnostics, -⟩ :=
    List.append_inj' (show [] ++ [_] = diagnostics ++ [_] from hscan.2) rfl
  subst htokens hdiagnostics
  rw [hlonger, hmended]
  exact ⟨hopen, hs, by decide, rfl, contents, _, by rfl⟩

end ScriptLexer
