import ScriptLexer.Proofs.OpenString

/-!
# Blanks and comments mean nothing

What parts two texts may be one blank or many, and at the end of a line it may have a comment behind
it: **how a text goes on is the same, whatever blanks part it from the text in front of it**
(`scan_eq_of_spacing`). There is one thing that the text in front still decides, and it is said once
(`Piece.itemsOn_split_append`): a comment that it ends in takes the rest of the line, so that what
is on that line means nothing anyway (`Piece.leftBehind`).

The pieces of two such texts are not the same, since blanks and comments are pieces. So what is
compared from here on is items, which blanks and comments have none of.
-/

set_option autoImplicit false

namespace ScriptLexer

namespace Piece

/-! ## What means nothing -/

theorem newlines_eq_zero_of_blanks {blanks : List Char} (h : ∀ c ∈ blanks, isBlank c = true) :
    newlines blanks = 0 :=
  List.count_eq_zero.mpr fun hmem => absurd (h _ hmem) (by decide)

/-- Blanks in front of a text mean nothing. They are one piece each, and none of them moves the
line. -/
theorem itemsOn_split_blanks_append {blanks : List Char} (h : ∀ c ∈ blanks, isBlank c = true)
    (more : List Char) (line : Nat) :
    itemsOn line (split (blanks ++ more)) = itemsOn line (split more) := by
  induction blanks with
  | nil => rfl
  | cons c blanks ih =>
    obtain ⟨hc, hblanks⟩ := List.forall_mem_cons.mp h
    have hline : newlines (blank c).text = 0 :=
      newlines_eq_zero_of_blanks (by simpa [text] using hc)
    rw [List.cons_append, split, cut_blank hc, itemsOn, hline, Nat.add_zero]
    exact ih hblanks

theorem newlines_text_comment {body : List Char} (h : '\n' ∉ body) :
    newlines (comment body).text = 0 :=
  List.count_eq_zero.mpr (by simp [text, h])

/-- A comment takes what there is up to the next line feed, and means nothing. The body need not go
up to the end of the line: what is behind it on the line becomes part of the comment. -/
theorem itemsOn_split_comment_append {body : List Char} (h : '\n' ∉ body) (more : List Char)
    (line : Nat) :
    itemsOn line (split ((comment body).text ++ more)) =
      itemsOn line (split (more.dropWhile (· != '\n'))) := by
  have hlonger : '\n' ∉ body ++ more.takeWhile (· != '\n') := by
    intro hmem
    rcases List.mem_append.mp hmem with hmem | hmem
    · exact h hmem
    · exact not_mem_takeWhile_ne _ _ hmem
  have hunit : (comment (body ++ more.takeWhile (· != '\n'))).IsUnit := hlonger
  have hends : Ends (· != '\n') (more.dropWhile (· != '\n')) := .dropWhile _ more
  -- the comment together with what is behind it on the line is a comment up to the line feed
  have htext : (comment body).text ++ more =
      (comment (body ++ more.takeWhile (· != '\n'))).text ++ more.dropWhile (· != '\n') := by
    simp [text]
  rw [htext, (hunit.standsBefore hends).itemsOn_split_append, newlines_text_comment hlonger,
    Nat.add_zero]
  rfl

/-! ## Behind a text without an open string -/

/-- What a text leaves of the one behind it: all of it, unless it ends in a comment, which takes
what there is up to the next line feed. With it a statement about what follows a text needs no case
for comments. -/
def leftBehind (source more : List Char) : List Char :=
  match (split source).getLast? with
  | some (comment _) => more.dropWhile (· != '\n')
  | _ => more

@[simp] theorem leftBehind_nil (source : List Char) : leftBehind source [] = [] := by
  unfold leftBehind
  split <;> rfl

@[simp] theorem nil_leftBehind (more : List Char) : leftBehind [] more = more := by
  simp [leftBehind]

/-- A comment at the end of a text takes the rest of the line from the text behind. -/
theorem leftBehind_comment {body : List Char} (h : (comment body).StandsBefore [])
    (more : List Char) : leftBehind (comment body).text more = more.dropWhile (· != '\n') := by
  have hsplit := h.split_append
  rw [List.append_nil, split] at hsplit
  rw [leftBehind, hsplit]
  rfl

theorem leftBehind_append {p : Piece} {rest : List Char} (hp : p.StandsBefore rest)
    (hcomment : rest = [] → ∀ body, p ≠ comment body) (more : List Char) :
    leftBehind (p.text ++ rest) more = leftBehind rest more := by
  rw [leftBehind, leftBehind, hp.split_append]
  cases rest with
  | nil =>
    rw [split_nil]
    split
    · rename_i body heq
      exact absurd (Option.some.inj heq) (hcomment rfl body)
    · rfl
  | cons c tail => rw [split, List.getLast?_cons_cons]

/-- **A text without an open string means what it means by itself when a separator follows it**, and
so does what it leaves of the text behind it. -/
theorem itemsOn_split_append {source more : List Char}
    (hopen : ∀ contents, openString contents ∉ split source)
    (hmore : Ends (fun d => !separates d) more) (line : Nat) :
    itemsOn line (split (source ++ more)) =
      itemsOn line (split source) ++
        itemsOn (line + newlines source) (split (leftBehind source more)) := by
  induction source using piece_induction generalizing line with
  | nil => simp
  | piece p rest hp ih =>
    rw [hp.split_append] at hopen
    have hfirst : ∀ contents, p ≠ openString contents :=
      fun contents heq => hopen contents (heq ▸ List.mem_cons_self)
    have hbehind : ∀ contents, openString contents ∉ split rest :=
      fun contents hmem => hopen contents (List.mem_cons_of_mem _ hmem)
    -- only a comment at the end of the text goes on with the text behind it
    by_cases hcomment : ∃ body, p = comment body ∧ rest = []
    · obtain ⟨body, rfl, rfl⟩ := hcomment
      have hbody : '\n' ∉ body := hp.isUnit (by simp) (by simp)
      rw [List.append_nil, itemsOn_split_comment_append hbody, leftBehind_comment hp,
        newlines_text_comment hbody, ← List.append_nil (comment body).text,
        itemsOn_split_comment_append hbody]
      simp
    · have hcomment' : rest = [] → ∀ body, p ≠ comment body :=
        fun hnil body heq => hcomment ⟨body, heq, hnil⟩
      have hwhole := hp.append_of_separates hfirst hcomment' hmore
      rw [List.append_assoc, hwhole.itemsOn_split_append, ih hbehind, hp.itemsOn_split_append,
        leftBehind_append hp hcomment', newlines_append, List.append_assoc, Nat.add_assoc]

/-! ## Spacing -/

/-- The text parts what is in front of it from the text behind it, and means nothing there. The text
behind is part of the notion: a comment is spacing in front of a line feed, and not in front of a
name. -/
structure IsSpacing (spacing more : List Char) : Prop where
  starts : ∃ d behind, spacing = d :: behind ∧ isBlank d = true
  lineFeed_not_mem : '\n' ∉ spacing
  itemsOn_eq : ∀ line, itemsOn line (split (spacing ++ more)) = itemsOn line (split more)

theorem isSpacing_blanks {blanks : List Char} (hne : blanks ≠ [])
    (h : ∀ c ∈ blanks, isBlank c = true) (more : List Char) : IsSpacing blanks more where
  starts := by
    obtain ⟨d, behind, rfl⟩ := List.exists_cons_of_ne_nil hne
    exact ⟨d, behind, rfl, h d List.mem_cons_self⟩
  lineFeed_not_mem := fun hmem => absurd (h _ hmem) (by decide)
  itemsOn_eq := itemsOn_split_blanks_append h more

theorem IsSpacing.append_comment {spacing body more : List Char}
    (h : IsSpacing spacing ((comment body).text ++ more)) (hbody : '\n' ∉ body)
    (hmore : Ends (· != '\n') more) : IsSpacing (spacing ++ (comment body).text) more where
  starts := by
    obtain ⟨d, behind, rfl, hd⟩ := h.starts
    exact ⟨d, behind ++ (comment body).text, rfl, hd⟩
  lineFeed_not_mem := by simp [text, h.lineFeed_not_mem, hbody]
  itemsOn_eq := by
    intro line
    rw [List.append_assoc, h.itemsOn_eq, itemsOn_split_comment_append hbody,
      hmore.dropWhile_eq_self]

theorem IsSpacing.newlines_append {spacing more : List Char} (h : IsSpacing spacing more) :
    newlines (spacing ++ more) = newlines more := by
  have hnone : newlines spacing = 0 := List.count_eq_zero.mpr h.lineFeed_not_mem
  rw [ScriptLexer.newlines_append, hnone, Nat.zero_add]

/-- Behind a text without an open string spacing is as good as nothing but for what it parts: how
the text goes on does not depend on which spacing it is. -/
theorem IsSpacing.itemsOn_split_append {source spacing more : List Char}
    (h : IsSpacing spacing more) (hopen : ∀ contents, openString contents ∉ split source)
    (line : Nat) :
    itemsOn line (split (source ++ (spacing ++ more))) =
      itemsOn line (split source) ++
        itemsOn (line + newlines source) (split (leftBehind source more)) := by
  have hseparates : Ends (fun d => !separates d) (spacing ++ more) := by
    obtain ⟨d, behind, rfl, hd⟩ := h.starts
    exact .cons (by simp [separates_of_isBlank hd])
  have hleft : ∀ n, itemsOn n (split (leftBehind source (spacing ++ more))) =
      itemsOn n (split (leftBehind source more)) := by
    intro n
    unfold leftBehind
    split
    · rw [List.dropWhile_append_of_pos (bne_of_not_mem h.lineFeed_not_mem)]
    · exact h.itemsOn_eq n
  rw [Piece.itemsOn_split_append hopen hseparates, hleft]

/-- Blanks at the end of a text mean nothing, unless a string is open there. -/
theorem itemsOn_split_append_blanks {source blanks : List Char}
    (hopen : ∀ contents, openString contents ∉ split source)
    (hblanks : ∀ c ∈ blanks, isBlank c = true) (line : Nat) :
    (∀ contents, openString contents ∉ split (source ++ blanks)) ∧
      itemsOn line (split (source ++ blanks)) = itemsOn line (split source) := by
  have hitems : itemsOn line (split (source ++ blanks)) = itemsOn line (split source) := by
    cases blanks with
    | nil => rw [List.append_nil]
    | cons c blanks =>
      have hspacing := isSpacing_blanks (List.cons_ne_nil c blanks) hblanks []
      have hwhole := hspacing.itemsOn_split_append hopen line
      rwa [List.append_nil, leftBehind_nil, split, itemsOn, List.append_nil] at hwhole
  refine ⟨fun contents hmem => ?_, hitems⟩
  -- an open string would be reported
  obtain ⟨d, hd, hmessage⟩ := exists_of_openString_mem hmem line
  rw [hitems] at hd
  obtain ⟨other, hother⟩ := exists_openString_mem hd hmessage
  exact hopen other hother

end Piece

/-! ## Scans -/

/-- One blank or several: spaces, tabs and carriage returns. -/
def IsBlanks (text : String) : Prop := text ≠ "" ∧ ∀ c ∈ text.toList, isBlank c = true

theorem IsBlanks.isSpacing {text : String} (h : IsBlanks text) (more : List Char) :
    Piece.IsSpacing text.toList more :=
  Piece.isSpacing_blanks (fun hnil => h.1 (String.toList_eq_nil_iff.mp hnil)) h.2 more

/-- A scan is its items and the line that it ends on, and nothing else of the text. -/
theorem scan_congr {a b : String}
    (hitems : Piece.itemsOn 1 (Piece.split a.toList) = Piece.itemsOn 1 (Piece.split b.toList))
    (hlines : newlines a.toList = newlines b.toList) : scan a = scan b := by
  rw [scan_eq, scan_eq, hitems, hlines]

/-- **Which blanks part two texts makes no difference to the scan**, and at the end of a line blanks
with a comment behind them are as good as nothing. The text in front must not leave a string open,
and may end in whatever else: in half an exponent, in a slash, in a comment. -/
theorem scan_eq_of_spacing {a : String}
    (ha : ∀ d ∈ (scan a).diagnostics, d.message ≠ "Unterminated string.") (b : String) :
    (∀ w₁ w₂, IsBlanks w₁ → IsBlanks w₂ → scan (a ++ w₁ ++ b) = scan (a ++ w₂ ++ b)) ∧
      ((b = "" ∨ ∃ more, b = "\n" ++ more) → ∀ w c : String, IsBlanks w → '\n' ∉ c.toList →
        scan (a ++ w ++ "//" ++ c ++ b) = scan (a ++ b)) := by
  have hopen := openString_not_mem_split ha
  constructor
  · intro w₁ w₂ hw₁ hw₂
    have h₁ := hw₁.isSpacing b.toList
    have h₂ := hw₂.isSpacing b.toList
    refine scan_congr ?_ ?_ <;> simp only [String.toList_append, List.append_assoc]
    · rw [h₁.itemsOn_split_append hopen, h₂.itemsOn_split_append hopen]
    · rw [newlines_append, h₁.newlines_append, newlines_append, h₂.newlines_append]
  · intro hb w c hw hc
    -- `b` starts with a line feed or not at all, so the comment takes nothing of it
    have hends : Ends (· != '\n') b.toList := by
      rcases hb with rfl | ⟨more, rfl⟩
      · exact .nil
      · rw [String.toList_append]
        exact .cons rfl
    have hseparates : Ends (fun d => !separates d) b.toList := by
      refine hends.mono fun d hd => ?_
      rw [bne_iff_ne]
      rintro rfl
      contradiction
    have hspacing := (hw.isSpacing _).append_comment hc hends
    have htext : (a ++ w ++ "//" ++ c ++ b).toList =
        a.toList ++ (w.toList ++ (Piece.comment c.toList).text ++ b.toList) := by
      simp [Piece.text]
    refine scan_congr ?_ ?_ <;> rw [htext, String.toList_append]
    · rw [hspacing.itemsOn_split_append hopen, Piece.itemsOn_split_append hopen hseparates]
    · rw [newlines_append, hspacing.newlines_append, newlines_append]

/-- Half an exponent, with blanks between it and the digit that would make it whole, or with a
comment behind it that holds a quote and a stray character. -/
theorem scan_eq_of_spacing_half_exponent :
    (∀ d ∈ (scan "1e").diagnostics, d.message ≠ "Unterminated string.") ∧ IsBlanks " " ∧
      IsBlanks "\t\r" ∧ '\n' ∉ "\"@".toList ∧
      scan ("1e" ++ "\t\r" ++ "5") = scan ("1e" ++ " " ++ "5") ∧
      scan ("1e" ++ " " ++ "//" ++ "\"@" ++ "\n5") = scan ("1e" ++ "\n5") ∧
      (scan ("1e" ++ "\n5")).tokens = [⟨.number, "1", some (.number ⟨0x3FF0000000000000⟩), 1⟩,
        ⟨.identifier, "e", none, 1⟩, ⟨.number, "5", some (.number ⟨0x4014000000000000⟩), 2⟩,
        Token.endOfFile 2] := by
  have hclosed : ∀ d ∈ (scan "1e").diagnostics, d.message ≠ "Unterminated string." := by
    decide +kernel
  have hone : IsBlanks " " := ⟨by decide, by simp [isBlank]⟩
  have htwo : IsBlanks "\t\r" := ⟨by decide, by simp [isBlank]⟩
  have hcomment : '\n' ∉ "\"@".toList := by decide
  have hblanks := (scan_eq_of_spacing hclosed "5").1 "\t\r" " " htwo hone
  have hline := (scan_eq_of_spacing hclosed "\n5").2 (Or.inr ⟨"5", rfl⟩) " " "\"@" hone hcomment
  exact ⟨hclosed, hone, htwo, hcomment, hblanks, hline, by decide +kernel⟩

end ScriptLexer
