import ScriptLexer.Proofs.Piece.Cutting

/-!
# What stands behind a piece

A text is a piece in front of a shorter text, and which texts may stand behind a piece is all that
cutting decides (`StandsBefore`). Two scans of texts that drift apart in length are compared by
that: go through one text piece by piece (`piece_induction`), and show of each piece that it stands
before the other text as well. **Behind a piece everything can be exchanged from a character on that
is in no numeral** (`StandsBefore.exchange`), because only a numeral looks further than one
character, and it stops looking there. What is put in its place must not start with something that
the piece could go on with.

Every comparison of two scans in this library is an instance of that: blanks put between two texts,
a string replaced by another, an open string closed, line feeds that gain a carriage return. What
changes from one to the next is which character the exchange starts at.
-/

set_option autoImplicit false

namespace ScriptLexer

namespace Piece

/-- The piece is what is cut off where it has this text behind it. It is a relation between a piece
and what follows, and so it can be asked of a text that is not there yet. -/
def StandsBefore (p : Piece) (rest : List Char) : Prop :=
  ∃ c tail, p.text ++ rest = c :: tail ∧ cut c tail = (p, rest)

theorem standsBefore_cut (c : Char) (tail : List Char) :
    (cut c tail).1.StandsBefore (cut c tail).2 :=
  ⟨c, tail, text_append_cut c tail, rfl⟩

theorem IsUnit.standsBefore {p : Piece} (hp : p.IsUnit) {rest : List Char}
    (h : Ends p.continues rest) : p.StandsBefore rest := by
  obtain ⟨c, tail, hsource⟩ := List.exists_cons_of_ne_nil
    (List.append_ne_nil_of_left_ne_nil (text_ne_nil_of_isUnit hp) rest)
  exact ⟨c, tail, hsource, cut_append_of_ends hp h hsource⟩

/-- An open string stands at the end of a text, and nowhere else (`of_openString`). -/
theorem openString_standsBefore {contents : List Char} (h : '"' ∉ contents) :
    (openString contents).StandsBefore [] := by
  have hdrop := Ends.nil.dropWhile_append (bne_of_not_mem h)
  rw [List.append_nil] at hdrop
  refine ⟨'"', contents, List.append_nil _, ?_⟩
  rw [cut_quote, cutString, hdrop]

/-- Every text is empty, or a piece in front of a text that it stands before. The induction follows
the recursion of `split` and shows its steps as appended texts, where `split` itself shows a first
character and a tail. -/
@[elab_as_elim]
theorem piece_induction {motive : List Char → Prop} (nil : motive [])
    (piece : ∀ p rest, StandsBefore p rest → motive rest → motive (p.text ++ rest))
    (source : List Char) : motive source := by
  fun_induction split source with
  | case1 => exact nil
  | case2 c tail ih =>
    rw [← text_append_cut c tail]
    exact piece _ _ (standsBefore_cut c tail) ih

/-! ## Stray characters -/

/-- No piece of another sort starts with the character. These are the tests of `Piece.cut`, each
failed; the two slashes of a comment need no field, since a slash is an operator. -/
structure IsStray (c : Char) : Prop where
  not_newline : c ≠ '\n'
  not_blank : isBlank c = false
  not_quote : c ≠ '"'
  not_digit : c.isDigit = false
  not_alpha : c.isAlpha = false
  not_operator : Operator.ofChar? c = none

theorem IsStray.cut_eq {c : Char} (h : IsStray c) (tail : List Char) :
    cut c tail = (stray c, tail) := by
  have hslash : ¬ (c = '/' ∧ tail.head? = some '/') := by
    rintro ⟨rfl, -⟩
    exact absurd h.not_operator (by decide)
  rw [cut_eq_cutOperator h.not_newline (by simp [h.not_blank]) h.not_quote (by simp [h.not_digit])
    (by simp [h.not_alpha]) hslash, cutOperator, Operator.cut?, h.not_operator]

/-- A stray character is in no numeral: it is neither a digit nor a letter, and the other characters
of a numeral are operators. -/
theorem IsStray.isPart_eq_false {c : Char} (h : IsStray c) : Numeral.isPart c = false := by
  have hother : ∀ d, d.isAlpha = true ∨ (Operator.ofChar? d).isSome = true → (c == d) = false := by
    intro d hd
    rw [beq_eq_false_iff_ne]
    rintro rfl
    rcases hd with halpha | hoperator
    · rw [h.not_alpha] at halpha
      contradiction
    · rw [h.not_operator] at hoperator
      contradiction
  rw [Numeral.isPart, Numeral.continues, h.not_digit, hother '.' (by decide),
    hother 'e' (by decide), hother 'E' (by decide), hother '+' (by decide), hother '-' (by decide)]
  rfl

theorem IsStray.continues_eq_false {c : Char} (h : IsStray c) : Numeral.continues c = false := by
  have hpart := h.isPart_eq_false
  rw [Numeral.isPart, Bool.or_eq_false_iff, Bool.or_eq_false_iff] at hpart
  exact hpart.1.1

/-- What is cut off as a stray character failed every test, and is one character. -/
theorem isStray_of_cut {c d : Char} {tail rest : List Char} (h : cut c tail = (stray d, rest)) :
    IsStray c ∧ c = d ∧ tail = rest := by
  by_cases hnewline : c = '\n'
  · subst hnewline
    simp [cut_newline] at h
  by_cases hblank : isBlank c = true
  · simp [cut_blank hblank] at h
  by_cases hquote : c = '"'
  · subst hquote
    rw [cut_quote, cutString] at h
    split at h <;> simp at h
  by_cases hdigit : c.isDigit = true
  · simp [cut_digit hdigit] at h
  by_cases halpha : c.isAlpha = true
  · simp [cut_alpha halpha] at h
  by_cases hslashes : c = '/' ∧ tail.head? = some '/'
  · obtain ⟨rfl, hhead⟩ := hslashes
    obtain ⟨body, rfl⟩ := List.head?_eq_some_iff.mp hhead
    simp [cut_slashes] at h
  rw [cut_eq_cutOperator hnewline hblank hquote hdigit halpha hslashes, cutOperator] at h
  cases hoperator : Operator.ofChar? c with
  | some o =>
    -- an operator is cut off, the short one or a longer one
    cases tail with
    | nil => simp [Operator.cut?, hoperator] at h
    | cons e tail => cases he : o.extend? e <;> simp [Operator.cut?, hoperator, he] at h
  | none =>
    simp only [Operator.cut?, hoperator, Prod.mk.injEq, stray.injEq] at h
    exact ⟨⟨hnewline, by simpa using hblank, hquote, by simpa using hdigit, by simpa using halpha,
      hoperator⟩, h⟩

/-! ## Behind one piece -/

/-- A unit with a character behind it that it can go on with is the start of a longer unit, unless
it is a numeral, which may need more than one character to go on. The longer unit is named in each
case, as it would be cut off if the character were there. -/
theorem IsUnit.exists_longer {p : Piece} (hp : p.IsUnit) (hnumber : ∀ lexeme, p ≠ number lexeme)
    {d : Char} (hd : p.continues d = true) : ∃ q : Piece, q.IsUnit ∧ q.text = p.text ++ [d] := by
  cases p with
  | comment body =>
    have hne : d ≠ '\n' := by simpa [continues] using hd
    refine ⟨comment (body ++ [d]), ?_, by simp [text]⟩
    intro hmem
    rcases List.mem_append.mp hmem with hmem | hmem
    · exact hp hmem
    · exact hne (List.mem_singleton.mp hmem).symm
  | operator o =>
    cases hextend : o.extend? d with
    | some longer => exact ⟨operator longer, trivial, Operator.text_extend? hextend⟩
    | none =>
      obtain ⟨rfl, rfl⟩ := slash_of_continues hd hextend
      exact ⟨comment [], List.not_mem_nil, rfl⟩
  | word lexeme =>
    obtain ⟨first, more, hfirst, hmore, rfl⟩ := isWord_iff.mp hp
    refine ⟨word (first :: more ++ [d]), isWord_iff.mpr ⟨first, more ++ [d], hfirst, ?_, rfl⟩, rfl⟩
    exact List.forall_mem_append.mpr ⟨hmore, List.forall_mem_singleton.mpr hd⟩
  | number lexeme => exact absurd rfl (hnumber lexeme)
  | stray => exact hp.elim
  | openString => exact hp.elim
  | _ => contradiction

namespace StandsBefore

variable {p : Piece} {rest : List Char}

theorem split_append (h : p.StandsBefore rest) : split (p.text ++ rest) = p :: split rest := by
  obtain ⟨c, tail, hsource, hcut⟩ := h
  rw [hsource, split, hcut]

/-- The step of `piece_induction` for items: a piece means something on its line, and the text
behind it starts on the line that the piece ends on. -/
theorem itemsOn_split_append (h : p.StandsBefore rest) (line : Nat) :
    itemsOn line (split (p.text ++ rest)) =
      (p.item? line).toList ++ itemsOn (line + newlines p.text) (split rest) := by
  rw [h.split_append, itemsOn]

/-- What stands before a text is a unit, or a stray character, or a string that is open to the end
of the text. With each comes what is known of it besides. -/
theorem cases (h : p.StandsBefore rest) :
    p.IsUnit ∨ (∃ c, p = stray c ∧ IsStray c) ∨
      ∃ contents, p = openString contents ∧ '"' ∉ contents ∧ rest = [] := by
  obtain ⟨c, tail, -, hcut⟩ := h
  have hunit := isUnit_cut c tail
  rw [hcut] at hunit
  rcases hunit with hunit | hstray | ⟨hopen, -, hquote⟩
  · exact Or.inl hunit
  · exact Or.inr (Or.inl ⟨c, (Prod.mk.inj hstray).1, (isStray_of_cut (hcut.trans hstray)).1⟩)
  · obtain ⟨hp, hrest⟩ := Prod.mk.inj hopen
    exact Or.inr (Or.inr ⟨tail, hp, hquote, hrest⟩)

theorem isUnit (h : p.StandsBefore rest) (hstray : ∀ c, p ≠ stray c)
    (hopen : ∀ contents, p ≠ openString contents) : p.IsUnit := by
  rcases h.cases with hunit | ⟨c, heq, -⟩ | ⟨contents, heq, -⟩
  · exact hunit
  · exact absurd heq (hstray c)
  · exact absurd heq (hopen contents)

theorem of_openString {contents : List Char} (h : (openString contents).StandsBefore rest) :
    '"' ∉ contents ∧ rest = [] := by
  rcases h.cases with hunit | ⟨c, heq, -⟩ | ⟨other, heq, hquote, hrest⟩
  · exact hunit.elim
  · exact Piece.noConfusion heq
  · rw [openString.inj heq]
    exact ⟨hquote, hrest⟩

theorem of_stray {c : Char} (h : (stray c).StandsBefore rest) : IsStray c := by
  rcases h.cases with hunit | ⟨d, heq, hd⟩ | ⟨contents, heq, -⟩
  · exact hunit.elim
  · rwa [stray.inj heq]
  · exact Piece.noConfusion heq

/-- A piece that stands before a text cannot go on with what the text starts with, unless it is a
numeral: a mark behind it is no exponent yet. -/
theorem ends_continues (h : p.StandsBefore rest) (hnumber : ∀ lexeme, p ≠ number lexeme) :
    Ends p.continues rest := by
  rcases h.cases with hunit | ⟨c, rfl, -⟩ | ⟨contents, rfl, -, rfl⟩
  · refine Classical.byContradiction fun hends => ?_
    obtain ⟨d, behind, rfl, hd⟩ := Ends.exists_cons_of_not hends
    obtain ⟨q, hq, hqtext⟩ := hunit.exists_longer hnumber hd
    obtain ⟨c, tail, hsource, hcut⟩ := h
    -- the longer unit would have been cut off instead
    have hlonger : q.text ++ behind = c :: tail := by rw [hqtext, ← List.append_cons, hsource]
    obtain ⟨-, more, hmore⟩ := exists_text_cut_append hq hlonger
    have hlength := congrArg List.length hmore
    rw [hcut, hqtext] at hlength
    simp only [List.length_append, List.length_singleton] at hlength
    omega
  · exact fun _ _ => rfl
  · exact .nil

/-- A character that no numeral goes on with is enough: nothing that stands before it goes on with
it. For a numeral that is the condition itself, and for the others it is not needed. -/
theorem continues_eq_false {d : Char} {behind : List Char} (h : p.StandsBefore (d :: behind))
    (hd : Numeral.continues d = false) : p.continues d = false := by
  by_cases hnumber : ∃ lexeme, p = number lexeme
  · obtain ⟨lexeme, rfl⟩ := hnumber
    exact hd
  · exact h.ends_continues (not_exists.mp hnumber) d rfl

/-- A numeral stands before a text if it is what a numeral takes of both together. This is as far as
one can go for numerals without saying what follows. -/
theorem number_iff {lexeme : List Char} :
    (number lexeme).StandsBefore rest ↔
      IsNumeral lexeme ∧ Numeral.cut (lexeme ++ rest) = (lexeme, rest) := by
  constructor
  · intro h
    have hnumeral : IsNumeral lexeme := h.isUnit (by simp) (by simp)
    obtain ⟨c, tail, hsource, hcut⟩ := h
    rw [cut_digit (isDigit_of_isNumeral hnumeral hsource), ← hsource] at hcut
    obtain ⟨hlexeme, hrest⟩ := Prod.mk.inj hcut
    exact ⟨hnumeral, Prod.ext (number.inj hlexeme) hrest⟩
  · rintro ⟨hnumeral, hcut⟩
    obtain ⟨c, tail, hsource⟩ := List.exists_cons_of_ne_nil
      (List.append_ne_nil_of_left_ne_nil (text_ne_nil_of_isUnit (p := number lexeme) hnumeral) rest)
    refine ⟨c, tail, hsource, ?_⟩
    rw [cut_digit (isDigit_of_isNumeral hnumeral hsource), ← hsource]
    simp only [text, hcut]

/-- **Behind a piece everything can be exchanged from a character on that is in no numeral**, for
something else that starts with such a character and that the piece cannot go on with. -/
theorem exchange {kept old new : List Char} (h : p.StandsBefore (kept ++ old))
    (hold : Ends Numeral.isPart old) (hnew : Ends Numeral.isPart new)
    (hnext : kept = [] → Ends p.continues new) : p.StandsBefore (kept ++ new) := by
  have hends : (∀ lexeme, p ≠ number lexeme) → Ends p.continues (kept ++ new) := by
    intro hnumber
    cases kept with
    | nil => exact hnext rfl
    | cons d kept => exact .cons (h.ends_continues hnumber d rfl)
  rcases h.cases with hunit | ⟨c, rfl, hc⟩ | ⟨contents, rfl, -, hnil⟩
  · by_cases hnumber : ∃ lexeme, p = number lexeme
    · obtain ⟨lexeme, rfl⟩ := hnumber
      obtain ⟨hnumeral, hcut⟩ := number_iff.mp h
      -- what the numeral takes is decided by what is kept
      rw [← List.append_assoc, Numeral.cut_append_of_ends_isPart hold] at hcut
      obtain ⟨hlexeme, hkept⟩ := Prod.mk.inj hcut
      refine number_iff.mpr ⟨hnumeral, ?_⟩
      rw [← List.append_assoc, Numeral.cut_append_of_ends_isPart hnew, hlexeme,
        List.append_cancel_right hkept]
    · exact hunit.standsBefore (hends (not_exists.mp hnumber))
  · exact ⟨c, kept ++ new, rfl, hc.cut_eq _⟩
  · -- nothing can be put behind an open string
    obtain ⟨rfl, rfl⟩ := List.append_eq_nil_iff.mp hnil
    cases new with
    | nil => exact h
    | cons d new => exact absurd (hnext rfl d rfl) Bool.noConfusion

/-- What a piece stands before may have more text behind it, from a character on that is in no
numeral. -/
theorem append {more : List Char} (h : p.StandsBefore rest) (hmore : Ends Numeral.isPart more)
    (hnext : rest = [] → Ends p.continues more) : p.StandsBefore (rest ++ more) := by
  rw [← List.append_nil rest] at h
  exact h.exchange .nil hmore hnext

end StandsBefore

end Piece

end ScriptLexer
