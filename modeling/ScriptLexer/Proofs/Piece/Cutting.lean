import ScriptLexer.Proofs.Numeral.Cutting

/-!
# Units in front of other text

Cutting is greedy and decides by one or two characters. **It takes at least any unit that the text
starts with** (`exists_text_cut_append`), and exactly that unit when the text behind it starts with
nothing that the unit could go on with (`cut_append_of_ends`). Both go by the sort of the unit, and
each sort comes down to one equation for what is cut behind its first character.

Later files reason with these two and with the equations, and leave the tests of `Piece.cut` alone.
A sort of piece that is added to the language needs an equation here and a case in each of the two.
-/

set_option autoImplicit false

namespace ScriptLexer

/-! ## Operators

Cutting finds an operator by its first character and then, if there is a longer one, by the second.
What the two tables have in common with the spellings is checked row by row here, so that later
proofs speak of a character and the one behind it.
-/

namespace Operator

theorem ofChar?_head {o : Operator} (h : o.text.tail = []) :
    ofChar? (o.text.head o.text_ne_nil) = some o := by
  cases o <;> first | rfl | simp [text] at h

/-- An operator is one character long, or one character longer than such an operator. So the two
tables that cutting looks into, for the first character and for one more, reach all of them. -/
theorem ofChar?_or_extend? (o : Operator) :
    (∃ c, ofChar? c = some o) ∨ ∃ c short d, ofChar? c = some short ∧ short.extend? d = some o := by
  cases o with
  | bangEqual => exact Or.inr ⟨'!', .bang, '=', rfl, rfl⟩
  | equalEqual => exact Or.inr ⟨'=', .equal, '=', rfl, rfl⟩
  | greaterEqual => exact Or.inr ⟨'>', .greater, '=', rfl, rfl⟩
  | lessEqual => exact Or.inr ⟨'<', .less, '=', rfl, rfl⟩
  | minusMinus => exact Or.inr ⟨'-', .minus, '-', rfl, rfl⟩
  | plusPlus => exact Or.inr ⟨'+', .plus, '+', rfl, rfl⟩
  | _ => exact Or.inl ⟨_, ofChar?_head rfl⟩

/-- No other sort of piece starts with the character of an operator. -/
theorem starts_nothing_else {c : Char} {o : Operator} (h : ofChar? c = some o) :
    c ≠ '\n' ∧ isBlank c = false ∧ c ≠ '"' ∧ c.isDigit = false ∧ c.isAlpha = false := by
  unfold ofChar? at h
  split at h <;> first | contradiction | decide

theorem eq_slash_of_ofChar? {o : Operator} (h : ofChar? '/' = some o) : o = slash :=
  (Option.some.inj h).symm

theorem not_slash_of_extend? {c d : Char} {short longer : Operator} (hc : ofChar? c = some short)
    (hd : short.extend? d = some longer) : c ≠ '/' := by
  rintro rfl
  rw [eq_slash_of_ofChar? hc] at hd
  simp [extend?] at hd

theorem final_of_extend? {short longer : Operator} {c : Char} (h : short.extend? c = some longer) :
    longer ≠ slash ∧ ∀ d, longer.extend? d = none := by
  unfold extend? at h
  split at h <;> first | contradiction | (cases h; exact ⟨by decide, fun _ => rfl⟩)

end Operator

/-! ## What is cut, by the first characters

The tests of `Piece.cut` are made in an order, and a character is tested for a word only when it is
none of what comes before. No character passes two of the tests, apart from the slash, so each sort
has an equation in which the other tests are gone.
-/

/-- Letters and digits are not mistaken for what is tested before them. -/
theorem not_separator_of_isAlphanum {c : Char} (h : c.isAlphanum = true) :
    c ≠ '\n' ∧ isBlank c = false ∧ c ≠ '"' := by
  refine ⟨?_, Bool.eq_false_iff.mpr ?_, ?_⟩
  · rintro rfl
    exact absurd h (by decide)
  · intro hblank
    simp only [isBlank, Bool.or_eq_true, beq_iff_eq, or_assoc] at hblank
    rcases hblank with rfl | rfl | rfl <;> exact absurd h (by decide)
  · rintro rfl
    exact absurd h (by decide)

theorem toNat_le_of_isAlpha {c : Char} (h : c.isAlpha = true) : 'A'.toNat ≤ c.toNat := by
  have hcase : (c.isUpper || c.isLower) = true := h
  rcases Bool.or_eq_true_iff.mp hcase with hupper | hlower
  · have hrange : 'A'.val ≤ c.val ∧ c.val ≤ 'Z'.val := of_decide_eq_true hupper
    exact hrange.1
  · have hle : 'a'.val ≤ c.val := of_decide_eq_true (Bool.and_eq_true_iff.mp hlower).1
    exact Nat.le_trans (show 'A'.toNat ≤ 'a'.toNat by decide) hle

/-- A letter is no digit: the code points of digits are all below those of letters. -/
theorem isDigit_eq_false_of_isAlpha {c : Char} (h : c.isAlpha = true) : c.isDigit = false := by
  apply Bool.eq_false_iff.mpr
  intro hdigit
  have hle := Nat.le_trans (toNat_le_of_isAlpha h) (Char.isDigit_iff_toNat.mp hdigit).2
  exact absurd hle (by decide)

/-- What does not have a character in it is a run of others, which is the form that runs are cut in.
-/
theorem bne_of_not_mem {α : Type} [DecidableEq α] {d : α} {text : List α} (h : d ∉ text) :
    ∀ c ∈ text, (c != d) = true := by
  intro c hc
  rw [bne_iff_ne]
  rintro rfl
  exact h hc

namespace Piece

theorem cut_newline (rest : List Char) : cut '\n' rest = (newline, rest) := rfl

theorem cut_blank {c : Char} (h : isBlank c = true) (rest : List Char) :
    cut c rest = (blank c, rest) := by
  have hne : c ≠ '\n' := by
    rintro rfl
    exact absurd h (by decide)
  rw [cut, if_neg hne, if_pos h]

theorem cut_quote (rest : List Char) : cut '"' rest = cutString rest := by
  rw [cut, if_neg (by decide), if_neg (by decide), if_pos rfl]

theorem cut_digit {c : Char} (h : c.isDigit = true) (rest : List Char) :
    cut c rest = (number (Numeral.cut (c :: rest)).1, (Numeral.cut (c :: rest)).2) := by
  obtain ⟨hnewline, hblank, hquote⟩ := not_separator_of_isAlphanum (c := c)
    (by simp [Char.isAlphanum, h])
  rw [cut, if_neg hnewline, if_neg (by simp [hblank]), if_neg hquote, if_pos h]

theorem cut_alpha {c : Char} (h : c.isAlpha = true) (rest : List Char) :
    cut c rest = (word (c :: rest.takeWhile isWordChar), rest.dropWhile isWordChar) := by
  obtain ⟨hnewline, hblank, hquote⟩ := not_separator_of_isAlphanum (c := c)
    (by simp [Char.isAlphanum, h])
  rw [cut, if_neg hnewline, if_neg (by simp [hblank]), if_neg hquote,
    if_neg (by simp [isDigit_eq_false_of_isAlpha h]), if_pos h]

theorem cut_slashes (rest : List Char) :
    cut '/' ('/' :: rest) =
      (comment (rest.takeWhile (· != '\n')), rest.dropWhile (· != '\n')) := rfl

/-- A character that starts no other sort of piece is an operator, or the start of one, or a stray
character. -/
theorem cut_eq_cutOperator {c : Char} (hnewline : c ≠ '\n') (hblank : ¬ isBlank c = true)
    (hquote : c ≠ '"') (hdigit : ¬ c.isDigit = true) (halpha : ¬ c.isAlpha = true)
    {rest : List Char} (hslash : ¬ (c = '/' ∧ rest.head? = some '/')) :
    cut c rest = cutOperator c rest := by
  rw [cut, if_neg hnewline, if_neg hblank, if_neg hquote, if_neg hdigit, if_neg halpha,
    if_neg hslash]

theorem cut_operator {c : Char} {o : Operator} (h : Operator.ofChar? c = some o) {rest : List Char}
    (hslash : ¬ (c = '/' ∧ rest.head? = some '/')) : cut c rest = cutOperator c rest := by
  obtain ⟨hnewline, hblank, hquote, hdigit, halpha⟩ := Operator.starts_nothing_else h
  exact cut_eq_cutOperator hnewline (by simp [hblank]) hquote (by simp [hdigit]) (by simp [halpha])
    hslash

theorem cutOperator_of_ends {c : Char} {o : Operator} (h : Operator.ofChar? c = some o)
    {rest : List Char} (hrest : Ends (fun d => (o.extend? d).isSome) rest) :
    cutOperator c rest = (operator o, rest) := by
  cases rest with
  | nil => simp [cutOperator, Operator.cut?, h]
  | cons d rest =>
    have hd : o.extend? d = none := by simpa using hrest d rfl
    simp [cutOperator, Operator.cut?, h, hd]

theorem cutOperator_of_extend? {c d : Char} {short longer : Operator}
    (h : Operator.ofChar? c = some short) (hd : short.extend? d = some longer) (rest : List Char) :
    cutOperator c (d :: rest) = (operator longer, rest) := by
  simp [cutOperator, Operator.cut?, h, hd]

theorem cutString_of_append {contents : List Char} (h : '"' ∉ contents) (rest : List Char) :
    cutString (contents ++ '"' :: rest) = (string contents, rest) := by
  have hall := bne_of_not_mem h
  have hquote : Ends (· != '"') ('"' :: rest) := .cons rfl
  rw [cutString, hquote.takeWhile_append hall, hquote.dropWhile_append hall]

/-! ## A unit at the start of a text

Two cases, by whether the unit could go on with the character behind it. If it could not, the unit
itself is cut off; if it could, something longer may be, and then it is a unit as well.
-/

/-- Whether a unit with this character behind it may be, or be the start of, a longer one. For a
numeral that is a guess on the safe side: a mark behind it makes a longer one only if a digit
follows. -/
def continues : Piece → Char → Bool
  | blank _, _ => false
  | newline, _ => false
  | comment _, d => d != '\n'
  | operator o, d => (o.extend? d).isSome || (o == .slash && d == '/')
  | string _, _ => false
  | number _, d => Numeral.continues d
  | word _, d => isWordChar d
  | stray _, _ => false
  | openString _, _ => true

/-- An operator that goes on and does not become a longer one is the first slash of a comment. -/
theorem slash_of_continues {o : Operator} {d : Char} (hd : (operator o).continues d = true)
    (hextend : o.extend? d = none) : o = .slash ∧ d = '/' := by
  simpa [continues, hextend] using hd

theorem isDigit_of_isNumeral {lexeme rest tail : List Char} {c : Char} (hp : IsNumeral lexeme)
    (h : lexeme ++ rest = c :: tail) : c.isDigit = true := by
  obtain ⟨whole, fraction, exponent, hne, hwhole, -, -, rfl⟩ := hp
  cases whole with
  | nil => contradiction
  | cons d whole =>
    simp only [List.cons_append, List.cons.injEq] at h
    obtain ⟨rfl, -⟩ := h
    exact hwhole d List.mem_cons_self

/-- A text that starts with a unit and cannot go on with it has that unit cut off. The condition is
sufficient and not necessary, for numerals; for the other sorts it is both. -/
theorem cut_append_of_ends {p : Piece} (hp : p.IsUnit) {rest tail : List Char} {c : Char}
    (hrest : Ends p.continues rest) (h : p.text ++ rest = c :: tail) : cut c tail = (p, rest) := by
  cases p with
  | blank d =>
    simp only [text, List.cons_append, List.nil_append, List.cons.injEq] at h
    obtain ⟨rfl, rfl⟩ := h
    exact cut_blank hp rest
  | newline =>
    simp only [text, List.cons_append, List.nil_append, List.cons.injEq] at h
    obtain ⟨rfl, rfl⟩ := h
    exact cut_newline rest
  | comment body =>
    simp only [text, List.cons_append, List.cons.injEq] at h
    obtain ⟨rfl, rfl⟩ := h
    have hall := bne_of_not_mem hp
    rw [cut_slashes, Ends.takeWhile_append hall hrest, Ends.dropWhile_append hall hrest]
  | operator o =>
    have hextend : Ends (fun d => (o.extend? d).isSome) rest :=
      hrest.mono fun d hd => by simp [continues, hd]
    rcases o.ofChar?_or_extend? with ⟨d, hd⟩ | ⟨d, short, e, hd, he⟩
    · simp only [text, Operator.text_ofChar? hd, List.cons_append, List.nil_append,
        List.cons.injEq] at h
      obtain ⟨rfl, rfl⟩ := h
      rw [cut_operator hd, cutOperator_of_ends hd hextend]
      -- two slashes would be the start of a comment
      rintro ⟨rfl, hhead⟩
      have := hrest '/' hhead
      simp [continues, Operator.eq_slash_of_ofChar? hd] at this
    · simp only [text, Operator.text_extend? he, Operator.text_ofChar? hd, List.cons_append,
        List.nil_append, List.cons.injEq] at h
      obtain ⟨rfl, rfl⟩ := h
      rw [cut_operator hd fun hslash => Operator.not_slash_of_extend? hd he hslash.1,
        cutOperator_of_extend? hd he]
  | string contents =>
    simp only [text, List.cons_append, List.append_assoc, List.nil_append, List.cons.injEq] at h
    obtain ⟨rfl, rfl⟩ := h
    rw [cut_quote, cutString_of_append hp]
  | number lexeme =>
    have happend : lexeme ++ rest = c :: tail := h
    have hlexeme := Numeral.cut_append_of_ends hp hrest
    have hcut := Numeral.cut_append (lexeme ++ rest)
    rw [hlexeme] at hcut
    rw [cut_digit (isDigit_of_isNumeral hp happend), ← happend, hlexeme,
      List.append_cancel_left hcut]
  | word lexeme =>
    obtain ⟨first, more, hfirst, hmore, rfl⟩ := isWord_iff.mp hp
    simp only [text, List.cons_append, List.cons.injEq] at h
    obtain ⟨rfl, rfl⟩ := h
    rw [cut_alpha hfirst, Ends.takeWhile_append hmore hrest, Ends.dropWhile_append hmore hrest]
  | stray => exact hp.elim
  | openString => exact hp.elim

/-- An operator that can go on is one character long: a longer operator starts with it, or it is
the slash in front of another one. -/
theorem exists_text_cut_operator {o : Operator} {rest tail : List Char} {c : Char}
    (hrest : ¬ Ends (operator o).continues rest) (h : o.text ++ rest = c :: tail) :
    (cut c tail).1.IsUnit ∧ ∃ more, (cut c tail).1.text = o.text ++ more := by
  obtain ⟨d, behind, rfl, hd⟩ := Ends.exists_cons_of_not hrest
  rcases o.ofChar?_or_extend? with ⟨first, hfirst⟩ | ⟨first, short, second, hshort, hlonger⟩
  · simp only [Operator.text_ofChar? hfirst, List.cons_append, List.nil_append,
      List.cons.injEq] at h
    obtain ⟨rfl, rfl⟩ := h
    by_cases hslashes : first = '/' ∧ d = '/'
    · obtain ⟨rfl, rfl⟩ := hslashes
      rw [cut_slashes, Operator.text_ofChar? hfirst]
      exact ⟨not_mem_takeWhile_ne _ _, _, rfl⟩
    · cases hextend : o.extend? d with
      | none =>
        obtain ⟨rfl, rfl⟩ := slash_of_continues hd hextend
        have := Operator.text_ofChar? hfirst
        simp only [Operator.text, List.cons.injEq, and_true] at this
        exact absurd ⟨this.symm, rfl⟩ hslashes
      | some longer =>
        rw [cut_operator hfirst (by simpa using hslashes), cutOperator_of_extend? hfirst hextend]
        refine ⟨trivial, [d], ?_⟩
        simp only [text, Operator.text_extend? hextend]
  · -- an operator of two characters goes on as nothing
    obtain ⟨hne, hextend⟩ := Operator.final_of_extend? hlonger
    simp [continues, hextend, hne] at hd

/-- A text that starts with a unit has a unit cut off, and at least that unit. This is what makes
cutting longest match: no unit at the start of a text is longer than the one that is cut. -/
theorem exists_text_cut_append {p : Piece} (hp : p.IsUnit) {rest tail : List Char} {c : Char}
    (h : p.text ++ rest = c :: tail) :
    (cut c tail).1.IsUnit ∧ ∃ more, (cut c tail).1.text = p.text ++ more := by
  -- if the unit goes on with what follows, it does so as a unit of its own sort
  by_cases hrest : Ends p.continues rest
  · rw [cut_append_of_ends hp hrest h]
    exact ⟨hp, [], (List.append_nil _).symm⟩
  · cases p with
    | blank d => exact absurd (fun _ _ => rfl) hrest
    | newline => exact absurd (fun _ _ => rfl) hrest
    | comment body =>
      simp only [text, List.cons_append, List.cons.injEq] at h
      obtain ⟨rfl, rfl⟩ := h
      have hall := bne_of_not_mem hp
      rw [cut_slashes]
      refine ⟨not_mem_takeWhile_ne _ _, rest.takeWhile (· != '\n'), ?_⟩
      simp only [text, List.takeWhile_append_of_pos hall, List.cons_append]
    | operator o => exact exists_text_cut_operator hrest h
    | string contents => exact absurd (fun _ _ => rfl) hrest
    | number lexeme =>
      have happend : lexeme ++ rest = c :: tail := h
      have hdigit := isDigit_of_isNumeral hp happend
      rw [cut_digit hdigit]
      refine ⟨Numeral.isNumeral_cut tail hdigit, ?_⟩
      simp only [text, ← happend]
      exact Numeral.exists_cut_append hp rest
    | word lexeme =>
      obtain ⟨first, more, hfirst, hmore, rfl⟩ := isWord_iff.mp hp
      simp only [text, List.cons_append, List.cons.injEq] at h
      obtain ⟨rfl, rfl⟩ := h
      rw [cut_alpha hfirst]
      have hword : IsWord (first :: (more ++ rest).takeWhile isWordChar) := isWord_iff.mpr
        ⟨first, _, hfirst, fun _ hc => List.all_eq_true.mp List.all_takeWhile _ hc, rfl⟩
      refine ⟨hword, rest.takeWhile isWordChar, ?_⟩
      simp only [text, List.takeWhile_append_of_pos hmore, List.cons_append]
    | stray => exact hp.elim
    | openString => exact hp.elim

/-! ## What follows for whole texts -/

theorem text_ne_nil_of_isUnit {p : Piece} (hp : p.IsUnit) : p.text ≠ [] := by
  cases p with
  | operator o => exact o.text_ne_nil
  | number lexeme =>
    obtain ⟨whole, _, _, hne, -, -, -, rfl⟩ := hp
    simp [text, hne]
  | word lexeme =>
    obtain ⟨_, _, -, -, rfl⟩ := hp
    simp [text]
  | _ => simp [text]

/-- The text of a unit says which it is, since both units are what is cut from it. Without the
condition this fails: a stray character may be spelled like an operator. -/
theorem eq_of_text_eq {p q : Piece} (hp : p.IsUnit) (hq : q.IsUnit) (h : p.text = q.text) :
    p = q := by
  obtain ⟨c, tail, hsource⟩ := List.exists_cons_of_ne_nil (text_ne_nil_of_isUnit hp)
  have hp' := cut_append_of_ends hp .nil (by rw [List.append_nil, hsource])
  have hq' := cut_append_of_ends hq .nil (by rw [List.append_nil, ← h, hsource])
  exact (Prod.mk.inj (hp'.symm.trans hq')).1

/-- A unit in front of a text that it cannot go on into is the first piece of both together. -/
theorem split_append_of_ends {p : Piece} (hp : p.IsUnit) {rest : List Char}
    (hrest : Ends p.continues rest) : split (p.text ++ rest) = p :: split rest := by
  obtain ⟨c, tail, hsource⟩ := List.exists_cons_of_ne_nil
    (List.append_ne_nil_of_left_ne_nil (text_ne_nil_of_isUnit hp) rest)
  rw [hsource, split, cut_append_of_ends hp hrest hsource]

/-- The pieces of a text are units, but for stray characters and open strings. -/
theorem isUnit_of_mem_split {source : List Char} {p : Piece} (h : p ∈ split source) :
    p.IsUnit ∨ (∃ c, p = stray c) ∨ ∃ contents, p = openString contents ∧ '"' ∉ contents := by
  fun_induction split source with
  | case1 => simp at h
  | case2 c rest ih =>
    rcases List.mem_cons.mp h with rfl | h
    · rcases isUnit_cut c rest with hunit | hstray | ⟨hopen, -, hquote⟩
      · exact Or.inl hunit
      · exact Or.inr (Or.inl ⟨c, by rw [hstray]⟩)
      · exact Or.inr (Or.inr ⟨rest, by rw [hopen], hquote⟩)
    · exact ih h

end Piece

end ScriptLexer
