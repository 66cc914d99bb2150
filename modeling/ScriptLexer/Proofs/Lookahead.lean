import ScriptLexer.Proofs.Piece.Cutting
import ScriptLexer.Scan

/-!
# How far later text reaches back

Cutting a piece looks at most two characters past it: at a mark and a sign, which belong to the
numeral in front of them only if a digit comes third. **So a piece with three characters behind it
is final** (`Piece.cut_append`), and what a longer text may still change is the piece that takes the
last three characters or reaches into them, and those behind it. That is three pieces at most, and
so it is three items (`items_take_isPrefix`).

Each sort of piece has its own bound, and most are final with one character behind them. The three
are for numerals, and within them for the exponent, which is the only part that looks before it
takes.
-/

set_option autoImplicit false

namespace ScriptLexer

/-! ## Numerals

Each part of a numeral has its own bound. Digits, a fraction and a sign are final with one character
behind them, and only where an exponent might start are three needed, for its mark, its sign and a
digit.
-/

namespace Numeral

variable {text : List Char}

/-- A fraction with anything behind it is final: a digit would have been taken along. -/
theorem fraction_append_text (h : (fraction text).2 ≠ []) (more : List Char) :
    fraction (text ++ more) = ((fraction text).1, (fraction text).2 ++ more) := by
  cases text with
  | nil => exact absurd rfl h
  | cons c text =>
    by_cases hc : c = '.'
    · subst hc
      have hends : text.dropWhile Char.isDigit = [] → Ends Char.isDigit more :=
        fun hnil => absurd hnil h
      simp only [List.cons_append, fraction, takeWhile_append_of_ends hends,
        dropWhile_append_of_ends hends]
    · have hends : ∀ behind, Ends (· == '.') (c :: behind) := fun _ => .cons (by simpa using hc)
      rw [List.cons_append, fraction_of_ends (hends _), fraction_of_ends (hends _),
        List.cons_append]

theorem sign_append_text (h : text ≠ []) (more : List Char) :
    sign (text ++ more) = ((sign text).1, (sign text).2 ++ more) := by
  cases text with
  | nil => contradiction
  | cons c text =>
    by_cases hc : c = '+' ∨ c = '-'
    · rcases hc with rfl | rfl <;> rfl
    · have hends : ∀ behind, Ends (fun c => c == '+' || c == '-') (c :: behind) :=
        fun _ => .cons (by simpa using hc)
      rw [List.cons_append, sign_of_ends (hends _), sign_of_ends (hends _), List.cons_append]

/-- A mark in front of a sign and no digits is all that is left of a text of two characters. This is
the case that three characters rule out. -/
theorem length_le_of_sign_eq_nil {mark : Char} (h : (sign text).2 = []) :
    (mark :: text).length ≤ 2 := by
  have hsign : (sign text).1.length ≤ 1 := by
    rcases isSign_sign text with h | h | h <;> simp [h]
  have htext := congrArg List.length (sign_append text)
  rw [h, List.append_nil] at htext
  rw [List.length_cons, ← htext]
  exact Nat.succ_le_succ hsign

/-- An exponent, or that there is none, is final with three characters behind it. If none was taken,
three are enough to see that none will be: a mark, a sign, and one more that is no digit. -/
theorem exponent_append_text (h : 2 < (exponent text).2.length) (more : List Char) :
    exponent (text ++ more) = ((exponent text).1, (exponent text).2 ++ more) := by
  cases text with
  | nil => simp [exponent] at h
  | cons mark text =>
    by_cases hmark : mark = 'e' ∨ mark = 'E'
    · have hlength : 2 < (mark :: text).length := by
        have htext := congrArg List.length (exponent_append (mark :: text))
        rw [List.length_append] at htext
        omega
      have hne : text ≠ [] := by
        rintro rfl
        simp at hlength
      -- digits up to the end of the text would all be taken, and would leave nothing
      have hdigits : (sign text).2.dropWhile Char.isDigit ≠ [] := by
        intro hnil
        have hall : (sign text).2.takeWhile Char.isDigit = (sign text).2 := by
          have happend := List.takeWhile_append_dropWhile (p := Char.isDigit) (l := (sign text).2)
          rwa [hnil, List.append_nil] at happend
        have hsome : (sign text).2 ≠ [] := by
          intro hsign
          have hshort : (mark :: text).length ≤ 2 := length_le_of_sign_eq_nil hsign
          omega
        have hexponent : (exponent (mark :: text)).2 = (sign text).2.dropWhile Char.isDigit := by
          simp only [exponent, hall]
          rw [if_pos ⟨hmark, hsome⟩]
        rw [hexponent, hnil] at h
        simp at h
      have hends : (sign text).2.dropWhile Char.isDigit = [] → Ends Char.isDigit more :=
        fun hnil => absurd hnil hdigits
      simp only [List.cons_append, exponent, sign_append_text hne, takeWhile_append_of_ends hends,
        dropWhile_append_of_ends hends]
      split <;> rfl
    · have hends : ∀ behind, Ends (fun c => c == 'e' || c == 'E') (mark :: behind) :=
        fun _ => .cons (by simpa using hmark)
      rw [List.cons_append, exponent_of_ends (hends _), exponent_of_ends (hends _),
        List.cons_append]

/-- A numeral with three characters behind it is final. -/
theorem cut_append_text (h : 2 < (cut text).2.length) (more : List Char) :
    cut (text ++ more) = ((cut text).1, (cut text).2 ++ more) := by
  have hexponent : 2 < (exponent (fraction (text.dropWhile Char.isDigit)).2).2.length := h
  have hfraction : (fraction (text.dropWhile Char.isDigit)).2 ≠ [] := by
    intro hnil
    simp [hnil, exponent] at hexponent
  have hends : text.dropWhile Char.isDigit = [] → Ends Char.isDigit more := by
    intro hnil
    simp [hnil, fraction] at hfraction
  simp only [cut, takeWhile_append_of_ends hends, dropWhile_append_of_ends hends,
    fraction_append_text hfraction, exponent_append_text hexponent]

end Numeral

/-! ## Pieces

A piece that is final with the characters behind it is cut from the longer text as well. By going
through the text as long as pieces are final, the pieces are parted into those that are kept and
three at most that may be lost.
-/

namespace Piece

/-- A string that is closed is final, and an open one has nothing behind it. -/
theorem cutString_append {tail : List Char} (h : tail.dropWhile (· != '"') ≠ [])
    (rest : List Char) :
    cutString (tail ++ rest) = ((cutString tail).1, (cutString tail).2 ++ rest) := by
  have hends : tail.dropWhile (· != '"') = [] → Ends (· != '"') rest := fun hnil => absurd hnil h
  simp only [cutString, takeWhile_append_of_ends hends, dropWhile_append_of_ends hends]
  cases hd : tail.dropWhile (· != '"') with
  | nil => contradiction
  | cons quote after => rfl

/-- An operator is final when there was a second character to look at. -/
theorem cutOperator_append_text {c : Char} {tail : List Char} (h : tail ≠ []) (more : List Char) :
    cutOperator c (tail ++ more) = ((cutOperator c tail).1, (cutOperator c tail).2 ++ more) := by
  cases tail with
  | nil => contradiction
  | cons d tail =>
    cases hc : Operator.ofChar? c with
    | none => simp [cutOperator, Operator.cut?, hc]
    | some o => cases hd : o.extend? d <;> simp [cutOperator, Operator.cut?, hc, hd]

/-- **A piece with three characters behind it is final**: no later text changes it. -/
theorem cut_append {c : Char} {tail : List Char} (h : 2 < (cut c tail).2.length)
    (more : List Char) : cut c (tail ++ more) = ((cut c tail).1, (cut c tail).2 ++ more) := by
  have hleft : (cut c tail).2 ≠ [] := by
    intro hnil
    simp [hnil] at h
  -- one case for each sort of piece, in the order of the tests
  by_cases hnewline : c = '\n'
  · subst hnewline
    rfl
  by_cases hblank : isBlank c = true
  · rw [cut_blank hblank, cut_blank hblank]
  by_cases hquote : c = '"'
  · subst hquote
    rw [cut_quote] at hleft
    rw [cut_quote, cut_quote]
    refine cutString_append ?_ _
    intro hnil
    simp [cutString, hnil] at hleft
  by_cases hdigit : c.isDigit = true
  · rw [cut_digit hdigit] at h
    rw [cut_digit hdigit, cut_digit hdigit, ← List.cons_append, Numeral.cut_append_text h]
  by_cases halpha : c.isAlpha = true
  · rw [cut_alpha halpha] at hleft
    have hends : tail.dropWhile isWordChar = [] → Ends isWordChar more :=
      fun hnil => absurd hnil hleft
    rw [cut_alpha halpha, cut_alpha halpha, takeWhile_append_of_ends hends,
      dropWhile_append_of_ends hends]
  have hother : ∀ rest : List Char, ¬ (c = '/' ∧ rest.head? = some '/') →
      cut c rest = cutOperator c rest :=
    fun rest => cut_eq_cutOperator hnewline hblank hquote hdigit halpha
  have htail : tail ≠ [] := by
    rintro rfl
    have hlength := length_cut_lt c []
    rw [List.length_singleton, Nat.lt_one_iff] at hlength
    exact hleft (List.length_eq_zero_iff.mp hlength)
  by_cases hslashes : c = '/' ∧ tail.head? = some '/'
  · obtain ⟨rfl, hhead⟩ := hslashes
    obtain ⟨body, rfl⟩ := List.head?_eq_some_iff.mp hhead
    rw [cut_slashes] at hleft
    have hends : body.dropWhile (· != '\n') = [] → Ends (· != '\n') more :=
      fun hnil => absurd hnil hleft
    rw [List.cons_append, cut_slashes, cut_slashes, takeWhile_append_of_ends hends,
      dropWhile_append_of_ends hends]
  · have hslashes' : ¬ (c = '/' ∧ (tail ++ more).head? = some '/') := by
      cases tail with
      | nil => contradiction
      | cons d tail => exact hslashes
    rw [hother _ hslashes, hother _ hslashes', cutOperator_append_text htail]

theorem length_split_le (source : List Char) : (split source).length ≤ source.length := by
  fun_induction split source with
  | case1 => exact Nat.le_refl _
  | case2 c tail ih =>
    have hlt := length_cut_lt c tail
    rw [List.length_cons]
    omega

/-- Later text leaves the pieces of a text as they are, but for three at its end. What is given up
is everything from the first piece on that has fewer than three characters behind it: that piece,
and at most one for each of these characters. -/
theorem exists_split_append (source more : List Char) :
    ∃ kept lost, split source = kept ++ lost ∧ lost.length ≤ 3 ∧
      kept <+: split (source ++ more) := by
  fun_induction split source with
  | case1 => exact ⟨[], [], rfl, Nat.zero_le _, List.nil_prefix⟩
  | case2 c tail ih =>
    -- with three characters behind it the piece is cut from the longer text as well
    by_cases hleft : 2 < (cut c tail).2.length
    · obtain ⟨kept, lost, hsplit, hlost, hkept⟩ := ih
      refine ⟨(cut c tail).1 :: kept, lost, by rw [hsplit, List.cons_append], hlost, ?_⟩
      rw [List.cons_append, split, cut_append hleft]
      exact (List.prefix_cons_inj _).mpr hkept
    · have hlength := length_split_le (cut c tail).2
      refine ⟨[], _, rfl, ?_, List.nil_prefix⟩
      rw [List.length_cons]
      omega

/-! ## Items -/

theorem length_itemsOn_le (line : Nat) (ps : List Piece) :
    (itemsOn line ps).length ≤ ps.length := by
  induction ps generalizing line with
  | nil => exact Nat.le_refl _
  | cons p ps ih =>
    have hbehind := ih (line + newlines p.text)
    have hfirst : (p.item? line).toList.length ≤ 1 := Option.length_toList_le
    rw [itemsOn, List.length_append, List.length_cons]
    omega

end Piece

/-- **Text that is put behind another one changes none of its items but the last three.** -/
theorem items_take_isPrefix (s t : String) :
    (Scanner.ofText s).items.take ((Scanner.ofText s).items.length - 3) <+:
      (Scanner.ofText (s ++ t)).items := by
  obtain ⟨kept, lost, hsplit, hlost, hkept⟩ := Piece.exists_split_append s.toList t.toList
  -- what may be cut otherwise is three pieces at most, and a piece is no more than one item
  have hlast := Nat.le_trans
    (Piece.length_itemsOn_le (1 + newlines (kept.flatMap Piece.text)) lost) hlost
  have hitems : (Scanner.ofText s).items = Piece.itemsOn 1 kept ++
      Piece.itemsOn (1 + newlines (kept.flatMap Piece.text)) lost := by
    rw [Scanner.items_eq, ← Piece.itemsOn_append, ← hsplit]
    rfl
  have htake : (Scanner.ofText s).items.take ((Scanner.ofText s).items.length - 3) <+:
      Piece.itemsOn 1 kept := by
    rw [hitems, List.length_append, List.take_append_of_le_length (by omega)]
    exact List.take_prefix _ _
  obtain ⟨behind, hbehind⟩ := hkept
  refine htake.trans ?_
  rw [Scanner.items_eq, Scanner.ofText, String.toList_append, ← hbehind, Piece.itemsOn_append]
  exact List.prefix_append _ _

/-- A digit makes one item of the last three, so two would not do. -/
example : (Scanner.ofText "1e+").items.length = 3 ∧
    (Scanner.ofText ("1e+" ++ "5")).items.length = 1 := by
  decide +kernel

end ScriptLexer
