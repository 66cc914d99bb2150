import ScriptLexer.Grammar

/-!
# Numerals in front of other text

`Numeral.cut` takes digits, a fraction and an exponent one after the other, and each as far as it
goes. **So it takes at least any numeral that the text starts with** (`exists_cut_append`): what
it takes is that numeral and perhaps more, and it is no more when the text behind the numeral
starts with nothing that a numeral could go on with (`cut_append_of_ends`). What is cut from any
text at all, numeral or not, is cut from it in front of a character that is in no numeral too
(`cut_append_of_ends_isPart`).

The two conditions on what is behind are not the same. Behind a whole numeral a sign is harmless; in
`1e` in front of `+1` it is not, since the text ends in half an exponent and the sign would help to
make it a whole one. So the second statement, which is about any text, asks for more.
-/

set_option autoImplicit false

namespace ScriptLexer

/-- The text does not go on with a character of this kind. It may be at its end, which is why the
condition is on the first character and does not give one. -/
def Ends (p : Char → Bool) (rest : List Char) : Prop := ∀ c, rest.head? = some c → p c = false

namespace Ends

variable {p q : Char → Bool} {run rest : List Char} {c : Char}

theorem nil : Ends p [] := fun _ h => nomatch h

theorem cons (h : p c = false) : Ends p (c :: rest) := by
  intro d hd
  obtain rfl : c = d := by simpa using hd
  exact h

theorem exists_cons_of_not (h : ¬ Ends p rest) : ∃ c behind, rest = c :: behind ∧ p c = true := by
  cases rest with
  | nil => exact absurd nil h
  | cons c behind =>
    cases hc : p c with
    | false => exact absurd (cons hc) h
    | true => exact ⟨c, behind, rfl, hc⟩

theorem takeWhile_eq_nil (h : Ends p rest) : rest.takeWhile p = [] := by
  cases rest with
  | nil => rfl
  | cons c rest => exact List.takeWhile_cons_of_neg (by simp [h c rfl])

theorem dropWhile_eq_self (h : Ends p rest) : rest.dropWhile p = rest := by
  cases rest with
  | nil => rfl
  | cons c rest => exact List.dropWhile_cons_of_neg (by simp [h c rfl])

/-- What is left behind a run does not go on with it; this is where most instances come from. -/
theorem dropWhile (p : Char → Bool) (text : List Char) : Ends p (text.dropWhile p) := by
  intro c hc
  obtain ⟨behind, hbehind⟩ := List.head?_eq_some_iff.mp hc
  have hne : text.dropWhile p ≠ [] := by simp [hbehind]
  have hhead := List.head_dropWhile_not p hne
  simpa [hbehind] using hhead

/-- Fewer characters are ended by more texts, so one condition for all parts of a numeral gives that
of each part. -/
theorem mono (h : Ends q rest) (hpq : ∀ c, p c = true → q c = true) : Ends p rest := by
  intro c hc
  have hq := h c hc
  cases hp : p c with
  | false => rfl
  | true => rw [hpq c hp] at hq; contradiction

theorem takeWhile_append (hrun : ∀ c ∈ run, p c = true) (h : Ends p rest) :
    (run ++ rest).takeWhile p = run := by
  rw [List.takeWhile_append_of_pos hrun, h.takeWhile_eq_nil, List.append_nil]

theorem dropWhile_append (hrun : ∀ c ∈ run, p c = true) (h : Ends p rest) :
    (run ++ rest).dropWhile p = rest := by
  rw [List.dropWhile_append_of_pos hrun, h.dropWhile_eq_self]

/-- A run of one sort of characters is told from what follows it. So where two texts are taken apart
in this way and are the same, their parts are. -/
theorem append_inj {run' rest' : List Char}
    (hrun : ∀ c ∈ run, p c = true) (hrun' : ∀ c ∈ run', p c = true) (hrest : Ends p rest)
    (hrest' : Ends p rest') (h : run ++ rest = run' ++ rest') : run = run' ∧ rest = rest' := by
  have htake := congrArg (List.takeWhile p) h
  have hdrop := congrArg (List.dropWhile p) h
  rw [hrest.takeWhile_append hrun, hrest'.takeWhile_append hrun'] at htake
  rw [hrest.dropWhile_append hrun, hrest'.dropWhile_append hrun'] at hdrop
  exact ⟨htake, hdrop⟩

end Ends

/-! ## Runs in front of other text

What follows a text matters to its first run only if the run reaches to the end of the text. Hence
the shape of the hypotheses: the condition is asked for only in that case.
-/

section Runs

variable {p : Char → Bool} {text rest : List Char}

theorem takeWhile_append_of_ends (h : text.dropWhile p = [] → Ends p rest) :
    (text ++ rest).takeWhile p = text.takeWhile p := by
  induction text with
  | nil => exact (h rfl).takeWhile_eq_nil
  | cons c text ih =>
    rw [List.cons_append]
    cases hc : p c with
    | true =>
      rw [List.takeWhile_cons_of_pos hc, List.takeWhile_cons_of_pos hc, ih]
      rwa [List.dropWhile_cons_of_pos hc] at h
    | false =>
      rw [List.takeWhile_cons_of_neg (by simp [hc]), List.takeWhile_cons_of_neg (by simp [hc])]

theorem dropWhile_append_of_ends (h : text.dropWhile p = [] → Ends p rest) :
    (text ++ rest).dropWhile p = text.dropWhile p ++ rest := by
  rw [List.dropWhile_append]
  split
  · rename_i hempty
    have hnil : text.dropWhile p = [] := by simpa using hempty
    rw [(h hnil).dropWhile_eq_self, hnil, List.nil_append]
  · rfl

end Runs

/-! ## The parts of a numeral -/

namespace Numeral

/-- A character that a numeral may go on with: a digit, a point or the mark of an exponent. A sign
is not one of them, since it only stands behind a mark. -/
def continues (c : Char) : Bool := c.isDigit || c == '.' || c == 'e' || c == 'E'

theorem fraction_of_ends {rest : List Char} (h : Ends (· == '.') rest) :
    fraction rest = ([], rest) := by
  cases rest with
  | nil => rfl
  | cons c rest =>
    have hc : c ≠ '.' := by simpa using h c rfl
    unfold fraction
    split
    · rename_i heq
      exact absurd (List.cons.inj heq).1 hc
    · rfl

theorem fraction_of_append {places : List Char} (hplaces : AllDigits places) (rest : List Char) :
    fraction ('.' :: places ++ rest) =
      ('.' :: places ++ rest.takeWhile Char.isDigit, rest.dropWhile Char.isDigit) := by
  simp only [fraction, List.cons_append]
  rw [List.takeWhile_append_of_pos hplaces, List.dropWhile_append_of_pos hplaces]

theorem exponent_of_ends {rest : List Char} (h : Ends (fun c => c == 'e' || c == 'E') rest) :
    exponent rest = ([], rest) := by
  cases rest with
  | nil => rfl
  | cons c rest =>
    have hc : ¬ (c = 'e' ∨ c = 'E') := by simpa using h c rfl
    unfold exponent
    dsimp only
    rw [if_neg fun hmark => hc hmark.1]

/-- A sign is found in front of digits, and where there is none nothing is taken for one. -/
theorem sign_of_append {sign digits : List Char} (hsign : IsSign sign) (hne : digits ≠ [])
    (hdigits : AllDigits digits) (rest : List Char) :
    Numeral.sign (sign ++ (digits ++ rest)) = (sign, digits ++ rest) := by
  rcases hsign with rfl | rfl | rfl
  · cases digits with
    | nil => contradiction
    | cons d digits =>
      have hd := hdigits d List.mem_cons_self
      unfold Numeral.sign
      split
      -- a digit is no sign, so only the last equation of `sign` is left
      · rename_i heq
        obtain ⟨rfl, -⟩ := List.cons.inj heq
        contradiction
      · rename_i heq
        obtain ⟨rfl, -⟩ := List.cons.inj heq
        contradiction
      · rfl
  · rfl
  · rfl

/-- An exponent that is there takes further digits along. That it has a digit already is what makes
`exponent` take it. -/
theorem exponent_of_append {power : List Char} (hpower : IsExponent power) (hne : power ≠ [])
    (rest : List Char) :
    exponent (power ++ rest) =
      (power ++ rest.takeWhile Char.isDigit, rest.dropWhile Char.isDigit) := by
  rcases hpower with rfl | ⟨mark, sign, digits, hmark, hsign, hdigits, hall, rfl⟩
  · contradiction
  · have htake : (digits ++ rest).takeWhile Char.isDigit =
        digits ++ rest.takeWhile Char.isDigit := List.takeWhile_append_of_pos hall
    simp only [exponent, List.cons_append, List.append_assoc, sign_of_append hsign hdigits hall,
      htake]
    rw [if_pos ⟨hmark, by simp [hdigits]⟩, List.dropWhile_append_of_pos hall]

/-! ## A numeral at the start of a text -/

/-- A fraction ends the digits in front of it, with its point or by not being there. -/
theorem ends_of_isFraction {places rest : List Char} (hplaces : IsFraction places)
    (hrest : Ends Char.isDigit rest) : Ends Char.isDigit (places ++ rest) := by
  rcases hplaces with rfl | ⟨digits, -, rfl⟩
  · exact hrest
  · exact .cons rfl

/-- An exponent that is there starts with a mark, which is neither a digit nor a point. -/
theorem ends_of_isExponent {power rest : List Char} (hpower : IsExponent power)
    (hrest : power = [] → Ends continues rest) :
    Ends (fun c => c.isDigit || c == '.') (power ++ rest) := by
  rcases hpower with rfl | ⟨mark, sign, digits, hmark, -, -, -, rfl⟩
  · exact (hrest rfl).mono fun c hc => by simp [continues, hc]
  · refine .cons ?_
    rcases hmark with rfl | rfl <;> decide

theorem fraction_of_isFraction {places rest : List Char} (hplaces : IsFraction places)
    (hrest : Ends (fun c => c.isDigit || c == '.') rest) :
    fraction (places ++ rest) = (places, rest) := by
  have hdigit : Ends Char.isDigit rest := hrest.mono fun c hc => by simp [hc]
  rcases hplaces with rfl | ⟨digits, hdigits, rfl⟩
  · exact fraction_of_ends (hrest.mono fun c hc => by simp [hc])
  · rw [fraction_of_append hdigits, hdigit.takeWhile_eq_nil, hdigit.dropWhile_eq_self,
      List.append_nil]

/-- Behind digits that are followed by none, what is cut is the fraction and the exponent. -/
theorem cut_of_ends {whole text : List Char} (hwhole : AllDigits whole)
    (h : Ends Char.isDigit text) :
    (cut (whole ++ text)).1 = whole ++ (fraction text).1 ++ (exponent (fraction text).2).1 := by
  simp only [cut, h.takeWhile_append hwhole, h.dropWhile_append hwhole]

/-- A text that starts with a numeral and cannot go on with it has that numeral cut off. Each of its
three parts is ended by the next one that is there, and the last by the text behind. -/
theorem cut_append_of_ends {lexeme rest : List Char} (h : IsNumeral lexeme)
    (hrest : Ends continues rest) : (cut (lexeme ++ rest)).1 = lexeme := by
  obtain ⟨whole, places, power, -, hwhole, hplaces, hpower, rfl⟩ := h
  have hends : Ends (fun c => c.isDigit || c == '.') (power ++ rest) :=
    ends_of_isExponent hpower fun _ => hrest
  have hdigit : Ends Char.isDigit (power ++ rest) := hends.mono fun c hc => by simp [hc]
  have hexponent : (exponent (power ++ rest)).1 = power := by
    by_cases hne : power = []
    · rw [hne, List.nil_append, exponent_of_ends (hrest.mono fun c hc => by
        simp [continues, or_assoc] at hc ⊢; exact Or.inr (Or.inr hc))]
    · rw [exponent_of_append hpower hne, (hrest.mono fun c hc => by simp [continues, hc] :
        Ends Char.isDigit rest).takeWhile_eq_nil, List.append_nil]
  have hcut := cut_of_ends hwhole (ends_of_isFraction hplaces hdigit)
  rw [fraction_of_isFraction hplaces hends, hexponent] at hcut
  simpa only [List.append_assoc] using hcut

/-- A text that starts with a numeral has at least that numeral cut off. It may be more in three
ways, one for each part that the numeral can end in. -/
theorem exists_cut_append {lexeme : List Char} (h : IsNumeral lexeme) (rest : List Char) :
    ∃ more, (cut (lexeme ++ rest)).1 = lexeme ++ more := by
  obtain ⟨whole, places, power, -, hwhole, hplaces, hpower, rfl⟩ := h
  by_cases hne : power = []
  · subst hne
    rcases hplaces with rfl | ⟨digits, hdigits, rfl⟩
    · -- only digits, of which there may be more, and the rest of the numeral behind them
      refine ⟨rest.takeWhile Char.isDigit ++ (fraction (rest.dropWhile Char.isDigit)).1 ++
        (exponent (fraction (rest.dropWhile Char.isDigit)).2).1, ?_⟩
      simp [cut, List.takeWhile_append_of_pos hwhole, List.dropWhile_append_of_pos hwhole]
    · -- the fraction may have more digits, and an exponent behind them
      refine ⟨rest.takeWhile Char.isDigit ++ (exponent (rest.dropWhile Char.isDigit)).1, ?_⟩
      have hends : Ends Char.isDigit ('.' :: digits ++ rest) := .cons rfl
      have hcut := cut_of_ends hwhole hends
      rw [fraction_of_append hdigits] at hcut
      simpa only [List.append_assoc, List.append_nil] using hcut
  · -- only the exponent may have more digits
    have hends : Ends (fun c => c.isDigit || c == '.') (power ++ rest) :=
      ends_of_isExponent hpower fun hnil => absurd hnil hne
    have hcut := cut_of_ends hwhole
      (ends_of_isFraction hplaces (hends.mono fun c hc => by simp [hc]))
    rw [fraction_of_isFraction hplaces hends, exponent_of_append hpower hne] at hcut
    exact ⟨rest.takeWhile Char.isDigit, by simpa only [List.append_assoc] using hcut⟩

/-! ## Any text in front of what no numeral goes on into

Nothing is said of the text that is cut, which may end in half an exponent. What follows it has to
start with a character that is in no numeral, so that the half is not made whole. -/

/-- A character that may stand somewhere in a numeral. Here the signs count as well. -/
def isPart (c : Char) : Bool := continues c || c == '+' || c == '-'

theorem isPart_of_isNumeral {text : List Char} (h : IsNumeral text) :
    ∀ c ∈ text, isPart c = true := by
  obtain ⟨whole, fraction, exponent, -, hwhole, hfraction, hexponent, rfl⟩ := h
  -- each of the three parts is said of by itself, in the order of the grammar
  have hdigits : ∀ digits, AllDigits digits → ∀ c ∈ digits, isPart c = true := by
    intro digits hall c hc
    simp [isPart, continues, hall c hc]
  have hplaces : ∀ c ∈ fraction, isPart c = true := by
    rcases hfraction with rfl | ⟨digits, hall, rfl⟩
    · simp
    · exact List.forall_mem_cons.mpr ⟨rfl, hdigits _ hall⟩
  have hpower : ∀ c ∈ exponent, isPart c = true := by
    rcases hexponent with rfl | ⟨mark, sign, digits, hmark, hsign, -, hall, rfl⟩
    · simp
    · have hfirst : isPart mark = true := by rcases hmark with rfl | rfl <;> rfl
      have hsecond : ∀ c ∈ sign, isPart c = true := by
        rcases hsign with rfl | rfl | rfl
        · exact List.forall_mem_nil _
        · exact List.forall_mem_singleton.mpr rfl
        · exact List.forall_mem_singleton.mpr rfl
      exact List.forall_mem_append.mpr
        ⟨List.forall_mem_cons.mpr ⟨hfirst, hsecond⟩, hdigits _ hall⟩
  exact List.forall_mem_append.mpr
    ⟨List.forall_mem_append.mpr ⟨hdigits _ hwhole, hplaces⟩, hpower⟩

section Append

variable {rest : List Char} (hrest : Ends isPart rest)
include hrest

theorem ends_isDigit : Ends Char.isDigit rest :=
  hrest.mono fun c hc => by simp [isPart, continues, hc]

theorem fraction_append_of_ends (text : List Char) :
    fraction (text ++ rest) = ((fraction text).1, (fraction text).2 ++ rest) := by
  cases text with
  | nil => exact fraction_of_ends (hrest.mono fun c hc => by simp_all [isPart, continues])
  | cons c text =>
    have hdigit := ends_isDigit hrest
    by_cases hc : c = '.'
    · subst hc
      simp only [List.cons_append, fraction, takeWhile_append_of_ends fun _ => hdigit,
        dropWhile_append_of_ends fun _ => hdigit]
    · have hends : ∀ behind, Ends (· == '.') (c :: behind) := fun _ => .cons (by simpa using hc)
      rw [List.cons_append, fraction_of_ends (hends _), fraction_of_ends (hends _),
        List.cons_append]

omit hrest in
theorem sign_of_ends {text : List Char} (h : Ends (fun c => c == '+' || c == '-') text) :
    sign text = ([], text) := by
  unfold sign
  split
  · exact absurd (h '+' rfl) (by decide)
  · exact absurd (h '-' rfl) (by decide)
  · rfl

theorem sign_append_of_ends (text : List Char) :
    sign (text ++ rest) = ((sign text).1, (sign text).2 ++ rest) := by
  cases text with
  | nil => exact sign_of_ends (hrest.mono fun c hc => by
      rcases (by simpa using hc : c = '+' ∨ c = '-') with rfl | rfl <;> rfl)
  | cons c text =>
    by_cases hc : c = '+' ∨ c = '-'
    · rcases hc with rfl | rfl <;> rfl
    · have hends : ∀ behind, Ends (fun c => c == '+' || c == '-') (c :: behind) :=
        fun _ => .cons (by simpa using hc)
      rw [List.cons_append, sign_of_ends (hends _), sign_of_ends (hends _), List.cons_append]

theorem exponent_append_of_ends (text : List Char) :
    exponent (text ++ rest) = ((exponent text).1, (exponent text).2 ++ rest) := by
  cases text with
  | nil => exact exponent_of_ends (hrest.mono fun c hc => by
      rcases (by simpa using hc : c = 'e' ∨ c = 'E') with rfl | rfl <;> rfl)
  | cons mark text =>
    have hdigit := ends_isDigit hrest
    simp only [List.cons_append, exponent, sign_append_of_ends hrest,
      takeWhile_append_of_ends fun _ => hdigit, dropWhile_append_of_ends fun _ => hdigit]
    split <;> rfl

/-- **A text behind which no numeral goes on is cut as if it stood alone.** -/
theorem cut_append_of_ends_isPart (text : List Char) :
    cut (text ++ rest) = ((cut text).1, (cut text).2 ++ rest) := by
  have hdigit := ends_isDigit hrest
  simp only [cut, takeWhile_append_of_ends fun _ => hdigit,
    dropWhile_append_of_ends fun _ => hdigit, fraction_append_of_ends hrest,
    exponent_append_of_ends hrest]

end Append

end Numeral

end ScriptLexer
