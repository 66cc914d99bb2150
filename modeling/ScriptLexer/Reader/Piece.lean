import ScriptLexer.Piece.Cut

/-!
# Pieces, character by character

A scanner has a text before it and cuts pieces off (`Piece.cut`). A reader is given the text one
character after the other. It takes the next character, or looks at it and at two behind it without
taking them, and there is nothing else that it can do with a text. So it goes through a piece in
steps, and keeps what it has taken of the piece, and the value of that, until the piece is complete.

**A reader stops where a piece ends** (`rest_readPiece`), although no step knows where that is. What
it takes is what the cut takes, step for step: each of its steps is the reader behind what a
function on the rest of the text says.

The cuts are the definitions to reason about: they are functions of the text and have no state. The
reader is how a text is really gone through, with a position and two buffers that a step may leave
in any state. It stands here in full so that the cuts are not taken on trust. `readPiece_eq` is the
whole of the connection, and nothing behind it opens a step of the reader again.
-/

set_option autoImplicit false

namespace ScriptLexer

/-- A place in a text that is being read, within a piece or between two. The last three fields are
memory: nothing in the type keeps the text and the value of one piece out of the next. -/
structure Reader where
  /-- The text that has not been taken. -/
  rest : List Char
  /-- The text that has been taken of the piece that is being read. -/
  lexeme : List Char
  /-- The value of that piece, once it is known. -/
  literal : Option Literal
  /-- The line that the reader is on, counted from one. -/
  line : Nat
  deriving DecidableEq, Repr

namespace Reader

/-- The reader in front of a text, with nothing taken. -/
def ofText (source : String) : Reader := ⟨source.toList, [], none, 1⟩

/-- The reader behind a text that it has taken, with another one left. Every step below that only
takes is of this form, and so is what several of them do in a row (`behind_behind`). -/
def behind (r : Reader) (text rest : List Char) : Reader :=
  { r with rest := rest, lexeme := r.lexeme ++ text }

/-! ## Characters -/

/-- Takes the next character, if there is one. -/
def advance (r : Reader) : Option Char × Reader :=
  match r.rest with
  | [] => (none, r)
  | c :: rest => (some c, r.behind [c] rest)

/-- Takes the next character if it is this one, and says whether it was. A character that is not
taken is still there to be tried against another. -/
def takeIf (c : Char) (r : Reader) : Bool × Reader :=
  if r.rest.head? = some c then (true, r.advance.2) else (false, r)

/-- Whether the character behind the next `n` is a digit. The reader never looks further than two
characters behind the next one, which is how far the digit of an exponent can be from its mark. -/
def isDigitAt (n : Nat) (r : Reader) : Bool := r.rest[n]?.any Char.isDigit

/-- Takes the characters in front of the first that stops it, and goes through them. The one that
stops it is left in the text. A string counts its line feeds on the way; everything else that is
taken by a run needs no account of it (`takeUntil`). -/
def foldUntil {α : Type} (stop : Char → Bool) (step : α → Char → α) (seen : α) (r : Reader) :
    α × Reader :=
  match _ : r.rest with
  | [] => (seen, r)
  | c :: _ => if stop c then (seen, r) else foldUntil stop step (step seen c) r.advance.2
termination_by r.rest.length
decreasing_by simp [advance, behind, *]

/-- Takes the characters in front of the first that stops it. -/
def takeUntil (stop : Char → Bool) (r : Reader) : Reader :=
  (r.foldUntil stop (fun _ _ => ()) ()).2

/-! ## Pieces -/

/-- Reads what is behind the quote of a string. The line feeds count before it is known whether the
string is closed, so that an open one is reported where the text ends. The value leaves out the two
quotes, which are in the text that was taken. -/
def readString (r : Reader) : Except Diagnostic Kind × Reader :=
  let (breaks, stopped) := r.foldUntil (· == '"') (fun n c => if c = '\n' then n + 1 else n) 0
  match { stopped with line := stopped.line + breaks }.advance with
  | (none, ended) => (.error (Fault.unterminatedString.onLine ended.line), ended)
  | (some _, closed) =>
    (.ok .string,
      { closed with literal := some (.string (String.ofList closed.lexeme.tail.dropLast)) })

/-- Takes the digits that come next, which may be none. -/
def takeDigits (r : Reader) : Reader := r.takeUntil fun c => !c.isDigit

/-- Takes a point and the digits behind it, which may be none. The point is taken without a look at
what follows, unlike the mark of an exponent. -/
def takeFraction (r : Reader) : Reader :=
  match r.takeIf '.' with
  | (true, pointed) => pointed.takeDigits
  | (false, same) => same

/-- Takes a sign, if one comes next. -/
def takeSign (r : Reader) : Reader :=
  match r.takeIf '+' with
  | (true, signed) => signed
  | (false, same) => (same.takeIf '-').2

/-- Whether a digit is behind the next character, perhaps with a sign in between. This is looked at
before the mark is taken, because nothing that is taken can be put back. -/
def isPowerAhead (r : Reader) : Bool :=
  if r.rest[1]? = some '+' ∨ r.rest[1]? = some '-' then r.isDigitAt 2 else r.isDigitAt 1

/-- Whether what comes next is an exponent, as far as it takes to be sure of that. -/
def startsExponent (r : Reader) : Bool :=
  (r.rest.head? == some 'e' || r.rest.head? == some 'E') && r.isPowerAhead

def takeExponent (r : Reader) : Reader :=
  if r.startsExponent then r.advance.2.takeSign.takeDigits else r

/-- Takes a numeral: digits, a fraction and an exponent, as far as each of them is there. -/
def takeNumeral (r : Reader) : Reader := r.takeDigits.takeFraction.takeExponent

/-- The value of a number that has been taken. That the text might not be readable as a number is
the one fault that is not the fault of the text; it does not happen (`no_defect_reached`). -/
def readValue (r : Reader) : Except Diagnostic Kind × Reader :=
  match Decimal.ofText? r.lexeme with
  | some d => (.ok .number, { r with literal := some (.number (.ofDecimal d)) })
  | none => (.error ((Fault.unreadableNumber (String.ofList r.lexeme)).onLine r.line), r)

/-- Reads what is behind the first digit of a number. -/
def readNumber (r : Reader) : Except Diagnostic Kind × Reader := r.takeNumeral.readValue

/-- Reads what is behind the first letter of a word. Whether the word is reserved is asked when all
of it has been taken, so `orchid` is not the keyword `or` and a name. -/
def readWord (r : Reader) : Kind × Reader :=
  let complete := r.takeUntil fun c => !isWordChar c
  (Kind.ofWord complete.lexeme, complete)

/-- Reads what is behind the first character of an operator: one character more, if that makes a
longer operator of it. No operator has three characters, so one look is enough. -/
def readOperator (o : Operator) (r : Reader) : Kind × Reader :=
  match r.rest.head?.bind o.extend? with
  | some longer => (.operator longer, r.advance.2)
  | none => (.operator o, r)

/-- Reads what is behind a slash: a comment, if it is another slash. The line feed that ends the
comment is not taken with it, and is a piece of its own. -/
def readSlash (r : Reader) : Option (Except Diagnostic Kind) × Reader :=
  match r.takeIf '/' with
  | (true, slashes) => (none, slashes.takeUntil (· == '\n'))
  | (false, same) => (some (.ok (.operator .slash)), same)

/-- Reads a piece, and says what kind of token it is or what is wrong with it, if it means
anything. The character that decides is taken first, and each of the cases reads behind it. -/
def readPiece (r : Reader) : Option (Except Diagnostic Kind) × Reader :=
  match r.advance with
  | (none, ended) => (none, ended)
  | (some c, started) =>
    if c = '\n' then (none, { started with line := started.line + 1 })
    else if isBlank c then (none, started)
    else if c = '"' then (some started.readString.1, started.readString.2)
    else if c.isDigit then (some started.readNumber.1, started.readNumber.2)
    else if c.isAlpha then (some (.ok started.readWord.1), started.readWord.2)
    else if c = '/' then started.readSlash
    else
      match Operator.ofChar? c with
      | some o => (some (.ok (started.readOperator o).1), (started.readOperator o).2)
      | none => (some (.error ((Fault.unexpectedCharacter c).onLine started.line)), started)

/-! ## What each step takes

One lemma for each step, and all of one shape: the step is the reader `behind` what a function on
the rest of the text cuts off. Steps in a row then come down to one `behind` with `behind_behind`.
-/

@[simp] theorem behind_behind (r : Reader) (text rest text' rest' : List Char) :
    (r.behind text rest).behind text' rest' = r.behind (text ++ text') rest' := by
  simp only [behind, List.append_assoc]

/-- A step that takes nothing is the reader as it was. The text that is left is an argument here, so
that the lemma can be used before it is known to be the whole rest. -/
theorem behind_nil {r : Reader} {rest : List Char} (h : r.rest = rest) : r.behind [] rest = r := by
  simp only [behind, List.append_nil, ← h]

theorem advance_of_rest {r : Reader} {c : Char} {rest : List Char} (h : r.rest = c :: rest) :
    r.advance = (some c, r.behind [c] rest) := by
  rw [advance, h]

theorem takeIf_of_rest {r : Reader} {c : Char} {rest : List Char} (h : r.rest = c :: rest) :
    r.takeIf c = (true, r.behind [c] rest) := by
  rw [takeIf, advance_of_rest h, h, if_pos List.head?_cons]

/-- What is taken by a run is what the list functions take, and the account of it is a fold. -/
theorem foldUntil_eq {α : Type} (stop : Char → Bool) (step : α → Char → α) (seen : α)
    (r : Reader) :
    r.foldUntil stop step seen =
      ((r.rest.takeWhile (!stop ·)).foldl step seen,
        r.behind (r.rest.takeWhile (!stop ·)) (r.rest.dropWhile (!stop ·))) := by
  fun_induction foldUntil stop step seen r with
  | case1 seen r h =>
    rw [h, List.takeWhile_nil, List.dropWhile_nil, behind_nil h]
    rfl
  | case2 seen r c rest h hstop =>
    rw [h, List.takeWhile_cons_of_neg (by simp [hstop]),
      List.dropWhile_cons_of_neg (by simp [hstop]), behind_nil h]
    rfl
  | case3 seen r c rest h hstop ih =>
    rw [ih, advance_of_rest h, h, List.takeWhile_cons_of_pos (by simp [hstop]),
      List.dropWhile_cons_of_pos (by simp [hstop]), List.foldl_cons]
    simp only [behind_behind, List.singleton_append]
    rfl

theorem takeUntil_eq (stop : Char → Bool) (r : Reader) :
    r.takeUntil stop =
      r.behind (r.rest.takeWhile (!stop ·)) (r.rest.dropWhile (!stop ·)) := by
  rw [takeUntil, foldUntil_eq]

theorem takeDigits_eq (r : Reader) :
    r.takeDigits = r.behind (r.rest.takeWhile Char.isDigit) (r.rest.dropWhile Char.isDigit) := by
  simp only [takeDigits, takeUntil_eq, Bool.not_not]

/-- A character that is not next is not taken. The condition is the one that a split of the cutting
function leaves behind, and is stated as it stands there. -/
theorem takeIf_of_not_rest {r : Reader} {c : Char} (h : ∀ rest, r.rest = c :: rest → False) :
    r.takeIf c = (false, r) := by
  refine if_neg fun hhead => ?_
  obtain ⟨rest, hrest⟩ := List.head?_eq_some_iff.mp hhead
  exact h rest hrest

theorem takeFraction_eq (r : Reader) :
    r.takeFraction = r.behind (Numeral.fraction r.rest).1 (Numeral.fraction r.rest).2 := by
  unfold Numeral.fraction
  split
  · rename_i rest h
    rw [takeFraction, takeIf_of_rest h]
    simp only [takeDigits_eq, behind_behind]
    rfl
  · rename_i h
    rw [takeFraction, takeIf_of_not_rest h]
    exact (behind_nil rfl).symm

/-- The reader tries the two signs one after the other where the cut has one match; they cannot both
be there. -/
theorem takeSign_eq (r : Reader) :
    r.takeSign = r.behind (Numeral.sign r.rest).1 (Numeral.sign r.rest).2 := by
  unfold Numeral.sign
  split
  · rename_i rest h
    rw [takeSign, takeIf_of_rest h]
  · rename_i rest h
    have hplus : ∀ rest, r.rest = '+' :: rest → False := by
      intro rest hplus
      rw [hplus] at h
      simp at h
    simp only [takeSign, takeIf_of_not_rest hplus, takeIf_of_rest h]
  · rename_i hplus hminus
    simp only [takeSign, takeIf_of_not_rest hplus, takeIf_of_not_rest hminus]
    exact (behind_nil rfl).symm

theorem sign_of_head?_ne {text : List Char} (hplus : text.head? ≠ some '+')
    (hminus : text.head? ≠ some '-') : Numeral.sign text = ([], text) := by
  unfold Numeral.sign
  split
  · exact absurd List.head?_cons hplus
  · exact absurd List.head?_cons hminus
  · rfl

/-- Behind the mark, what is looked at is the first character of the power. The reader finds it by
its distance, one or two characters on, and the cut by dropping the sign. -/
theorem isPowerAhead_eq {r : Reader} {mark : Char} {rest : List Char} (h : r.rest = mark :: rest) :
    r.isPowerAhead = (Numeral.sign rest).2.head?.any Char.isDigit := by
  have hnext : r.rest[1]? = rest.head? := by rw [h, List.getElem?_cons_succ, List.head?_eq_getElem?]
  -- with a sign the digit is one further on, and dropping the sign brings it to the front
  by_cases hsign : r.rest[1]? = some '+' ∨ r.rest[1]? = some '-'
  · rw [isPowerAhead, if_pos hsign, isDigitAt, h]
    rw [hnext] at hsign
    rcases hsign with hsign | hsign <;>
      obtain ⟨tail, rfl⟩ := List.head?_eq_some_iff.mp hsign <;>
      exact congrArg (Option.any Char.isDigit) List.head?_eq_getElem?.symm
  · rw [isPowerAhead, if_neg hsign, isDigitAt, hnext]
    rw [hnext, not_or] at hsign
    rw [sign_of_head?_ne hsign.1 hsign.2]

theorem takeWhile_isDigit_ne_nil_iff (text : List Char) :
    text.takeWhile Char.isDigit ≠ [] ↔ text.head?.any Char.isDigit = true := by
  cases text with
  | nil => simp
  | cons c text => cases hc : c.isDigit <;> simp [hc]

/-- The reader takes an exponent exactly where the cut does: the one looks for a digit, the other
has taken the digits and asks whether there are any. -/
theorem startsExponent_iff {r : Reader} {mark : Char} {rest : List Char}
    (h : r.rest = mark :: rest) : r.startsExponent = true ↔
      (mark = 'e' ∨ mark = 'E') ∧ (Numeral.sign rest).2.takeWhile Char.isDigit ≠ [] := by
  rw [takeWhile_isDigit_ne_nil_iff, ← isPowerAhead_eq h, startsExponent, h]
  simp

theorem takeExponent_eq (r : Reader) :
    r.takeExponent = r.behind (Numeral.exponent r.rest).1 (Numeral.exponent r.rest).2 := by
  cases h : r.rest with
  | nil =>
    have hnone : ¬ r.startsExponent = true := by simp [startsExponent, h]
    rw [takeExponent, if_neg hnone]
    exact (behind_nil h).symm
  | cons mark rest =>
    have hstarts := startsExponent_iff h
    rw [takeExponent, Numeral.exponent]
    by_cases hyes : r.startsExponent = true
    · rw [if_pos hyes, if_pos (hstarts.mp hyes), advance_of_rest h]
      simp only [takeSign_eq, takeDigits_eq, behind_behind]
      rfl
    · rw [if_neg hyes, if_neg (mt hstarts.mpr hyes)]
      exact (behind_nil h).symm

/-! ## What a piece comes to -/

/-- What reading comes to that takes the text of a piece and leaves another one. It is said for a
piece that is known, with no step of the reader in it, and it is what `readPiece` is shown to be
once the piece is the one that would be cut off. Only a line feed and a string move the line. -/
def through (p : Piece) (after : List Char) (r : Reader) :
    Option (Except Diagnostic Kind) × Reader :=
  let complete := r.behind p.text after
  match p with
  | .blank _ | .comment _ => (none, complete)
  | .newline => (none, { complete with line := complete.line + 1 })
  | .operator o => (some (.ok (.operator o)), complete)
  | .string contents =>
    (some (.ok .string),
      { complete with
        line := complete.line + newlines contents
        literal := some (.string (String.ofList complete.lexeme.tail.dropLast)) })
  | .number _ => (some complete.readValue.1, complete.readValue.2)
  | .word _ => (some (.ok (Kind.ofWord complete.lexeme)), complete)
  | .stray c => (some (.error ((Fault.unexpectedCharacter c).onLine complete.line)), complete)
  | .openString contents =>
    (some (.error (Fault.unterminatedString.onLine (complete.line + newlines contents))),
      { complete with line := complete.line + newlines contents })

@[simp] theorem rest_through (p : Piece) (after : List Char) (r : Reader) :
    (r.through p after).2.rest = after := by
  cases p with
  | number lexeme =>
    rw [through, readValue]
    split <;> rfl
  | _ => rfl

theorem foldl_newlines (count : Nat) (text : List Char) :
    text.foldl (fun n c => if c = '\n' then n + 1 else n) count = count + newlines text := by
  induction text generalizing count with
  | nil => rfl
  | cons c text ih =>
    rw [List.foldl_cons, ih, newlines, newlines, List.count_cons]
    by_cases hc : c = '\n'
    · simp only [hc, if_true, beq_self_eq_true]
      omega
    · simp only [if_neg hc, beq_iff_eq, Nat.add_zero]

theorem foldUntil_quote (r : Reader) (rest : List Char) :
    (r.behind ['"'] rest).foldUntil (· == '"') (fun n c => if c = '\n' then n + 1 else n) 0 =
      (newlines (rest.takeWhile (· != '"')),
        r.behind ('"' :: rest.takeWhile (· != '"')) (rest.dropWhile (· != '"'))) := by
  rw [foldUntil_eq, foldl_newlines, Nat.zero_add, behind_behind]
  rfl

/-- A string is read as it would be cut off, with its closing quote if it has one. -/
theorem readString_eq (r : Reader) (rest : List Char) :
    (some (r.behind ['"'] rest).readString.1, (r.behind ['"'] rest).readString.2) =
      r.through (Piece.cutString rest).1 (Piece.cutString rest).2 := by
  have happend := List.takeWhile_append_dropWhile (p := (· != '"')) (l := rest)
  rw [Piece.cutString, readString, foldUntil_quote]
  -- nothing is left exactly where no quote was found, and then the string is open
  cases hquote : rest.dropWhile (· != '"') with
  | nil =>
    rw [hquote, List.append_nil] at happend
    rw [happend]
    rfl
  | cons d after =>
    rw [Piece.eq_of_dropWhile_ne hquote]
    simp only [through, advance, behind, Piece.text, List.append_assoc, List.cons_append]

/-- With the first digit in front of it, what is taken is the numeral that would be cut off. -/
theorem readNumber_eq {c : Char} (hc : c.isDigit = true) (r : Reader) (rest : List Char) :
    (some (r.behind [c] rest).readNumber.1, (r.behind [c] rest).readNumber.2) =
      r.through (.number (Numeral.cut (c :: rest)).1) (Numeral.cut (c :: rest)).2 := by
  have hnumeral : (r.behind [c] rest).takeNumeral =
      r.behind (Numeral.cut (c :: rest)).1 (Numeral.cut (c :: rest)).2 := by
    rw [takeNumeral, takeDigits_eq, takeFraction_eq, takeExponent_eq]
    simp only [behind_behind, Numeral.cut, List.takeWhile_cons_of_pos hc,
      List.dropWhile_cons_of_pos hc]
    rfl
  rw [readNumber, hnumeral]
  rfl

/-- A word is read to its last character before it is looked up, as it is when it is cut off. -/
theorem readWord_eq (c : Char) (r : Reader) (rest : List Char) :
    (some (Except.ok (r.behind [c] rest).readWord.1), (r.behind [c] rest).readWord.2) =
      r.through (.word (c :: rest.takeWhile isWordChar)) (rest.dropWhile isWordChar) := by
  simp only [readWord, takeUntil_eq, Bool.not_not, behind_behind]
  rfl

theorem readOperator_eq {c : Char} {o : Operator} (h : Operator.ofChar? c = some o) (r : Reader)
    (rest : List Char) :
    (some (Except.ok ((r.behind [c] rest).readOperator o).1),
        ((r.behind [c] rest).readOperator o).2) =
      r.through (Piece.cutOperator c rest).1 (Piece.cutOperator c rest).2 := by
  have hshort := Operator.text_ofChar? h
  rw [readOperator]
  -- the next character is looked at once, and taken along if that makes a longer operator
  cases rest with
  | nil =>
    rw [Piece.cutOperator, Operator.cut?, h]
    exact congrArg (fun text => (_, r.behind text [])) hshort.symm
  | cons d tail =>
    cases hextend : o.extend? d with
    | none =>
      have hnext : (r.behind [c] (d :: tail)).rest.head?.bind o.extend? = none := hextend
      simp only [hnext, Piece.cutOperator, Operator.cut?, h, hextend]
      exact congrArg (fun text => (_, r.behind text (d :: tail))) hshort.symm
    | some longer =>
      have hnext : (r.behind [c] (d :: tail)).rest.head?.bind o.extend? = some longer := hextend
      have htext : longer.text = [c] ++ [d] := by rw [Operator.text_extend? hextend, hshort]
      have htaken : (r.behind [c] (d :: tail)).advance.2 = r.behind ([c] ++ [d]) tail := by
        rw [advance_of_rest rfl, behind_behind]
      simp only [hnext, htaken, Piece.cutOperator, Operator.cut?, h, hextend]
      exact congrArg (fun text => (_, r.behind text tail)) htext.symm

/-- Two slashes start a comment, which goes up to the line feed. -/
theorem readSlash_of_slash (r : Reader) (rest : List Char) :
    (r.behind ['/'] ('/' :: rest)).readSlash =
      r.through (.comment (rest.takeWhile (· != '\n'))) (rest.dropWhile (· != '\n')) := by
  rw [readSlash, takeIf_of_rest rfl]
  simp only [takeUntil_eq, behind_behind]
  rfl

/-- A slash without a second one is an operator as any other. The reader says so without a look at
the table, and the table has no longer operator that starts with it. -/
theorem readSlash_of_not_slash {rest : List Char} (h : rest.head? ≠ some '/') (r : Reader) :
    (r.behind ['/'] rest).readSlash =
      r.through (Piece.cutOperator '/' rest).1 (Piece.cutOperator '/' rest).2 := by
  have hnone : ∀ tail, (r.behind ['/'] rest).rest = '/' :: tail → False := by
    rintro tail heq
    exact h (List.head?_eq_some_iff.mpr ⟨tail, heq⟩)
  have halone : (r.behind ['/'] rest).readOperator .slash =
      (.operator .slash, r.behind ['/'] rest) := by
    cases rest <;> rfl
  have hoperator : Operator.ofChar? '/' = some .slash := rfl
  rw [readSlash, takeIf_of_not_rest hnone, ← readOperator_eq hoperator, halone]

/-- **Reading a piece takes what would be cut off**, and comes to what that is. -/
theorem readPiece_eq {r : Reader} {c : Char} {rest : List Char} (h : r.rest = c :: rest) :
    r.readPiece = r.through (Piece.cut c rest).1 (Piece.cut c rest).2 := by
  rw [readPiece, advance_of_rest h, Piece.cut]
  dsimp only
  -- the same tests are made on both sides and in the same order, but for the slash: the cut asks
  -- for both slashes at once, and leaves a single one to the operators
  by_cases hfeed : c = '\n'
  · rw [if_pos hfeed, if_pos hfeed, hfeed]
    rfl
  rw [if_neg hfeed, if_neg hfeed]
  by_cases hblank : isBlank c = true
  · rw [if_pos hblank, if_pos hblank]
    rfl
  rw [if_neg hblank, if_neg hblank]
  by_cases hquote : c = '"'
  · rw [if_pos hquote, if_pos hquote, hquote, readString_eq]
  rw [if_neg hquote, if_neg hquote]
  by_cases hdigit : c.isDigit = true
  · rw [if_pos hdigit, if_pos hdigit, readNumber_eq hdigit]
  rw [if_neg hdigit, if_neg hdigit]
  by_cases halpha : c.isAlpha = true
  · rw [if_pos halpha, if_pos halpha, readWord_eq]
  rw [if_neg halpha, if_neg halpha]
  by_cases hslash : c = '/'
  · rw [if_pos hslash, hslash]
    by_cases hsecond : rest.head? = some '/'
    · rw [if_pos ⟨rfl, hsecond⟩]
      obtain ⟨tail, rfl⟩ := List.head?_eq_some_iff.mp hsecond
      exact readSlash_of_slash r tail
    · rw [if_neg fun hboth => hsecond hboth.2, readSlash_of_not_slash hsecond]
  · rw [if_neg hslash, if_neg fun hboth => hslash hboth.1]
    cases hoperator : Operator.ofChar? c with
    | some o => exact readOperator_eq hoperator r rest
    | none =>
      rw [Piece.cutOperator, Operator.cut?, hoperator]
      rfl

/-- **A reader stops where a piece ends.** -/
theorem rest_readPiece {r : Reader} {c : Char} {rest : List Char} (h : r.rest = c :: rest) :
    r.readPiece.2.rest = (Piece.cut c rest).2 := by
  rw [readPiece_eq h, rest_through]

end Reader

end ScriptLexer
