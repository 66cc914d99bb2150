/-!
# The longest numeral at the start of a text

A numeral is digits, then perhaps a point with any number of digits behind it, then perhaps an
exponent. `cut` takes the longest one from the start of a text and leaves the rest.

**Only the exponent looks ahead.** The whole digits and the fraction take what is there and never
give anything back, but a mark and a sign belong to the numeral only when a digit follows them:
of `1e+x` the numeral is `1`, and the word `e` starts behind it. So `exponent` decides by the
digits first and takes the mark and the sign only with them.

Cutting does not read. What a numeral is worth is decided elsewhere (`Decimal.ofText?`) from the
text that was cut off, and nothing is shared between the two but the digits.
-/

set_option autoImplicit false

namespace ScriptLexer

namespace Numeral

/-- The fraction at the start of a text: a point and the digits behind it, which may be none. A
point is taken even if no digit follows, so behind a numeral it is never an operator. -/
def fraction : List Char → List Char × List Char
  | '.' :: rest => ('.' :: rest.takeWhile Char.isDigit, rest.dropWhile Char.isDigit)
  | rest => ([], rest)

/-- The sign at the start of a text, if there is one. -/
def sign : List Char → List Char × List Char
  | '+' :: rest => (['+'], rest)
  | '-' :: rest => (['-'], rest)
  | rest => ([], rest)

/-- The exponent at the start of a text: a mark, perhaps a sign, and at least one digit. Without the
digit nothing is taken at all, not even the mark, and what was looked at stays in the text. -/
def exponent : List Char → List Char × List Char
  | [] => ([], [])
  | mark :: rest =>
    let power := (sign rest).2.takeWhile Char.isDigit
    if (mark = 'e' ∨ mark = 'E') ∧ power ≠ [] then
      (mark :: (sign rest).1 ++ power, (sign rest).2.dropWhile Char.isDigit)
    else ([], mark :: rest)

/-- The longest numeral at the start of a text that starts with a digit, and what follows it. Of a
text that starts otherwise it may cut off nothing, so whoever calls it looks at the first character
before (`Piece.cut`). -/
def cut (text : List Char) : List Char × List Char :=
  let (places, afterPlaces) := fraction (text.dropWhile Char.isDigit)
  let (power, rest) := exponent afterPlaces
  (text.takeWhile Char.isDigit ++ places ++ power, rest)

/-! ## Nothing is lost -/

@[simp] theorem fraction_append (text : List Char) :
    (fraction text).1 ++ (fraction text).2 = text := by
  unfold fraction
  split <;> simp

@[simp] theorem sign_append (text : List Char) : (sign text).1 ++ (sign text).2 = text := by
  unfold sign
  split <;> simp

@[simp] theorem exponent_append (text : List Char) :
    (exponent text).1 ++ (exponent text).2 = text := by
  cases text with
  | nil => rfl
  | cons mark rest =>
    unfold exponent
    dsimp only
    split
    · simp [sign_append]
    · simp

@[simp] theorem cut_append (text : List Char) : (cut text).1 ++ (cut text).2 = text := by
  simp only [cut, List.append_assoc, exponent_append, fraction_append]
  exact List.takeWhile_append_dropWhile

/-- A text that starts with a digit has a numeral of at least that digit. This is what makes a scan
with numbers in it come to an end. -/
theorem length_cut_lt {c : Char} (rest : List Char) (h : c.isDigit = true) :
    (cut (c :: rest)).2.length < (c :: rest).length := by
  have hlen := congrArg List.length (cut_append (c :: rest))
  have hpos : 0 < (cut (c :: rest)).1.length := by
    simp [cut, h]
  simp only [List.length_append] at hlen
  omega

end Numeral

end ScriptLexer
