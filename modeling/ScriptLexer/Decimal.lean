/-!
# Decimal numerals

A nonnegative decimal number is a coefficient and a power of ten, both of any size. This file
reads one from a numeral (`ofText?`) and writes one as a numeral without an exponent
(`positional`).

**Reading is exact and all or nothing.** The whole text has to be a numeral — digits, then
perhaps a point with any number of digits behind it (none will do), then perhaps an exponent with
at least one digit — and nothing is rounded here: `1.50e-3` is `150 · 10 ^ -5`, with every digit
of the text in the coefficient. What rounds is the step from a decimal to a binary number, which
is a different file's concern (`Binary64/Rounding.lean`).

**This is a second reading of numerals, and meant to be one.** The scanner cuts a numeral off a text
with procedures of its own (`Numeral.cut`) and then has it read here, so that the two could disagree
in principle. They are kept apart for that reason: that every numeral which is cut can be read is
something to prove (`isSome_ofText?_iff`, in `Proofs/Defect.lean`) and not something that a shared
definition makes true.
-/

set_option autoImplicit false

namespace ScriptLexer

/-- The decimal number `coefficient · 10 ^ exponent`. A number has many of these, one for each way
to put zeros behind the coefficient, so equality of the data is finer than equality of the number.
-/
structure Decimal where
  coefficient : Nat
  exponent : Int
  deriving DecidableEq, Repr, Inhabited

namespace Decimal

/-! ## Reading a numeral -/

/-- The number that digits spell, if there are digits and nothing else. No digits at all are not a
zero: that is what makes `1e` no numeral. -/
def natural? (digits : List Char) : Option Nat :=
  if digits.isEmpty || !digits.all Char.isDigit then none
  else some (Nat.ofDigitChars 10 digits 0)

/-- The number that digits spell, perhaps with one sign in front of them. A second sign is no digit
and makes the text no number. -/
def integer? : List Char → Option Int
  | '+' :: digits => (natural? digits).map Int.ofNat
  | '-' :: digits => (natural? digits).map fun n => -Int.ofNat n
  | digits => (natural? digits).map Int.ofNat

/-- The exponent at the end of a numeral. No text is no exponent, which counts as zero. -/
def exponent? : List Char → Option Int
  | [] => some 0
  | mark :: power => if mark = 'e' ∨ mark = 'E' then integer? power else none

/-- The fraction digits at the start of what follows the whole digits, and what follows them. A
point without digits is a fraction of no digits, which is why the numeral `11.` is read like `11`.
-/
def fraction : List Char → List Char × List Char
  | '.' :: rest => (rest.takeWhile Char.isDigit, rest.dropWhile Char.isDigit)
  | rest => ([], rest)

/-- The decimal that a numeral spells, if the text is one. Each fraction digit is one more digit
of the coefficient and one less in the exponent, so no digit is dropped and none has to be weighed:
a zero at the end of the fraction changes the coefficient and the exponent, and not the number. -/
def ofText? (text : List Char) : Option Decimal :=
  let whole := text.takeWhile Char.isDigit
  let (places, rest) := fraction (text.dropWhile Char.isDigit)
  if whole.isEmpty then none
  else (exponent? rest).map fun power =>
    ⟨Nat.ofDigitChars 10 (whole ++ places) 0, power - places.length⟩

/-! ## Writing a numeral -/

/-- The digits of the coefficient with the point where the exponent puts it. Zeros fill up to
the point on either side, so that a digit always stands in front of it, and a number with no
fraction digits is written without a point. No exponent is ever written, however long the text
becomes for it. -/
def positional (d : Decimal) : List Char :=
  let digits := Nat.toDigits 10 d.coefficient
  match d.exponent with
  | .ofNat zeros => digits ++ List.replicate zeros '0'
  | .negSucc n =>
    let places := n + 1
    -- one zero more than there are places, if the coefficient is too short to reach past the point
    let padded := List.replicate (places + 1 - digits.length) '0' ++ digits
    let whole := padded.length - places
    padded.take whole ++ '.' :: padded.drop whole

end Decimal

end ScriptLexer
