import ScriptLexer.Binary64.Basic
import ScriptLexer.Decimal

/-!
# The nearest binary64 to a decimal

Reading a decimal is one exact division. A decimal is a fraction of natural numbers, the fraction
is measured in units of `2 ^ -1074` (`Binary64/Basic.lean`), and the quotient is rounded to the
spacing of the binade it falls in, a half going to the even neighbour (`nearestRank`).

**There is one formula for all sizes.** With `2 ^ s` units between neighbours and `m` the rounded
number of such steps, the rank is `s · 2 ^ 52 + m`. Below the normal range `s` is zero and the
rank is `m` itself; a quotient that rounds up to a power of two carries into the next binade by
the addition; a quotient too large for the format gives a rank past infinity, and the minimum
brings it back to infinity.

**Two shortcuts keep huge exponents from being computed**, and neither changes an answer. A
coefficient that is not zero with `10 ^ 310` behind it is past every finite number. A
coefficient below `2 ^ n` over `10 ^ k` is below `2 ^ (n - 3 * k)`, and below `2 ^ -1075` — half
the least positive number — it rounds to zero. Without them a numeral of ten characters such as
`1e99999999` would ask for a number of a hundred million digits. That they answer what the formula
would have answered is part of what is proved of reading (`roundsTo_rankOfDecimal`).
-/

set_option autoImplicit false

namespace ScriptLexer

namespace Binary64

/-- The whole number nearest to `num / den`, a half going to the even one. What is compared with the
half is the remainder doubled, so that no half of an odd denominator is needed. -/
def roundHalfEven (num den : Nat) : Nat :=
  let down := num / den
  let left := num % den
  if 2 * left < den then down
  else if den < 2 * left then down + 1
  else down + down % 2

/-- The rank of the number nearest to `num / den` units of `2 ^ -1074`, a half going to the even
rank. The spacing is one unit up to `2 ^ 53` units and doubles with each power of two. It is found
from the quotient before rounding: a quotient that rounds up out of its binade lands on the first
number of the next, which is on the grid of both. -/
def nearestRank (num den : Nat) : Nat :=
  let spacing := (num / den).log2 - 52
  min (spacing * hiddenBit + roundHalfEven num (den <<< spacing)) infinityRank

/-- The rank of the number nearest to a decimal. Zero is told apart first, because no exponent makes
anything else of it, and because the shortcut for large exponents would make infinity of it. -/
def rankOfDecimal (d : Decimal) : Nat :=
  match d.exponent with
  | .ofNat zeros =>
    if d.coefficient = 0 then 0
    else if 310 ≤ zeros then infinityRank
    else nearestRank ((d.coefficient * Nat.pow 10 zeros) <<< 1074) 1
  | .negSucc n =>
    let places := n + 1
    if d.coefficient.log2 + 1 + 1075 ≤ 3 * places then 0
    else nearestRank (d.coefficient <<< 1074) (Nat.pow 10 places)

/-- The number nearest to a decimal, a half going to the even one. A decimal has no sign, so neither
has this number; a minus in front of a numeral is an operator. -/
def ofDecimal (d : Decimal) : Binary64 :=
  ofRank (rankOfDecimal d)

/-! ## First facts -/

theorem nearestRank_le_infinityRank (num den : Nat) : nearestRank num den ≤ infinityRank :=
  Nat.min_le_right _ _

theorem rankOfDecimal_le_infinityRank (d : Decimal) : rankOfDecimal d ≤ infinityRank := by
  unfold rankOfDecimal
  split
  · split
    · exact Nat.zero_le _
    · split
      · exact Nat.le_refl _
      · exact nearestRank_le_infinityRank _ _
  · dsimp only
    split
    · exact Nat.zero_le _
    · exact nearestRank_le_infinityRank _ _

/-- Reading never sets the sign bit, and it never makes a NaN. The rank that was computed is the
rank of the number, which is what later proofs about the number start from. -/
theorem rank_ofDecimal (d : Decimal) : (ofDecimal d).rank = rankOfDecimal d :=
  rank_ofRank (Nat.lt_of_le_of_lt (rankOfDecimal_le_infinityRank d) (by decide))

end Binary64

end ScriptLexer
