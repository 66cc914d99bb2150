import ScriptLexer.Binary64.Basic
import ScriptLexer.Decimal

/-!
# The shortest decimal that reads back

A binary64 number is written with the fewest digits that still read back as the same number; of
the decimals with that many digits the nearest is taken, and when two are equally near the
greater.

**All of it is on one grid of natural numbers.** A unit of `2 ^ -1074` is `5 ^ 1074` units of
`10 ^ -1074`, so the number, and the midpoints to its two neighbours doubled, are natural numbers
of the small decimal unit (`Basin`). What reads back as the number is what lies between the
midpoints, and the midpoints themselves exactly when the rank is even, since a half goes to the
even rank.

**Fewest digits means coarsest grid.** Fewer digits is a longer step `10 ^ t`, so `shortestFrom`
goes down from a step longer than the number and stops at the first whose grid has a point in the
basin. If any grid point is, one of the two that enclose the number is, so only those are asked
(`onGrid?`). At step one the number itself is a grid point, so the search cannot fail.

The search tries one step after the other and is not fast. It is written for being proved right: it
stops at the first grid that meets the basin, so that no coarser one does is what the recursion says
(`isCoarsest_shortestFrom`), and nothing has to be known about how decimals and binades interleave.
-/

set_option autoImplicit false

namespace ScriptLexer

namespace Binary64

/-- How many units of `10 ^ -1074` make one of `2 ^ -1074`. The small decimal unit divides the
binary one, so on the decimal side nothing is ever a fraction but a midpoint. -/
def unitScale : Nat := Nat.pow 5 1074

/-- The decimals that read back as one number, in units of `10 ^ -1074`. The two ends are kept
doubled, because a midpoint may fall between two units. They are not equally far from the center:
at a power of two the next number below is nearer than the next above. -/
structure Basin where
  center : Nat
  /-- Twice the midpoint to the next number below. -/
  twiceLow : Nat
  /-- Twice the midpoint to the next number above. -/
  twiceHigh : Nat
  /-- Whether the midpoints themselves read back. -/
  closed : Bool
  deriving DecidableEq, Repr

namespace Basin

/-- What reads back as the number of a rank. For the greatest finite number the upper end is the
midpoint to `2 ^ 1024`, past which reading yields infinity, so it needs no case of its own. -/
def ofRank (rank : Nat) : Basin where
  center := magnitude rank * unitScale
  twiceLow := (magnitude (rank - 1) + magnitude rank) * unitScale
  twiceHigh := (magnitude rank + magnitude (rank + 1)) * unitScale
  closed := rank % 2 == 0

/-- Whether a number of units of `10 ^ -1074` reads back. A midpoint goes to the even rank, so a
basin has either both of its ends or neither. -/
def contains (b : Basin) (n : Nat) : Bool :=
  if b.closed then b.twiceLow ≤ 2 * n && 2 * n ≤ b.twiceHigh
  else b.twiceLow < 2 * n && 2 * n < b.twiceHigh

/-- The multiple of `step` that reads back, as the number of steps, if there is one. Of two it is
the nearer to the center, and of two equally near the greater. -/
def onGrid? (b : Basin) (step : Nat) : Option Nat :=
  let down := b.center / step
  let up := down + 1
  match b.contains (down * step), b.contains (up * step) with
  | true, true => some (if b.center - down * step < up * step - b.center then down else up)
  | true, false => some down
  | false, true => some up
  | false, false => none

/-- The decimal that reads back with the longest step `10 ^ t`, among the steps up to a given
one. Step one is not asked for: there the number is its own grid point, and the answer is exact. -/
def shortestFrom (b : Basin) : Nat → Decimal
  | 0 => ⟨b.center, -1074⟩
  | t + 1 =>
    match b.onGrid? (Nat.pow 10 (t + 1)) with
    | some c => ⟨c, Int.ofNat (t + 1) - 1074⟩
    | none => b.shortestFrom t

end Basin

/-- A power of ten that no finite number reaches, in units of `10 ^ -1074`, for the number of a
rank: the number is below `2 ^ (log2 + 2)` units of `2 ^ -1074`, `2 ^ 93` is below `10 ^ 28`, and
`5 ^ 1074` is below `10 ^ 751`. -/
def longestStep (rank : Nat) : Nat :=
  28 * ((magnitude rank).log2 + 2) / 93 + 1 + 751

/-- The shortest decimal that reads back as the finite number of a rank. Zero has no step that is
longer than it, and one digit is enough for it, so it does not take part in the search. -/
def shortest (rank : Nat) : Decimal :=
  if rank = 0 then ⟨0, 0⟩ else (Basin.ofRank rank).shortestFrom (longestStep rank)

/-- The text of a number: the shortest decimal that reads back, never with an exponent, behind a
minus sign when the sign bit is set. -/
def text (x : Binary64) : List Char :=
  if x.isNaN then ['N', 'a', 'N']
  else
    let unsigned := if x.isFinite then (shortest x.rank).positional else ['i', 'n', 'f']
    if x.isNegative then '-' :: unsigned else unsigned

/-! ## First facts -/

/-- What `onGrid?` answers does read back. In each of its cases the answer is one of the two points
that were asked, and was asked with success. -/
theorem Basin.contains_of_onGrid? {b : Basin} {step c : Nat} (h : b.onGrid? step = some c) :
    b.contains (c * step) = true := by
  unfold Basin.onGrid? at h
  dsimp only at h
  split at h
  · rename_i hd hu
    split at h <;> (cases h; assumption)
  · cases h
    assumption
  · cases h
    assumption
  · contradiction

end Binary64

end ScriptLexer
