/-!
# Binary64 numbers

A binary64 number is its sixty-four bits, and everything said about one here is said in natural
numbers; no floating-point arithmetic takes part.

**The bits below the sign are a rank.** Read as a natural number they count the nonnegative
numbers of the format upwards from zero: rank 0 is zero, rank 1 the least positive number, and
the next rank is the next number, through subnormals and normals alike, up to infinity
(`infinityRank`). So rounding to a neighbour is adding one to a rank, and carrying into the next
binade or overflowing into infinity needs no case of its own.

**Every finite number is a whole number of units** of `2 ^ -1074`, the least positive one, and
`magnitude` says of how many. It goes on one step past the finite ranks: at `infinityRank` it is
`2 ^ 1024`, the number that the format would hold next if its exponents went on, which is what
decides where overflow begins.

Natural numbers are chosen over a floating-point type because everything here has to be proved
exactly, halfway cases and overflow included. The price is size: a magnitude has up to 2098 binary
digits, and reading or writing a number computes with a few of that length.
-/

set_option autoImplicit false

namespace ScriptLexer

/-- A binary64 number, as its bits: the sign, eleven exponent bits, fifty-two fraction bits.
Equality is that of the bits, under which the two zeros differ and a NaN is equal to itself; for the
other one there is `numericallyEqual`. -/
structure Binary64 where
  bits : UInt64
  deriving DecidableEq, Repr, Inhabited

namespace Binary64

/-- The weight of the sign bit, `2 ^ 63`. It is written out because a power would have to be
computed wherever a rank is looked at. -/
def signBit : Nat := 0x8000000000000000

/-- The weight of the lowest exponent bit, `2 ^ 52`. In a normal number it is also the weight of
the bit that is not stored. -/
def hiddenBit : Nat := 0x10000000000000

/-- The first rank that is no finite number: every exponent bit set and no fraction bit. The ranks
below it are finite, it is infinity itself, and those above it are the NaNs. -/
def infinityRank : Nat := 0x7FF0000000000000

/-- The bits below the sign bit, as a number. Numbers that differ in their sign only have the same
rank, so a rank says how far a number is from zero and not on which side. -/
def rank (x : Binary64) : Nat := x.bits.toNat % signBit

def isNegative (x : Binary64) : Bool := signBit ≤ x.bits.toNat

/-- Whether the bits stand for no number at all. A rank past infinity is all there is to it. -/
def isNaN (x : Binary64) : Bool := infinityRank < x.rank

def isFinite (x : Binary64) : Bool := x.rank < infinityRank

/-- The number of a rank, with the sign bit clear. Ranks that do not fit below the sign bit wrap
around, but rounding never yields one: it stops at infinity. -/
def ofRank (rank : Nat) : Binary64 := ⟨UInt64.ofNat rank⟩

/-- How many units of `2 ^ -1074` the number of a rank is. A fraction field stands for itself in
the subnormal binade and in the first normal one, where the hidden bit is its next bit up; from
there on each binade doubles the unit. It is increasing in the rank (`magnitude_strictMono`), which
is the reason for ordering numbers by their ranks. -/
def magnitude (rank : Nat) : Nat :=
  let exponent := rank / hiddenBit
  let fraction := rank % hiddenBit
  if exponent = 0 then fraction else (hiddenBit + fraction) <<< (exponent - 1)

/-- Equality of the numbers, which is not equality of the bits: the two zeros are equal, and a
NaN is equal to nothing, itself included. -/
def numericallyEqual (x y : Binary64) : Bool :=
  !x.isNaN && (x.bits == y.bits || (x.rank == 0 && y.rank == 0))

/-! ## First facts -/

theorem rank_ofRank {r : Nat} (h : r < signBit) : (ofRank r).rank = r := by
  simp only [rank, ofRank, UInt64.toNat_ofNat', signBit] at h ⊢
  omega

theorem isNegative_ofRank {r : Nat} (h : r < signBit) : (ofRank r).isNegative = false := by
  simp only [isNegative, ofRank, UInt64.toNat_ofNat', decide_eq_false_iff_not, signBit] at h ⊢
  omega

/-- A number with the sign bit clear is known by its rank. With the sign bit set it is not, so every
statement that goes from ranks to numbers has to say which sign it is about. -/
theorem ofRank_rank {x : Binary64} (h : x.isNegative = false) : ofRank x.rank = x := by
  have hx : x.bits.toNat < signBit := by simpa [isNegative] using h
  cases x with
  | mk bits =>
    simp only [ofRank, rank, mk.injEq]
    rw [Nat.mod_eq_of_lt hx]
    exact UInt64.ofNat_toNat

theorem numericallyEqual_self (x : Binary64) : x.numericallyEqual x = !x.isNaN := by
  simp [numericallyEqual]

end Binary64

end ScriptLexer
