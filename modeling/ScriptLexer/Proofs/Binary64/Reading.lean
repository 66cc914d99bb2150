import ScriptLexer.Proofs.Binary64.Nearest
import Mathlib.Algebra.Order.Field.Power

/-!
# Reading a decimal is correctly rounded

`rankOfDecimal` (`Binary64/Rounding.lean`) measures a decimal in units of `2 ^ -1074` and rounds,
except where it can tell from the exponent alone that the answer is infinity or zero. **Each of its
answers is the rank in whose basin the decimal lies** (`roundsTo_rankOfDecimal`), so what is read
is the nearest binary64 whatever the number of digits and the size of the exponent
(`isNearest_ofDecimal`).

The shortcuts are bounds that somebody chose, with room to spare, and each has a lemma of its own
that says why it is on the safe side. A bound that is moved needs that lemma again and nothing else.
-/

set_option autoImplicit false

namespace ScriptLexer

/-- The number that a decimal is. The exponent may be negative, so this is a rational number, and
the first place where one is needed to say what is right. -/
def Decimal.toRat (d : Decimal) : ℚ := d.coefficient * 10 ^ d.exponent

theorem Decimal.toRat_nonneg (d : Decimal) : 0 ≤ d.toRat := by
  unfold Decimal.toRat
  positivity

namespace Binary64

/-- A number with `10 ^ 310` behind it overflows. Ten to the 309th would do as well; the power need
only be past the bound, and is compared with it once by computing. -/
theorem roundsTo_infinityRank_of_zeros {coefficient zeros : Nat} (hc : coefficient ≠ 0)
    (hzeros : 310 ≤ zeros) :
    RoundsTo (coefficient * 10 ^ zeros * 2 ^ 1074) infinityRank := by
  refine roundsTo_infinityRank ((overflowBound_le_iff _).mp ?_)
  have hten : (2 : ℚ) ^ 1024 ≤ 10 ^ 310 := by
    have : 2 ^ 1024 ≤ 10 ^ 310 := by decide +kernel
    exact_mod_cast this
  calc overflowBound ≤ 2 ^ 1024 := sub_le_self _ (by positivity)
    _ ≤ 10 ^ 310 := hten
    _ ≤ 10 ^ zeros := pow_le_pow_right₀ (by norm_num) hzeros
    _ ≤ coefficient * 10 ^ zeros :=
      le_mul_of_one_le_left (by positivity) (by exact_mod_cast Nat.one_le_iff_ne_zero.mpr hc)

/-- A number that is so many places behind the point is below half the least positive number. A
place is counted for three bits only, ten being more than eight, and that is what makes the test
cheap. -/
theorem roundsTo_zero_of_places {coefficient places : Nat}
    (h : coefficient.log2 + 1 + 1075 ≤ 3 * places) :
    RoundsTo (coefficient / 10 ^ places * 2 ^ 1074) 0 := by
  have hpow : coefficient * 2 ^ 1075 < 10 ^ places := by
    calc coefficient * 2 ^ 1075 < 2 ^ (coefficient.log2 + 1) * 2 ^ 1075 :=
          Nat.mul_lt_mul_of_pos_right Nat.lt_log2_self (by positivity)
      _ = 2 ^ (coefficient.log2 + 1 + 1075) := (pow_add _ _ _).symm
      _ ≤ 2 ^ (3 * places) := Nat.pow_le_pow_right two_pos h
      _ = 8 ^ places := pow_mul 2 3 places
      _ ≤ 10 ^ places := Nat.pow_le_pow_left (by norm_num) places
  have hpow' : (coefficient * 2 ^ 1075 : ℚ) < 10 ^ places := by exact_mod_cast hpow
  refine roundsTo_zero ?_
  calc 2 * (coefficient / 10 ^ places * 2 ^ 1074 : ℚ)
      = coefficient * 2 ^ 1075 / 10 ^ places := by
        rw [show (2 : ℚ) ^ 1075 = 2 ^ 1074 * 2 from pow_succ 2 1074]
        generalize (2 : ℚ) ^ 1074 = a
        ring
    _ < 1 := (div_lt_one (by positivity)).mpr hpow'

/-- Every branch of reading ends in the basin of its answer. The cases are those of `rankOfDecimal`:
two signs of the exponent, and in each the shortcut and the division. -/
theorem roundsTo_rankOfDecimal (d : Decimal) :
    RoundsTo (d.toRat * 2 ^ 1074) (rankOfDecimal d) := by
  obtain ⟨coefficient, exponent⟩ := d
  cases exponent with
  | ofNat zeros =>
    have hvalue : Decimal.toRat ⟨coefficient, .ofNat zeros⟩ = coefficient * 10 ^ zeros := by
      simp [Decimal.toRat]
    rw [hvalue]
    simp only [rankOfDecimal]
    split
    · rename_i hzero
      rw [hzero, Nat.cast_zero, zero_mul, zero_mul]
      exact roundsTo_zero (by norm_num)
    · rename_i hne
      split
      · rename_i hzeros
        exact roundsTo_infinityRank_of_zeros hne hzeros
      -- what no shortcut decides is rounded as a fraction, here over one
      · have h := roundsTo_nearestRank ((coefficient * Nat.pow 10 zeros) <<< 1074) one_pos
        convert h using 1
        rw [Nat.shiftLeft_eq, Nat.pow_eq]
        simp only [Nat.cast_mul, Nat.cast_pow, Nat.cast_ofNat, Nat.cast_one, div_one]
  | negSucc n =>
    have hvalue : Decimal.toRat ⟨coefficient, .negSucc n⟩ = coefficient / 10 ^ (n + 1) := by
      rw [Decimal.toRat, zpow_negSucc, div_eq_mul_inv]
    rw [hvalue]
    simp only [rankOfDecimal]
    split
    · rename_i hplaces
      exact roundsTo_zero_of_places hplaces
    · have h : RoundsTo _ (nearestRank (coefficient <<< 1074) (Nat.pow 10 (n + 1))) :=
        roundsTo_nearestRank _ (Nat.pow_pos (by decide))
      convert h using 1
      rw [Nat.shiftLeft_eq, Nat.pow_eq, div_mul_eq_mul_div]
      simp only [Nat.cast_mul, Nat.cast_pow, Nat.cast_ofNat]

/-- **What is read is the nearest binary64.** -/
theorem isNearest_ofDecimal (d : Decimal) : IsNearest d.toRat (ofDecimal d) := by
  have hle := rankOfDecimal_le_infinityRank d
  refine (isNearest_iff d.toRat_nonneg _).mpr ⟨isNegative_ofRank_of_le hle, ?_⟩
  rw [rank_ofDecimal]
  exact roundsTo_rankOfDecimal d

end Binary64

end ScriptLexer
