import ScriptLexer.Binary64.Shortest
import ScriptLexer.Proofs.Binary64.Reading

/-!
# The shortest decimal reads back

`shortest` (`Binary64/Shortest.lean`) goes over ever finer grids of decimals and settles for the
first point that its basin contains. The basin there is kept in natural numbers; here it is shown
to be the basin that reading goes by (`contains_ofRank_iff`). **So whatever grid the search stops
at, what it settles for is read as the rank it was looked for** (`roundsTo_shortest`), and writing
a finite number and reading it again gives all its bits back (`ofDecimal_shortest`).

None of this needs the search to be a good one. That it settles for few digits is shown elsewhere
(`Coarsest`), and a search in another order would leave everything here as it is.
-/

set_option autoImplicit false

namespace ScriptLexer

namespace Binary64

theorem unitScale_eq : unitScale = 5 ^ 1074 := by
  unfold unitScale
  -- with a variable for the exponent, so that the power is not computed
  generalize 1074 = k
  rfl

theorem unitScale_pos : 0 < unitScale := by
  rw [unitScale_eq]
  positivity

/-- Units of `10 ^ -1074` in units of `2 ^ -1074`. The exponent is the one that the search gives to
the points of its grids, a subtraction of integers. -/
theorem toRat_mul_two_pow (c t : Nat) :
    Decimal.toRat ⟨c, Int.ofNat t - 1074⟩ * 2 ^ 1074 = (c * 10 ^ t : Nat) / unitScale := by
  have hunit (k : Nat) : (10 : ℚ) ^ (-(k : ℤ)) * 2 ^ k = ((5 ^ k : Nat) : ℚ)⁻¹ := by
    rw [zpow_neg, zpow_natCast, show (10 : ℚ) = 5 * 2 by norm_num, mul_pow, mul_inv, mul_assoc,
      inv_mul_cancel₀ (by positivity), mul_one, Nat.cast_pow, Nat.cast_ofNat]
  have hsplit : (10 : ℚ) ^ (Int.ofNat t - 1074) = 10 ^ t * 10 ^ (-((1074 : Nat) : ℤ)) := by
    rw [sub_eq_add_neg, zpow_add₀ (by norm_num), Int.ofNat_eq_natCast, zpow_natCast]
    rfl
  rw [Decimal.toRat, hsplit, mul_assoc, mul_assoc, hunit, ← unitScale_eq, div_eq_mul_inv,
    Nat.cast_mul, Nat.cast_pow, Nat.cast_ofNat, mul_assoc]

/-! ## The basin in natural numbers -/

/-- The two ends of a basin belong to it when the rank is even. This is the only place where the two
cases of `contains` are looked at; with `LeIfEven` they are one statement from here on. -/
theorem contains_ofRank_iff_ends (rank n : Nat) :
    (Basin.ofRank rank).contains n = true ↔
      LeIfEven rank ((magnitude (rank - 1) + magnitude rank) * unitScale) (2 * n) ∧
        LeIfEven rank (2 * n) ((magnitude rank + magnitude (rank + 1)) * unitScale) := by
  rcases Nat.mod_two_eq_zero_or_one rank with heven | hodd
  · rw [LeIfEven.iff_le heven, LeIfEven.iff_le heven]
    have hclosed : (rank % 2 == 0) = true := by simp [heven]
    simp only [Basin.contains, Basin.ofRank, hclosed, if_true, Bool.and_eq_true, decide_eq_true_eq]
    norm_cast
  · rw [LeIfEven.iff_lt hodd, LeIfEven.iff_lt hodd]
    have hopen : (rank % 2 == 0) = false := by simp [hodd]
    simp only [Basin.contains, Basin.ofRank, hopen, Bool.false_eq_true, if_false, Bool.and_eq_true,
      decide_eq_true_eq]
    norm_cast

/-- A basin contains the decimals that are read as its rank. For the greatest finite rank too: its
upper end is the midpoint to the number that counts for infinity. -/
theorem contains_ofRank_iff {rank : Nat} (hrank : rank < infinityRank) (n : Nat) :
    (Basin.ofRank rank).contains n = true ↔ RoundsTo (n / unitScale) rank := by
  have hpos : (0 : ℚ) < unitScale := by exact_mod_cast unitScale_pos
  have hscale : (2 * (n / unitScale) * unitScale : ℚ) = 2 * n := by
    rw [mul_assoc, div_mul_cancel₀ _ hpos.ne']
  rw [contains_ofRank_iff_ends, ← hscale]
  constructor
  · rintro ⟨hlow, hhigh⟩
    refine ⟨hrank.le, ?_, fun _ => hhigh.of_mul_right hpos⟩
    rintro below rfl
    exact hlow.of_mul_right hpos
  · intro h
    refine ⟨?_, (h.high hrank).mul_right hpos⟩
    cases rank with
    | zero =>
      -- zero has no neighbour below it, and nothing is below zero
      refine LeIfEven.of_le_of_even ?_ rfl
      rw [Nat.zero_sub, magnitude_zero, hscale, Nat.cast_zero, add_zero, zero_mul]
      exact mul_nonneg zero_le_two n.cast_nonneg
    | succ below => exact (h.low below rfl).mul_right hpos

/-! ## The search stays within the basin -/

/-- Whichever step the search stops at, its decimal is read as the rank. At step one that is the
number itself, so there is an answer even if no grid before that had one. -/
theorem roundsTo_shortestFrom {rank : Nat} (hrank : rank < infinityRank) (t : Nat) :
    RoundsTo (((Basin.ofRank rank).shortestFrom t).toRat * 2 ^ 1074) rank := by
  induction t with
  | zero =>
    have hpos : (0 : ℚ) < unitScale := by exact_mod_cast unitScale_pos
    -- the grid of step one goes through the center, and no search is made in it
    have hcenter : ((Basin.ofRank rank).center : ℚ) / unitScale = magnitude rank := by
      rw [Basin.ofRank, Nat.cast_mul, mul_div_cancel_right₀ _ hpos.ne']
    have hvalue := toRat_mul_two_pow (Basin.ofRank rank).center 0
    rw [pow_zero, Nat.mul_one, hcenter] at hvalue
    rw [Basin.shortestFrom]
    exact hvalue ▸ roundsTo_magnitude hrank.le
  | succ t ih =>
    rw [Basin.shortestFrom]
    split
    · rename_i c hc
      rw [toRat_mul_two_pow]
      exact (contains_ofRank_iff hrank _).mp (Basin.contains_of_onGrid? hc)
    · exact ih

/-- Zero is written without a search, and is read back as the other numbers are. -/
theorem roundsTo_shortest {rank : Nat} (hrank : rank < infinityRank) :
    RoundsTo ((shortest rank).toRat * 2 ^ 1074) rank := by
  unfold shortest
  split
  · rename_i hzero
    subst hzero
    exact roundsTo_zero (by simp [Decimal.toRat])
  · exact roundsTo_shortestFrom hrank _

/-- **The shortest decimal of a finite number is read as that number.** Both ranks are read from the
same decimal, and no two are. -/
theorem ofDecimal_shortest {x : Binary64} (hfinite : x.isFinite = true)
    (hneg : x.isNegative = false) : ofDecimal (shortest x.rank) = x := by
  have hrank := (isFinite_iff x).mp hfinite
  have heq := (roundsTo_rankOfDecimal (shortest x.rank)).unique (roundsTo_shortest hrank)
  rw [ofDecimal, heq, ofRank_rank hneg]

end Binary64

end ScriptLexer
