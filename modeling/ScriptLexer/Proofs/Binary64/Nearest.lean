import ScriptLexer.Proofs.Binary64.Basin

/-!
# The nearest binary64

What it is for a binary64 to be the one nearest to a rational number, said over the sixty-four
bits and exact rationals (`IsNearest`), with nothing of how it is found. `toRat` reads the fields
of the bits as the format lays them down; `IsNearest` compares distances with every finite number
of the format, subnormals, zeros and negative numbers included.

**Being nearest is lying in the basin of the rank** (`isNearest_iff`). With that the nearest
number is one number only (`IsNearest.unique`), and reading a decimal comes to it whatever the
size of the decimal (`isNearest_ofDecimal`), because the shortcuts for huge exponents answer with
a rank in whose basin the decimal is.

The statement and the proof are in different terms on purpose. Distances from all numbers are what
"nearest" means, and a reader can check that against the standard; ranks and midpoints are what can
be computed with. `toRat` and `IsNearest` do not mention ranks at all.
-/

set_option autoImplicit false

namespace ScriptLexer

namespace Binary64

/-! ## The numbers of the format -/

/-- The eleven bits below the sign. -/
def exponentField (x : Binary64) : Nat := x.bits.toNat / 2 ^ 52 % 2 ^ 11

/-- The fifty-two bits below the exponent. -/
def fractionField (x : Binary64) : Nat := x.bits.toNat % 2 ^ 52

/-- The number that the bits of a finite binary64 stand for. Where the exponent field is zero the
number is subnormal and has no hidden bit. Infinities and NaNs get a number here as well, which
means nothing; being nearest compares finite numbers only. -/
def toRat (x : Binary64) : ℚ :=
  let unsigned : ℚ :=
    if x.exponentField = 0 then x.fractionField / 2 ^ 1074
    else (2 ^ 52 + x.fractionField) * 2 ^ x.exponentField / 2 ^ 1075
  if x.isNegative then -unsigned else unsigned

/-- The number past every finite one, with no sign: all exponent bits set and nothing else. -/
def infinity : Binary64 := ⟨0x7FF0000000000000⟩

/-- Where overflow begins: half a step past the greatest finite number. From there on the nearest
number of the format would be `2 ^ 1024`, if it had one. -/
def overflowBound : ℚ := 2 ^ 1024 - 2 ^ 970

/-- `x` is the binary64 nearest to `v`, a half going to the even significand. From the overflow
bound on it is infinity, and below it is finite. That the sign bit is clear is part of it, since
what is read has no sign; without that the two zeros would be equally near. A tie is between numbers
of different value, and the lowest bit tells which significand is even. -/
structure IsNearest (v : ℚ) (x : Binary64) : Prop where
  isNegative_eq_false : x.isNegative = false
  eq_infinity_iff : x = infinity ↔ overflowBound ≤ v
  isFinite_of_lt : v < overflowBound → x.isFinite = true
  abs_le : v < overflowBound → ∀ y : Binary64, y.isFinite = true → |v - x.toRat| ≤ |v - y.toRat|
  even : v < overflowBound → ∀ y : Binary64, y.isFinite = true → y.toRat ≠ x.toRat →
    |v - y.toRat| = |v - x.toRat| → x.bits.toNat % 2 = 0

/-- The number of a rank, by the fields of its bits. The exponent field counts from one where there
is a hidden bit. So the power is halved again, where an exponent of one less would be a subtraction.
-/
theorem magnitude_rank (x : Binary64) :
    (magnitude x.rank : ℚ) =
      if x.exponentField = 0 then (x.fractionField : ℚ)
      else (2 ^ 52 + x.fractionField) * 2 ^ x.exponentField / 2 := by
  have hexponent : x.rank / hiddenBit = x.exponentField := by
    simp only [rank, signBit, hiddenBit, exponentField]
    omega
  have hfraction : x.rank % hiddenBit = x.fractionField := by
    simp only [rank, signBit, hiddenBit, fractionField]
    omega
  simp only [magnitude, hexponent, hfraction, Nat.shiftLeft_eq]
  split
  · rfl
  · rename_i hne
    obtain ⟨e, he⟩ := Nat.exists_eq_add_one_of_ne_zero hne
    rw [he, Nat.add_sub_cancel, show hiddenBit = 2 ^ 52 by decide, pow_succ]
    push_cast
    ring

/-- The number that the bits stand for is its rank's, in units and with its sign. From here on the
fields are not looked at again. -/
theorem toRat_eq (x : Binary64) :
    x.toRat = if x.isNegative then -(magnitude x.rank / 2 ^ 1074 : ℚ)
      else magnitude x.rank / 2 ^ 1074 := by
  have hunsigned : (magnitude x.rank / 2 ^ 1074 : ℚ) =
      if x.exponentField = 0 then (x.fractionField / 2 ^ 1074 : ℚ)
      else (2 ^ 52 + x.fractionField) * 2 ^ x.exponentField / 2 ^ 1075 := by
    rw [magnitude_rank]
    split
    · rfl
    · rw [div_div, ← pow_succ']
  rw [hunsigned, toRat]

/-! ## Ranks as numbers -/

theorem isNegative_ofRank_of_le {rank : Nat} (h : rank ≤ infinityRank) :
    (ofRank rank).isNegative = false :=
  isNegative_ofRank (h.trans_lt (by decide))

theorem rank_ofRank_of_le {rank : Nat} (h : rank ≤ infinityRank) : (ofRank rank).rank = rank :=
  rank_ofRank (h.trans_lt (by decide))

theorem isFinite_iff (x : Binary64) : x.isFinite = true ↔ x.rank < infinityRank := by
  simp [isFinite]

theorem isFinite_ofRank {rank : Nat} (h : rank < infinityRank) :
    (ofRank rank).isFinite = true := by
  rw [isFinite_iff, rank_ofRank_of_le h.le]
  exact h

theorem toRat_of_isNegative_eq_false {x : Binary64} (h : x.isNegative = false) :
    x.toRat = magnitude x.rank / 2 ^ 1074 := by
  rw [toRat_eq, h]
  simp

theorem toRat_ofRank {rank : Nat} (h : rank ≤ infinityRank) :
    (ofRank rank).toRat = magnitude rank / 2 ^ 1074 := by
  rw [toRat_of_isNegative_eq_false (isNegative_ofRank_of_le h), rank_ofRank_of_le h]

theorem eq_infinity_iff_rank {x : Binary64} (h : x.isNegative = false) :
    x = infinity ↔ x.rank = infinityRank := by
  constructor
  · rintro rfl
    decide
  · intro hrank
    rw [← ofRank_rank h, hrank]
    rfl

/-- The sign bit is not the lowest, so a significand is even when the rank is. -/
theorem bits_mod_two {x : Binary64} : x.bits.toNat % 2 = x.rank % 2 := by
  simp only [rank, signBit]
  omega

/-- The overflow bound is the midpoint below infinity. -/
theorem overflowBound_le_iff (v : ℚ) :
    overflowBound ≤ v ↔
      (magnitude (infinityRank - 1) + magnitude infinityRank : ℚ) ≤ 2 * (v * 2 ^ 1074) := by
  have hmid : (magnitude (infinityRank - 1) + magnitude infinityRank : ℚ) =
      2 * (overflowBound * 2 ^ 1074) := by
    have hgreatest : (magnitude (infinityRank - 1) + 2 ^ 2045 : ℚ) = 2 ^ 2098 := by
      have := congrArg (Nat.cast (R := ℚ)) magnitude_greatest
      simpa only [Nat.cast_add, Nat.cast_pow, Nat.cast_ofNat] using this
    have hinfinity : (magnitude infinityRank : ℚ) = 2 ^ 2098 := by
      have := congrArg (Nat.cast (R := ℚ)) magnitude_infinityRank
      simpa only [Nat.cast_pow, Nat.cast_ofNat] using this
    have htop : (2 : ℚ) ^ 2098 = 2 ^ 1024 * 2 ^ 1074 := pow_add 2 1024 1074
    have hstep : (2 : ℚ) ^ 2045 = 2 * (2 ^ 970 * 2 ^ 1074) := by
      rw [← pow_add, ← pow_succ']
    rw [htop, hstep] at hgreatest
    rw [htop] at hinfinity
    rw [overflowBound]
    -- the powers become variables, or the arithmetic below would compute them
    generalize (2 : ℚ) ^ 1024 = a at *
    generalize (2 : ℚ) ^ 1074 = b at *
    generalize (2 : ℚ) ^ 970 = c at *
    linarith
  rw [hmid, mul_le_mul_iff_right₀ two_pos, mul_le_mul_iff_left₀ (by positivity)]

/-! ## Distances -/

/-- Of two numbers the greater is as near when `v` is not below their midpoint. With this and the
next lemma distances are compared by where the midpoint is, which is how basins are bounded. -/
theorem abs_sub_le_iff_midpoint_le {a b v : ℚ} (h : a < b) :
    |v - b| ≤ |v - a| ↔ a + b ≤ 2 * v := by
  rw [← sq_le_sq]
  constructor <;> intro hle <;> nlinarith

theorem abs_sub_le_iff_le_midpoint {a b v : ℚ} (h : a < b) :
    |v - a| ≤ |v - b| ↔ 2 * v ≤ a + b := by
  rw [← sq_le_sq]
  constructor <;> intro hle <;> nlinarith

theorem abs_sub_div_two_pow (v m : ℚ) :
    |v - m / 2 ^ 1074| = |v * 2 ^ 1074 - m| / 2 ^ 1074 := by
  have hpos : (0 : ℚ) < 2 ^ 1074 := by positivity
  rw [← abs_of_pos hpos, ← abs_div, abs_of_pos hpos, sub_div, mul_div_cancel_right₀ _ hpos.ne']

theorem abs_sub_div_le_iff (v m n : ℚ) :
    |v - m / 2 ^ 1074| ≤ |v - n / 2 ^ 1074| ↔ |v * 2 ^ 1074 - m| ≤ |v * 2 ^ 1074 - n| := by
  have hpos : (0 : ℚ) < 2 ^ 1074 := by positivity
  rw [abs_sub_div_two_pow, abs_sub_div_two_pow, div_le_div_iff_of_pos_right hpos]

/-! ## Nearest ranks -/

/-- A rank that is read is nearest among all, and one of another number is as near only where the
rank is even. The other may be any rank, further off than a neighbour: its midpoint with this one is
then past the neighbour's. -/
theorem RoundsTo.abs_le_and_even {u : ℚ} {rank : Nat} (h : RoundsTo u rank)
    (hrank : rank < infinityRank) (other : Nat) :
    |u - magnitude rank| ≤ |u - magnitude other| ∧
      (other ≠ rank → |u - magnitude other| ≤ |u - magnitude rank| → rank % 2 = 0) := by
  -- the midpoint below speaks for all ranks below, and the one above for all above
  rcases Nat.lt_trichotomy other rank with hlt | rfl | hgt
  · obtain ⟨below, rfl⟩ : ∃ below, rank = below + 1 := ⟨rank - 1, by omega⟩
    have hmid := h.low below rfl
    have hle : (magnitude other : ℚ) ≤ magnitude below := by
      exact_mod_cast magnitude_strictMono.monotone (by omega)
    have hstep : (magnitude below : ℚ) < magnitude (below + 1) := by
      exact_mod_cast magnitude_lt_succ below
    rw [abs_sub_le_iff_midpoint_le (hle.trans_lt hstep),
      abs_sub_le_iff_le_midpoint (hle.trans_lt hstep)]
    refine ⟨by linarith [hmid.le], ?_⟩
    intro _ htie
    exact hmid.even (by linarith)
  · exact ⟨le_rfl, fun hne => absurd rfl hne⟩
  · have hmid := h.high hrank
    have hle : (magnitude (rank + 1) : ℚ) ≤ magnitude other := by
      exact_mod_cast magnitude_strictMono.monotone (by omega)
    have hstep : (magnitude rank : ℚ) < magnitude (rank + 1) := by
      exact_mod_cast magnitude_lt_succ rank
    rw [abs_sub_le_iff_le_midpoint (hstep.trans_le hle),
      abs_sub_le_iff_midpoint_le (hstep.trans_le hle)]
    refine ⟨by linarith [hmid.le], ?_⟩
    intro _ htie
    exact hmid.even (by linarith)

/-- To a number that is not negative some rank is as near as any binary64 is, and is that
binary64's number unless it is nearer. For a negative one that is zero. -/
theorem exists_rank_as_near {v : ℚ} (hv : 0 ≤ v) (y : Binary64) :
    ∃ other, |v - magnitude other / 2 ^ 1074| ≤ |v - y.toRat| ∧
      (|v - y.toRat| ≤ |v - magnitude other / 2 ^ 1074| →
        y.toRat = magnitude other / 2 ^ 1074) := by
  cases hy : y.isNegative with
  | false =>
    refine ⟨y.rank, ?_⟩
    rw [toRat_of_isNegative_eq_false hy]
    exact ⟨le_rfl, fun _ => rfl⟩
  -- a negative number, or the zero with a sign, which is no nearer than zero without one
  | true =>
    refine ⟨0, ?_⟩
    have hm : (0 : ℚ) ≤ magnitude y.rank / 2 ^ 1074 := by positivity
    rw [toRat_eq, hy, if_pos rfl, magnitude_zero, Nat.cast_zero, zero_div]
    generalize (magnitude y.rank / 2 ^ 1074 : ℚ) = m at *
    rw [sub_zero, sub_neg_eq_add, abs_of_nonneg hv, abs_of_nonneg (add_nonneg hv hm)]
    exact ⟨by linarith, fun hle => by linarith⟩

/-- What is nearest is as near as any finite rank is, and a tie is said of the rank. -/
theorem IsNearest.abs_le_and_even {v : ℚ} {x : Binary64} (h : IsNearest v x)
    (hlt : v < overflowBound) {other : Nat} (hother : other < infinityRank) :
    |v * 2 ^ 1074 - magnitude x.rank| ≤ |v * 2 ^ 1074 - magnitude other| ∧
      (other ≠ x.rank → |v * 2 ^ 1074 - magnitude other| ≤ |v * 2 ^ 1074 - magnitude x.rank| →
        x.rank % 2 = 0) := by
  have hle := h.abs_le hlt _ (isFinite_ofRank hother)
  have heven := h.even hlt _ (isFinite_ofRank hother)
  rw [toRat_of_isNegative_eq_false h.isNegative_eq_false, toRat_ofRank hother.le] at hle heven
  refine ⟨(abs_sub_div_le_iff _ _ _).mp hle, ?_⟩
  intro hne htie
  rw [← bits_mod_two]
  apply heven ?_ (le_antisymm ((abs_sub_div_le_iff _ _ _).mpr htie) hle)
  intro heq
  apply hne
  rw [div_left_inj' (by positivity)] at heq
  exact magnitude_strictMono.injective (by exact_mod_cast heq)

/-- A nearest number is at least as near as its two neighbours are, and that puts `v` between the
two midpoints. Nothing but the neighbours is needed of the definition in this direction. -/
theorem IsNearest.roundsTo {v : ℚ} {x : Binary64} (h : IsNearest v x) :
    RoundsTo (v * 2 ^ 1074) x.rank := by
  rcases lt_or_ge v overflowBound with hlt | hge
  · have hrank := (isFinite_iff x).mp (h.isFinite_of_lt hlt)
    refine ⟨hrank.le, ?_, ?_⟩
    · intro below hbelow
      have hstep : (magnitude below : ℚ) < magnitude x.rank := by
        rw [← hbelow]
        exact_mod_cast magnitude_lt_succ below
      have hother : below < infinityRank := by omega
      obtain ⟨hle, htie⟩ := h.abs_le_and_even hlt hother
      rw [abs_sub_le_iff_midpoint_le hstep] at hle
      rw [abs_sub_le_iff_le_midpoint hstep] at htie
      exact hle.lt_or_eq.imp id fun heq => ⟨heq, htie (by omega) heq.ge⟩
    · intro _
      -- the rank above is finite, or it is infinity and the midpoint is the overflow bound
      rcases Nat.lt_or_eq_of_le (Nat.succ_le_of_lt hrank) with hnext | hlast
      · have hstep : (magnitude x.rank : ℚ) < magnitude (x.rank + 1) := by
          exact_mod_cast magnitude_lt_succ x.rank
        obtain ⟨hle, htie⟩ := h.abs_le_and_even hlt hnext
        rw [abs_sub_le_iff_le_midpoint hstep] at hle
        rw [abs_sub_le_iff_midpoint_le hstep] at htie
        exact hle.lt_or_eq.imp id fun heq => ⟨heq, htie (by omega) heq.ge⟩
      · have hbound := (overflowBound_le_iff v).not.mp hlt.not_ge
        rw [← hlast, Nat.succ_sub_one] at hbound
        exact Or.inl (not_le.mp hbound)
  · have hrank := (eq_infinity_iff_rank h.isNegative_eq_false).mp (h.eq_infinity_iff.mpr hge)
    rw [hrank]
    exact roundsTo_infinityRank ((overflowBound_le_iff v).mp hge)

/-- In the other direction every number of the format has to be compared. Those with a sign are no
nearer than zero is, so all comparisons are between ranks. -/
theorem RoundsTo.isNearest {v : ℚ} (hv : 0 ≤ v) {x : Binary64} (hneg : x.isNegative = false)
    (h : RoundsTo (v * 2 ^ 1074) x.rank) : IsNearest v x := by
  have hinf : x = infinity ↔ overflowBound ≤ v :=
    (eq_infinity_iff_rank hneg).trans
      (h.eq_infinityRank_iff.trans (overflowBound_le_iff v).symm)
  have hfinite : v < overflowBound → x.rank < infinityRank := by
    intro hlt
    apply Nat.lt_of_le_of_ne h.le_infinityRank
    intro hrank
    exact hlt.not_ge (hinf.mp ((eq_infinity_iff_rank hneg).mpr hrank))
  refine ⟨hneg, hinf, fun hlt => (isFinite_iff x).mpr (hfinite hlt), ?_, ?_⟩
  -- `y` is no nearer than some rank, and that rank is no nearer than the one of `x`
  · intro hlt y _
    obtain ⟨other, hle, -⟩ := exists_rank_as_near hv y
    refine le_trans ?_ hle
    rw [toRat_of_isNegative_eq_false hneg]
    exact (abs_sub_div_le_iff _ _ _).mpr (h.abs_le_and_even (hfinite hlt) other).1
  -- in a tie `y` is the number of that rank, so the parity is decided between ranks
  · intro hlt y _ hne heq
    obtain ⟨other, hle, hsame⟩ := exists_rank_as_near hv y
    obtain ⟨hmin, htie⟩ := h.abs_le_and_even (hfinite hlt) other
    rw [toRat_of_isNegative_eq_false hneg] at hne heq
    rw [← abs_sub_div_le_iff] at hmin htie
    rw [bits_mod_two]
    apply htie ?_ (heq ▸ hle)
    intro hother
    apply hne
    rw [hsame (heq ▸ hmin), hother]

/-- **The nearest binary64 is the one in whose basin the number lies.** -/
theorem isNearest_iff {v : ℚ} (hv : 0 ≤ v) (x : Binary64) :
    IsNearest v x ↔ x.isNegative = false ∧ RoundsTo (v * 2 ^ 1074) x.rank :=
  ⟨fun h => ⟨h.isNegative_eq_false, h.roundsTo⟩, fun h => h.2.isNearest hv h.1⟩

/-- There is one nearest binary64, down to its bits: the basins do not overlap, and the sign is
settled. -/
theorem IsNearest.unique {v : ℚ} {x y : Binary64} (hx : IsNearest v x) (hy : IsNearest v y) :
    x = y := by
  rw [← ofRank_rank hx.isNegative_eq_false, ← ofRank_rank hy.isNegative_eq_false,
    hx.roundsTo.unique hy.roundsTo]

/-- What is nearest is a number, if only infinity. -/
theorem IsNearest.isNaN_eq_false {v : ℚ} {x : Binary64} (h : IsNearest v x) :
    x.isNaN = false := by
  simpa [isNaN] using h.roundsTo.le_infinityRank

end Binary64

end ScriptLexer
