import ScriptLexer.Proofs.Binary64.ReadBack

/-!
# The shortest decimal is the coarsest, and the nearest of those

`ReadBack` shows that the search of `shortest` (`Binary64/Shortest.lean`) ends within the basin of
its rank. Here it is shown what the search passes by: **no decimal on a coarser grid is read as the
rank, and none on the same grid is read as it and nearer to its number** (`isCoarsest_shortest`).

That is said of grids. Fewer digits follow from it, since a decimal with fewer digits is either on
a coarser grid or below a power of ten that is itself in the basin
(`IsCoarsest.not_roundsTo_of_fewer`). As many digits are the harder half: with the same number of
digits a decimal may still be on a finer grid, just below a power of ten. It is then one digit, and
a basin is too narrow for the finer point to be the nearer one
(`IsCoarsest.abs_le_of_as_many`).
-/

set_option autoImplicit false

namespace ScriptLexer

/-- How many units of `2 ^ -1074` a decimal is. Being read as a rank is said in units, and so is
everything about decimals here. -/
def Decimal.units (d : Decimal) : ℚ := d.toRat * 2 ^ 1074

/-- The powers of ten. They are where numbers of digits change, so a decimal with few digits is
compared with one of them. -/
def Decimal.tenPow (exponent : Int) : Decimal := ⟨1, exponent⟩

namespace Decimal

theorem units_eq (d : Decimal) : d.units = d.coefficient * (tenPow d.exponent).units := by
  rw [units, units, toRat, toRat, tenPow, Nat.cast_one, one_mul, mul_assoc]

theorem units_tenPow_pos (exponent : Int) : 0 < (tenPow exponent).units := by
  rw [units, toRat, tenPow]
  positivity

theorem units_tenPow_add (k : Nat) (exponent : Int) :
    (tenPow (k + exponent)).units = 10 ^ k * (tenPow exponent).units := by
  rw [units, units, toRat, toRat, tenPow, tenPow, zpow_add₀ (by norm_num), zpow_natCast,
    Nat.cast_one, one_mul, one_mul, mul_assoc]

theorem units_tenPow_le {m n : Int} (h : m ≤ n) : (tenPow m).units ≤ (tenPow n).units := by
  obtain ⟨k, hk⟩ := Int.eq_ofNat_of_zero_le (sub_nonneg.mpr h)
  obtain rfl : n = k + m := by omega
  rw [units_tenPow_add]
  exact le_mul_of_one_le_left (units_tenPow_pos m).le (one_le_pow₀ (by norm_num))

theorem units_tenPow_le_units {d : Decimal} {k : Nat} (h : 10 ^ k ≤ d.coefficient) :
    (tenPow (k + d.exponent)).units ≤ d.units := by
  rw [units_tenPow_add, units_eq d]
  exact mul_le_mul_of_nonneg_right (by exact_mod_cast h) (units_tenPow_pos _).le

theorem units_lt_units_tenPow {d : Decimal} {k : Nat} (h : d.coefficient < 10 ^ k) :
    d.units < (tenPow (k + d.exponent)).units := by
  rw [units_tenPow_add, units_eq d]
  exact mul_lt_mul_of_pos_right (by exact_mod_cast h) (units_tenPow_pos _)

end Decimal

namespace Binary64

open Decimal (tenPow units_tenPow_pos units_tenPow_le units_tenPow_add)

/-- From zero only zero is read, whatever the exponent. So what is read as another rank has a digit
that is not zero, and is at least one of its last place. -/
theorem RoundsTo.coefficient_ne_zero {d : Decimal} {rank : Nat} (h : RoundsTo d.units rank)
    (hne : rank ≠ 0) : d.coefficient ≠ 0 := by
  intro hzero
  rw [Decimal.units_eq, hzero, Nat.cast_zero, zero_mul] at h
  exact hne (h.unique (roundsTo_zero (by norm_num)))

/-! ## One grid

The search looks at two points of a grid, and that is enough: the basin is an interval around its
center, so a point further out is in it only if the nearer one on its side is.
-/

namespace Basin

variable {b : Basin} {step : Nat}

theorem contains_of_le_of_le {l m n : Nat} (hl : b.contains l = true)
    (hn : b.contains n = true) (hlm : l ≤ m) (hmn : m ≤ n) : b.contains m = true := by
  unfold contains at *
  split at hl <;>
    simp_all only [Bool.and_eq_true, decide_eq_true_eq, if_true, if_false, Bool.false_eq_true] <;>
    omega

/-- The points of a grid that enclose the center. The lower one may be the center itself. -/
theorem enclosing (b : Basin) (hstep : 0 < step) :
    b.center / step * step ≤ b.center ∧ b.center < (b.center / step + 1) * step := by
  rw [Nat.mul_comm (b.center / step + 1)]
  exact ⟨Nat.div_mul_le_self _ _, Nat.lt_mul_div_succ _ hstep⟩

/-- A point of a grid that reads back is not between the two that enclose the center, and the one
of these on its side reads back too. -/
theorem enclosing_of_contains (hcenter : b.contains b.center = true) (hstep : 0 < step) {c : Nat}
    (hc : b.contains (c * step) = true) :
    (c * step ≤ b.center / step * step ∧ b.contains (b.center / step * step) = true) ∨
      ((b.center / step + 1) * step ≤ c * step ∧
        b.contains ((b.center / step + 1) * step) = true) := by
  obtain ⟨hdown, hup⟩ := b.enclosing hstep
  rcases Nat.lt_or_ge (b.center / step) c with hlt | hge
  · have hle := Nat.mul_le_mul_right step (Nat.succ_le_of_lt hlt)
    exact .inr ⟨hle, contains_of_le_of_le hcenter hc hup.le hle⟩
  · have hle := Nat.mul_le_mul_right step hge
    exact .inl ⟨hle, contains_of_le_of_le hc hcenter hle hdown⟩

/-- Where any point of a grid reads back, one is settled for, and no other that reads back is
nearer to the center. The four cases are the answers that `onGrid?` gets for its two points. -/
theorem exists_onGrid (hcenter : b.contains b.center = true) (hstep : 0 < step) {c : Nat}
    (hc : b.contains (c * step) = true) :
    ∃ d, b.onGrid? step = some d ∧
      (((d * step : Nat) : Int) - b.center).natAbs ≤
        (((c * step : Nat) : Int) - b.center).natAbs := by
  obtain ⟨hdown, hup⟩ := b.enclosing hstep
  have hside := enclosing_of_contains hcenter hstep hc
  unfold onGrid?
  dsimp only
  generalize c * step = point at *
  split
  · -- both read back, and the nearer of them is taken
    refine ⟨_, rfl, ?_⟩
    split <;> omega
  · -- the point above does not read back, so the given one is on the other side
    rename_i _ hnot
    have hle := (hside.resolve_right fun h => by simp [h.2] at hnot).1
    refine ⟨_, rfl, ?_⟩
    omega
  · rename_i hnot _
    have hle := (hside.resolve_left fun h => by simp [h.2] at hnot).1
    refine ⟨_, rfl, ?_⟩
    omega
  · rename_i hdownNot hupNot
    rcases hside with h | h
    · simp [h.2] at hdownNot
    · simp [h.2] at hupNot

end Basin

/-! ## The grids of decimals -/

theorem cast_unitScale_pos : (0 : ℚ) < unitScale := by
  exact_mod_cast unitScale_pos

theorem center_div_unitScale (rank : Nat) :
    ((Basin.ofRank rank).center / unitScale : ℚ) = magnitude rank := by
  rw [Basin.ofRank, Nat.cast_mul, mul_div_cancel_right₀ _ cast_unitScale_pos.ne']

/-- The decimals of the grids that are searched. The finest of them has steps of `10 ^ -1074`, and
all numbers of the format are on it; decimals on a finer one exist and are not searched. -/
def onGrid (coefficient t : Nat) : Decimal := ⟨coefficient, Int.ofNat t - 1074⟩

theorem units_onGrid (c t : Nat) : (onGrid c t).units = (c * 10 ^ t : Nat) / unitScale :=
  toRat_mul_two_pow c t

theorem roundsTo_onGrid_iff {rank : Nat} (hrank : rank < infinityRank) (c t : Nat) :
    RoundsTo (onGrid c t).units rank ↔ (Basin.ofRank rank).contains (c * 10 ^ t) = true := by
  rw [units_onGrid, contains_ofRank_iff hrank]

theorem abs_units_onGrid_sub (c t rank : Nat) :
    |(onGrid c t).units - magnitude rank| =
      (((c * 10 ^ t : Nat) : Int) - (Basin.ofRank rank).center).natAbs / unitScale := by
  rw [units_onGrid, ← center_div_unitScale, ← sub_div, abs_div, abs_of_pos cast_unitScale_pos,
    Nat.cast_natAbs, Int.cast_abs, Int.cast_sub, Int.cast_natCast, Int.cast_natCast]

theorem eq_onGrid {e : Decimal} {t : Nat} (h : e.exponent = Int.ofNat t - 1074) :
    e = onGrid e.coefficient t := by
  rw [onGrid, ← h]

/-- A number reads back as itself, so its basin is not empty and the center is in it. -/
theorem contains_center {rank : Nat} (hrank : rank < infinityRank) :
    (Basin.ofRank rank).contains (Basin.ofRank rank).center = true := by
  rw [contains_ofRank_iff hrank, center_div_unitScale]
  exact roundsTo_magnitude hrank.le

/-! ## The coarsest grid -/

/-- The decimal is read as the rank, no decimal on a coarser grid is, and none on the same grid is
that is nearer to the number of the rank. The grid of a decimal is known by its exponent, and the
comparison is with all decimals, not only those on the grids that are searched. -/
structure IsCoarsest (rank : Nat) (d : Decimal) : Prop where
  roundsTo : RoundsTo d.units rank
  coarsest : ∀ e : Decimal, RoundsTo e.units rank → e.exponent ≤ d.exponent
  nearest : ∀ e : Decimal, RoundsTo e.units rank → e.exponent = d.exponent →
    |d.units - magnitude rank| ≤ |e.units - magnitude rank|

/-- Where no coarser grid has a point in the basin, the search among the rest finds the coarsest.
The hypothesis is the invariant of the search: each grid that is passed by without an answer becomes
one of those that have no point in the basin. -/
theorem isCoarsest_shortestFrom {rank : Nat} (hrank : rank < infinityRank) (t : Nat)
    (hcoarser : ∀ e : Decimal, RoundsTo e.units rank → e.exponent ≤ Int.ofNat t - 1074) :
    IsCoarsest rank ((Basin.ofRank rank).shortestFrom t) := by
  induction t with
  | zero =>
    -- at step one the number itself is on the grid
    have hcontains := contains_center hrank
    refine ⟨?_, hcoarser, fun e _ _ => ?_⟩
    · rw [← Nat.mul_one (Basin.ofRank rank).center, ← pow_zero 10] at hcontains
      exact (roundsTo_onGrid_iff hrank _ 0).mpr hcontains
    · have hzero := abs_units_onGrid_sub (Basin.ofRank rank).center 0 rank
      rw [pow_zero, Nat.mul_one, sub_self, Int.natAbs_zero, Nat.cast_zero, zero_div] at hzero
      exact hzero.trans_le (abs_nonneg _)
  | succ t ih =>
    rw [Basin.shortestFrom, Nat.pow_eq]
    have hsettled {e : Decimal} (he : RoundsTo e.units rank)
        (hexponent : e.exponent = Int.ofNat (t + 1) - 1074) :=
      Basin.exists_onGrid (contains_center hrank) (Nat.pow_pos (by decide))
        ((roundsTo_onGrid_iff hrank _ _).mp (eq_onGrid hexponent ▸ he))
    cases hgrid : (Basin.ofRank rank).onGrid? (10 ^ (t + 1)) with
    | some c =>
      refine ⟨(roundsTo_onGrid_iff hrank c _).mpr (Basin.contains_of_onGrid? hgrid), hcoarser, ?_⟩
      intro e he hexponent
      obtain ⟨d, hd, hle⟩ := hsettled he hexponent
      obtain rfl : d = c := Option.some.inj (hd.symm.trans hgrid)
      rw [eq_onGrid hexponent]
      change |(onGrid d (t + 1)).units - _| ≤ _
      rw [abs_units_onGrid_sub, abs_units_onGrid_sub,
        div_le_div_iff_of_pos_right cast_unitScale_pos]
      exact_mod_cast hle
    | none =>
      -- nothing on this grid is in the basin, so what is read is on a finer one
      refine ih fun e he => ?_
      have hle := hcoarser e he
      have hne : e.exponent ≠ Int.ofNat (t + 1) - 1074 := by
        intro hexponent
        obtain ⟨d, hd, -⟩ := hsettled he hexponent
        rw [hgrid] at hd
        contradiction
      simp only [Int.ofNat_eq_natCast] at *
      omega

/-! ## Where the search starts

The search has to start from a grid that is coarse enough, or it might pass by an answer before its
first step. `longestStep` comes from a bound on the number, with 28 over 93 for the decimal
logarithm of two, which is a little less.
-/

/-- The ninety-third power of both sides leaves the one comparison that has to be computed. -/
theorem two_pow_le_ten_pow (n : Nat) : 2 ^ n ≤ 10 ^ (28 * n / 93 + 1) := by
  have hbase : 2 ^ 93 ≤ 10 ^ 28 := by norm_num
  rw [← Nat.pow_le_pow_iff_left (show 93 ≠ 0 by decide)]
  calc (2 ^ n) ^ 93 = (2 ^ 93) ^ n := Nat.pow_right_comm 2 n 93
    _ ≤ (10 ^ 28) ^ n := Nat.pow_le_pow_left hbase n
    _ = 10 ^ (28 * n) := (pow_mul 10 28 n).symm
    _ ≤ 10 ^ ((28 * n / 93 + 1) * 93) := Nat.pow_le_pow_right (by decide) (by omega)
    _ = (10 ^ (28 * n / 93 + 1)) ^ 93 := pow_mul _ _ _

/-- No finite number reaches the step that the search starts from. -/
theorem lt_ten_pow_longestStep (rank : Nat) :
    2 * magnitude rank * unitScale < 10 ^ longestStep rank := by
  have hscale : unitScale < 10 ^ 751 := by
    rw [unitScale_eq]
    decide +kernel
  rw [longestStep, pow_add]
  refine Nat.mul_lt_mul_of_lt_of_le ?_ hscale.le (by positivity)
  calc 2 * magnitude rank < 2 * 2 ^ ((magnitude rank).log2 + 1) :=
        Nat.mul_lt_mul_of_pos_left Nat.lt_log2_self two_pos
    _ = 2 ^ ((magnitude rank).log2 + 2) := (pow_succ' _ _).symm
    _ ≤ 10 ^ (28 * ((magnitude rank).log2 + 2) / 93 + 1) := two_pow_le_ten_pow _

/-- No decimal on a grid coarser than that one is read as the rank: it would be at least a step. -/
theorem exponent_le_of_roundsTo {rank : Nat} (hrank : rank < infinityRank) (hne : rank ≠ 0)
    {e : Decimal} (he : RoundsTo e.units rank) :
    e.exponent ≤ Int.ofNat (longestStep rank) - 1074 := by
  by_contra hnot
  have hcoefficient : 10 ^ 0 ≤ e.coefficient :=
    Nat.one_le_iff_ne_zero.mpr (he.coefficient_ne_zero hne)
  -- with an exponent as large as that, one unit of the last place is already past the number
  have hstep : (onGrid 1 (longestStep rank)).units ≤ e.units :=
    (units_tenPow_le (by omega)).trans (Decimal.units_tenPow_le_units hcoefficient)
  rw [units_onGrid, Nat.one_mul, div_le_iff₀ cast_unitScale_pos] at hstep
  -- for what is read as the rank is below the midpoint, and the next number at most twice this one
  have hhigh := (he.high hrank).le
  have hsucc : (magnitude (rank + 1) : ℚ) ≤ 2 * magnitude rank := by
    have hmul := mul_magnitude_succ_le hiddenBit_pos (Nat.one_le_iff_ne_zero.mpr hne)
    exact_mod_cast (Nat.one_mul _).symm.trans_le hmul
  have hlongest : (2 * magnitude rank * unitScale : ℚ) < (10 ^ longestStep rank : Nat) := by
    exact_mod_cast lt_ten_pow_longestStep rank
  have hunits : e.units ≤ 2 * magnitude rank := by
    have : (0 : ℚ) ≤ magnitude rank := Nat.cast_nonneg _
    linarith
  have := mul_le_mul_of_nonneg_right hunits cast_unitScale_pos.le
  linarith

/-- **What the search for a rank comes to is on the coarsest grid, and nearest on it.** -/
theorem isCoarsest_shortest {rank : Nat} (hrank : rank < infinityRank) (hne : rank ≠ 0) :
    IsCoarsest rank (shortest rank) := by
  rw [shortest, if_neg hne]
  exact isCoarsest_shortestFrom hrank _ fun _ he => exponent_le_of_roundsTo hrank hne he

/-! ## Powers of ten in a basin -/

/-- The least power of ten that is no less than a unit is a little more than two of them. The bounds
are the only place where powers of this size are computed. -/
theorem units_tenPow_bounds :
    2 < (tenPow (-323)).units ∧ 10 * (tenPow (-323)).units < 21 := by
  have hlow : 2 * 10 ^ 323 < 2 ^ 1074 := by decide +kernel
  have hhigh : 10 * 2 ^ 1074 < 21 * 10 ^ 323 := by decide +kernel
  have hvalue : (tenPow (-323)).units = (2 ^ 1074 : Nat) / (10 ^ 323 : Nat) := by
    rw [Decimal.units, Decimal.toRat, tenPow, zpow_neg, Nat.cast_one, one_mul, mul_comm,
      ← div_eq_mul_inv, Nat.cast_pow, Nat.cast_pow]
    rfl
  have hpos : (0 : ℚ) < (10 ^ 323 : Nat) := by exact_mod_cast Nat.pow_pos (by decide)
  rw [hvalue, lt_div_iff₀ hpos, ← mul_div_assoc, div_lt_iff₀ hpos]
  exact ⟨by exact_mod_cast hlow, by exact_mod_cast hhigh⟩

/-- That power of ten is the only one that is read as one of the first ranks, and it is not read
as the first. -/
theorem RoundsTo.tenPow_of_small {below : Nat} (hsmall : below ≤ 8) {exponent : Int}
    (h : RoundsTo (tenPow exponent).units (below + 1)) : exponent = -323 ∧ 1 ≤ below := by
  have hsubnormal : 10 ≤ hiddenBit := by decide
  have hlow := (h.low below rfl).le
  have hhigh := (h.high (lt_of_le_of_lt (Nat.succ_le_succ hsmall) (by decide))).le
  rw [magnitude_of_le_hiddenBit (by omega), magnitude_of_le_hiddenBit (by omega)] at hlow hhigh
  have hzero : (0 : ℚ) ≤ below := Nat.cast_nonneg _
  have hbelow : (below : ℚ) ≤ 8 := by exact_mod_cast hsmall
  obtain ⟨hbounds₁, hbounds₂⟩ := units_tenPow_bounds
  push_cast at hlow hhigh
  -- `1e-323` is about two units; `1e-324` is under the lowest midpoint, `1e-322` past the highest
  rcases Int.lt_trichotomy exponent (-323) with hless | rfl | hmore
  · have hten := units_tenPow_add 1 (-324)
    have hle := units_tenPow_le (show exponent ≤ -324 by omega)
    norm_num at hten
    linarith
  · refine ⟨rfl, Nat.one_le_iff_ne_zero.mpr ?_⟩
    rintro rfl
    norm_num at hhigh
    linarith
  · have hten := units_tenPow_add 1 (-323)
    have hle := units_tenPow_le (show -322 ≤ exponent by omega)
    norm_num at hten
    linarith

/-- **A basin is narrow where a power of ten is concerned**: one that is read as a rank is hardly
above the number of the rank. Behind the first few ranks a step up is at most a tenth, and among
them there is only the power of ten that is about two units. -/
theorem RoundsTo.tenPow_le {rank : Nat} (hrank : rank < infinityRank) (hne : rank ≠ 0)
    {exponent : Int} (h : RoundsTo (tenPow exponent).units rank) :
    19 * (tenPow exponent).units ≤ 20 * magnitude rank := by
  rcases Nat.lt_or_ge rank 10 with hlt | hge
  · obtain ⟨below, rfl⟩ := Nat.exists_eq_add_one_of_ne_zero hne
    have hsubnormal : 10 ≤ hiddenBit := by decide
    obtain ⟨rfl, hone⟩ := h.tenPow_of_small (by omega)
    have htwo : (2 : ℚ) ≤ (below + 1 : Nat) := by exact_mod_cast Nat.succ_le_succ hone
    rw [magnitude_of_le_hiddenBit (by omega)]
    linarith [units_tenPow_bounds.2]
  · have hhigh := (h.high hrank).le
    have hstep := mul_magnitude_succ_le (by decide : 10 ≤ hiddenBit) hge
    have : (10 * magnitude (rank + 1) : ℚ) ≤ (10 + 1) * magnitude rank := by exact_mod_cast hstep
    linarith

/-! ## Digits -/

namespace IsCoarsest

variable {rank : Nat} {d e : Decimal}

/-- The coarsest decimal ends in no zero: without it the number would be on a coarser grid. So the
digits that are written are all significant but for the zeros that place them. -/
theorem coefficient_mod_ten_ne_zero (h : IsCoarsest rank d) : d.coefficient % 10 ≠ 0 := by
  intro hzero
  obtain ⟨c, hc⟩ := Nat.dvd_of_mod_eq_zero hzero
  have hsame : Decimal.units ⟨c, d.exponent + 1⟩ = d.units := by
    have hten := units_tenPow_add 1 d.exponent
    rw [Nat.cast_one, pow_one, add_comm] at hten
    rw [Decimal.units_eq, Decimal.units_eq d, hc, hten, Nat.cast_mul, Nat.cast_ofNat]
    ring
  have hle := h.coarsest ⟨c, d.exponent + 1⟩ (hsame ▸ h.roundsTo)
  simp only at hle
  omega

/-- A power of ten between a decimal that is read as the rank and the coarsest one is read as the
rank as well, so it is on no coarser grid and has no zeros there. -/
theorem tenPow_between (h : IsCoarsest rank d) (he : RoundsTo e.units rank) {k : Nat}
    (hlow : e.units ≤ (tenPow (k + d.exponent)).units) (hk : 10 ^ k ≤ d.coefficient) :
    k = 0 ∧ RoundsTo (tenPow d.exponent).units rank := by
  have hpow := he.of_le_of_le h.roundsTo hlow (Decimal.units_tenPow_le_units hk)
  have hle := h.coarsest _ hpow
  simp only [tenPow] at hle
  obtain rfl : k = 0 := by omega
  exact ⟨rfl, by simpa using hpow⟩

/-- **Nothing with fewer digits is read as the rank.** A decimal with fewer digits is below a power
of ten that the coarsest one reaches, and then that power is read as the rank and is coarser still.
-/
theorem not_roundsTo_of_fewer (h : IsCoarsest rank d) (hne : rank ≠ 0) {k : Nat}
    (hk : 10 ^ k ≤ d.coefficient) (he : e.coefficient < 10 ^ k) : ¬ RoundsTo e.units rank := by
  intro hread
  have hexponent := h.coarsest e hread
  have hlt : e.units < (tenPow (k + e.exponent)).units := Decimal.units_lt_units_tenPow he
  have hle : (tenPow (k + e.exponent)).units ≤ (tenPow (k + d.exponent)).units :=
    units_tenPow_le (by omega)
  obtain ⟨hzero, -⟩ := h.tenPow_between hread (hlt.le.trans hle) hk
  rw [hzero, pow_zero, Nat.lt_one_iff] at he
  exact hread.coefficient_ne_zero hne he

/-- **Nothing with as many digits is read as the rank and nearer to its number.** On a finer grid
it is below a power of ten that is in the basin, so it is one digit there, at most nine. -/
theorem abs_le_of_as_many (h : IsCoarsest rank d) (hrank : rank < infinityRank) (hne : rank ≠ 0)
    {k : Nat} (hk : 10 ^ k ≤ d.coefficient) (he : e.coefficient < 10 ^ (k + 1))
    (hread : RoundsTo e.units rank) :
    |d.units - magnitude rank| ≤ |e.units - magnitude rank| := by
  rcases (h.coarsest e hread).lt_or_eq with hfiner | hsame
  · have hlt : e.units < (tenPow ((k + 1 : Nat) + e.exponent)).units :=
      Decimal.units_lt_units_tenPow he
    have hle : (tenPow ((k + 1 : Nat) + e.exponent)).units ≤ (tenPow (k + d.exponent)).units :=
      units_tenPow_le (by omega)
    obtain ⟨rfl, hpow⟩ := h.tenPow_between hread (hlt.le.trans hle) hk
    -- a digit on the finer grid is at most nine steps, and the power of ten is ten of them
    have hnine : e.units ≤ 9 * (tenPow (d.exponent - 1)).units := by
      rw [Decimal.units_eq]
      refine mul_le_mul ?_ (units_tenPow_le (by omega)) (units_tenPow_pos _).le (by norm_num)
      exact_mod_cast (by omega : e.coefficient ≤ 9)
    have hten : (tenPow d.exponent).units = 10 * (tenPow (d.exponent - 1)).units := by
      have hadd := units_tenPow_add 1 (d.exponent - 1)
      rwa [Nat.cast_one, add_sub_cancel, pow_one] at hadd
    have hnarrow := hpow.tenPow_le hrank hne
    have hpos := units_tenPow_pos (d.exponent - 1)
    calc |d.units - magnitude rank| ≤ |(tenPow d.exponent).units - magnitude rank| :=
          h.nearest _ hpow rfl
      _ ≤ |e.units - magnitude rank| := by
          rw [abs_sub_comm, abs_sub_comm e.units, abs_sub_le_iff_midpoint_le (by linarith)]
          linarith
  · exact h.nearest e hread hsame

end IsCoarsest

end Binary64

end ScriptLexer
