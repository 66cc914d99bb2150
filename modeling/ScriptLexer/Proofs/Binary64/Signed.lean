import ScriptLexer.Proofs.Binary64.Nearest

/-!
# Rounding to a number of either sign

`IsNearest` (`Binary64/Nearest.lean`) is about numbers that are read, which have no sign. A number
that is shown may have one, so here rounding is said of a finite binary64 of either sign
(`Rounds`), again over the sixty-four bits and exact rationals. **Flipping the sign of both the
number and the binary64 changes nothing** (`rounds_negate`), and for a number above zero rounding
is lying in the basin of its rank (`rounds_iff`).

It is a second definition beside `IsNearest` and not a generalisation of it. What is read can
overflow and is never negative; what is shown is finite and can be negative. A definition for both
would have had to say of a negative zero what nothing here needs.
-/

set_option autoImplicit false

namespace ScriptLexer

namespace Binary64

/-! ## The other sign -/

/-- The binary64 with its sign bit flipped: the bit is added, and what it carries is lost. -/
def negate (x : Binary64) : Binary64 := ⟨x.bits + 0x8000000000000000⟩

/-- The sum as a natural number, reduced as the sixty-four bits reduce it; `omega` does the rest. -/
theorem toNat_bits_negate (x : Binary64) :
    x.negate.bits.toNat = (x.bits.toNat + signBit) % 2 ^ 64 := by
  rw [negate, UInt64.toNat_add]
  rfl

@[simp] theorem rank_negate (x : Binary64) : x.negate.rank = x.rank := by
  rw [rank, rank, toNat_bits_negate, signBit]
  omega

@[simp] theorem isNegative_negate (x : Binary64) : x.negate.isNegative = !x.isNegative := by
  have hlt := x.bits.toNat_lt
  rw [isNegative, isNegative, toNat_bits_negate, ← decide_not, decide_eq_decide, signBit]
  omega

@[simp] theorem negate_negate (x : Binary64) : x.negate.negate = x := by
  have hlt := x.bits.toNat_lt
  have hbits : x.negate.negate.bits = x.bits := by
    rw [← UInt64.toNat_inj, toNat_bits_negate, toNat_bits_negate, signBit]
    omega
  exact congrArg Binary64.mk hbits

@[simp] theorem isFinite_negate (x : Binary64) : x.negate.isFinite = x.isFinite := by
  rw [isFinite, isFinite, rank_negate]

@[simp] theorem toRat_negate (x : Binary64) : x.negate.toRat = -x.toRat := by
  rw [toRat_eq, toRat_eq, rank_negate, isNegative_negate]
  cases x.isNegative <;> simp

theorem toRat_eq_zero_iff (x : Binary64) : x.toRat = 0 ↔ x.rank = 0 := by
  have hzero : (magnitude x.rank / 2 ^ 1074 : ℚ) = 0 ↔ x.rank = 0 := by
    rw [div_eq_zero_iff, or_iff_left (by positivity), Nat.cast_eq_zero]
    constructor
    · intro h
      exact by_contra fun hne => (magnitude_pos hne).ne' h
    · intro h
      rw [h, magnitude_zero]
  rw [toRat_eq]
  split
  · rw [neg_eq_zero, hzero]
  · exact hzero

/-! ## Rounding -/

/-- Rounding `v` to the nearest binary64, a half going to the even significand, comes to the finite
number `x`. That `v` does not overflow is asked for as well: past the bound the greatest finite
number is the nearest finite one, but rounding does not come to it. -/
structure Rounds (v : ℚ) (x : Binary64) : Prop where
  isFinite : x.isFinite = true
  abs_lt : |v| < overflowBound
  abs_le : ∀ y : Binary64, y.isFinite = true → |v - x.toRat| ≤ |v - y.toRat|
  even : ∀ y : Binary64, y.isFinite = true → y.toRat ≠ x.toRat →
    |v - y.toRat| = |v - x.toRat| → x.bits.toNat % 2 = 0

theorem abs_neg_sub_toRat (v : ℚ) (x : Binary64) : |-v - x.toRat| = |v - x.negate.toRat| := by
  rw [toRat_negate, ← abs_neg]
  ring_nf

/-- Every number `y` that is compared with is compared as `y.negate` on the other side, and the
finite numbers are closed under that. -/
theorem Rounds.negate {v : ℚ} {x : Binary64} (h : Rounds v x) : Rounds (-v) x.negate := by
  refine ⟨x.isFinite_negate.trans h.isFinite, (abs_neg v).trans_lt h.abs_lt, ?_, ?_⟩
  · intro y hy
    rw [abs_neg_sub_toRat, abs_neg_sub_toRat, negate_negate]
    exact h.abs_le _ (y.isFinite_negate.trans hy)
  · intro y hy hne heq
    rw [abs_neg_sub_toRat, abs_neg_sub_toRat, negate_negate] at heq
    rw [bits_mod_two, rank_negate, ← bits_mod_two]
    refine h.even _ (y.isFinite_negate.trans hy) ?_ heq
    rw [toRat_negate] at hne ⊢
    exact fun hsame => hne (by linarith)

/-- One direction is enough, since flipping twice changes nothing. -/
theorem rounds_negate {v : ℚ} {x : Binary64} : Rounds (-v) x.negate ↔ Rounds v x := by
  constructor
  · intro h
    simpa [negate_negate] using h.negate
  · exact Rounds.negate

/-- Only what is not below zero rounds to a number above zero, since zero is nearer to the rest. -/
theorem Rounds.nonneg {v : ℚ} {x : Binary64} (h : Rounds v x) (hpos : 0 < x.toRat) : 0 ≤ v := by
  by_contra hneg
  have hle := h.abs_le (ofRank 0) (isFinite_ofRank infinityRank_pos)
  rw [toRat_ofRank infinityRank_pos.le, magnitude_zero, Nat.cast_zero, zero_div, sub_zero,
    abs_of_neg (by linarith), abs_of_neg (by linarith)] at hle
  linarith

theorem isNegative_eq_false_of_toRat_pos {x : Binary64} (h : 0 < x.toRat) :
    x.isNegative = false := by
  rw [Bool.eq_false_iff]
  intro hneg
  have hm : (0 : ℚ) ≤ magnitude x.rank / 2 ^ 1074 := by positivity
  rw [toRat_eq, if_pos hneg] at h
  exact h.not_ge (neg_nonpos.mpr hm)

/-- **Rounding to a finite number above zero is lying in the basin of its rank.** -/
theorem rounds_iff {v : ℚ} {x : Binary64} (hfinite : x.isFinite = true) (hpos : 0 < x.toRat) :
    Rounds v x ↔ 0 ≤ v ∧ RoundsTo (v * 2 ^ 1074) x.rank := by
  have hneg := isNegative_eq_false_of_toRat_pos hpos
  have hne : x ≠ infinity := by
    intro hinf
    have hrank := (eq_infinity_iff_rank hneg).mp hinf
    exact ((isFinite_iff x).mp hfinite).ne hrank
  constructor
  · intro h
    have hv := h.nonneg hpos
    have hlt : v < overflowBound := abs_of_nonneg hv ▸ h.abs_lt
    -- `IsNearest` also says when the answer is infinity, which `x` is not
    have hnearest : IsNearest v x :=
      ⟨hneg, iff_of_false hne hlt.not_ge, fun _ => hfinite, fun _ => h.abs_le, fun _ => h.even⟩
    exact ⟨hv, hnearest.roundsTo⟩
  · rintro ⟨hv, h⟩
    have hnearest := h.isNearest hv hneg
    have hlt : v < overflowBound := not_le.mp fun hge => hne (hnearest.eq_infinity_iff.mpr hge)
    exact ⟨hfinite, (abs_of_nonneg hv).trans_lt hlt, hnearest.abs_le hlt, hnearest.even hlt⟩

end Binary64

end ScriptLexer
