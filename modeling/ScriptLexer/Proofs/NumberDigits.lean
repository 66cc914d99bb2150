import ScriptLexer.Proofs.Binary64.Coarsest
import ScriptLexer.Proofs.Binary64.Signed
import ScriptLexer.Proofs.Numeral.Significant
import ScriptLexer.Proofs.NumberText

/-!
# No shorter text for a number

A number is shown with the shortest decimal that reads back (`Binary64/Shortest.lean`), behind a
minus sign if it has one. **Counted over the text itself, no decimal with fewer significant digits
rounds to the number, and none with as many rounds to it and is nearer**
(`exists_isShortest_render`). What a decimal rounds to is said of exact rationals over all finite
numbers (`Binary64.Rounds`), so nothing here depends on how the digits were searched for.

The search knows grids and ranks; here they become digits and numbers, in three steps. A coarsest
decimal for a rank is a shortest one for its number, with the sign as another case of the same; the
digits of its coefficient are the significant digits of the text; and the text spells it.
-/

set_option autoImplicit false

namespace ScriptLexer

/-- The number that a shown text stands for: a numeral, perhaps behind a minus sign. The sign
belongs to no numeral, so what is shown of a negative number scans as an operator and a number. -/
inductive Numeral.Shows : List Char → ℚ → Prop
  | unsigned {text : List Char} {v : ℚ} (h : Denotes text v) : Shows text v
  | negative {text : List Char} {v : ℚ} (h : Denotes text v) : Shows ('-' :: text) (-v)

/-- A decimal number, of either sign, with no more than `k` significant digits. It is said of the
number and asks for one way to write it: zeros behind the coefficient go into the exponent. -/
def HasDigits (k : Nat) (v : ℚ) : Prop :=
  ∃ d : Decimal, d.coefficient < 10 ^ k ∧ |v| = d.toRat

theorem HasDigits.neg {k : Nat} {v : ℚ} (h : HasDigits k v) : HasDigits k (-v) := by
  rwa [HasDigits, abs_neg]

namespace Binary64

/-- `v` is a decimal of `k` digits that rounds to the number, with fewer digits there is none, and
with as many there is none that is nearer. -/
structure IsShortest (x : Binary64) (k : Nat) (v : ℚ) : Prop where
  hasDigits : HasDigits k v
  rounds : Rounds v x
  fewest : ∀ j < k, ∀ w, HasDigits j w → ¬ Rounds w x
  nearest : ∀ w, HasDigits k w → Rounds w x → |v - x.toRat| ≤ |w - x.toRat|

/-- Everything in the definition is as true of the other sign: the digits, what rounds and what is
nearer. -/
theorem IsShortest.negate {x : Binary64} {k : Nat} {v : ℚ} (h : IsShortest x k v) :
    IsShortest x.negate k (-v) := by
  have hback {w : ℚ} (hw : Rounds w x.negate) : Rounds (-w) x := by
    rw [← neg_neg w] at hw
    exact rounds_negate.mp hw
  refine ⟨h.hasDigits.neg, h.rounds.negate, ?_, ?_⟩
  · intro j hj w hdigits hw
    exact h.fewest j hj (-w) hdigits.neg (hback hw)
  · intro w hdigits hw
    have hle := h.nearest (-w) hdigits.neg (hback hw)
    rw [abs_neg_sub_toRat w] at hle
    rwa [abs_neg_sub_toRat, negate_negate]

/-! ## Numbers above zero -/

/-- A decimal that rounds to a number above zero has no sign and is read as its rank. -/
theorem Rounds.exists_roundsTo {x : Binary64} {w : ℚ} (hw : Rounds w x) (hpos : 0 < x.toRat)
    {k : Nat} (hdigits : HasDigits k w) :
    ∃ e : Decimal, e.coefficient < 10 ^ k ∧ w = e.toRat ∧ RoundsTo e.units x.rank := by
  obtain ⟨e, hlt, habs⟩ := hdigits
  obtain ⟨hnonneg, hread⟩ := (rounds_iff hw.isFinite hpos).mp hw
  obtain rfl : w = e.toRat := abs_of_nonneg hnonneg ▸ habs
  exact ⟨e, hlt, rfl, hread⟩

/-- The coarsest decimal for the rank of a number above zero is shortest for the number. -/
theorem IsCoarsest.isShortest {x : Binary64} (hfinite : x.isFinite = true) (hpos : 0 < x.toRat)
    {d : Decimal} (h : IsCoarsest x.rank d) {k : Nat} (hlow : 10 ^ k ≤ d.coefficient)
    (hhigh : d.coefficient < 10 ^ (k + 1)) : IsShortest x (k + 1) d.toRat := by
  have hrank := (isFinite_iff x).mp hfinite
  have hne : x.rank ≠ 0 := (toRat_eq_zero_iff x).not.mp hpos.ne'
  refine ⟨⟨d, hhigh, abs_of_nonneg d.toRat_nonneg⟩, ?_, ?_, ?_⟩
  -- it rounds to the number, nothing with fewer digits does, and nothing with as many is nearer
  · exact (rounds_iff hfinite hpos).mpr ⟨d.toRat_nonneg, h.roundsTo⟩
  · intro j hj w hdigits hw
    obtain ⟨e, hlt, -, hread⟩ := hw.exists_roundsTo hpos hdigits
    have hfewer : e.coefficient < 10 ^ k :=
      hlt.trans_le (Nat.pow_le_pow_right (by decide) (Nat.le_of_lt_succ hj))
    exact h.not_roundsTo_of_fewer hne hlow hfewer hread
  · intro w hdigits hw
    obtain ⟨e, hlt, rfl, hread⟩ := hw.exists_roundsTo hpos hdigits
    have hscale : (0 : ℚ) < 2 ^ 1074 := by positivity
    rw [toRat_of_isNegative_eq_false (isNegative_eq_false_of_toRat_pos hpos), abs_sub_div_two_pow,
      abs_sub_div_two_pow, div_le_div_iff_of_pos_right hscale]
    exact h.abs_le_of_as_many hrank hne hlow hlt hread

end Binary64

/-! ## The text -/

/-- A number below zero is shown as the one above zero behind a minus. -/
theorem text_negate {x : Binary64} (hfinite : x.isFinite = true) (hneg : x.isNegative = false) :
    x.negate.text = '-' :: x.text := by
  have hnumber : x.isNaN = false := by
    have hrank := (Binary64.isFinite_iff x).mp hfinite
    simpa [Binary64.isNaN] using hrank.le
  have hnumber' : x.negate.isNaN = false := by rwa [Binary64.isNaN, x.rank_negate]
  simp only [Binary64.text, hnumber, hnumber', x.isFinite_negate, x.rank_negate,
    x.isNegative_negate, hfinite, hneg, Bool.not_false, if_true, if_false, Bool.false_eq_true]

theorem Numeral.significantDigits_minus (text : List Char) :
    significantDigits ('-' :: text) = significantDigits text := rfl

/-- For a number above zero the digits of the text are counted: they are those of the coefficient,
which ends in no zero and therefore loses none. -/
theorem exists_isShortest_text {x : Binary64} (hfinite : x.isFinite = true) (hpos : 0 < x.toRat) :
    ∃ v, Numeral.Denotes x.text v ∧
      x.IsShortest (Numeral.significantDigits x.text).length v := by
  have hneg := Binary64.isNegative_eq_false_of_toRat_pos hpos
  have hrank := (Binary64.isFinite_iff x).mp hfinite
  have hne := (Binary64.toRat_eq_zero_iff x).not.mp hpos.ne'
  have hcoarsest := Binary64.isCoarsest_shortest hrank hne
  rw [text_of_isFinite hfinite hneg]
  generalize Binary64.shortest x.rank = d at *
  have hlast := hcoarsest.coefficient_mod_ten_ne_zero
  have hcoefficient : d.coefficient ≠ 0 := by omega
  obtain ⟨k, hlength, hlow, hhigh⟩ := Numeral.exists_length_toDigits hcoefficient
  refine ⟨d.toRat, Numeral.denotes_positional d, ?_⟩
  rw [Numeral.significantDigits_positional hlast, hlength]
  exact hcoarsest.isShortest hfinite hpos hlow hhigh

/-- **A number is shown with the fewest digits that any decimal for it has, and of the decimals
with as many digits none is nearer.** -/
theorem exists_isShortest_render {x : Binary64} (hfinite : x.isFinite = true)
    (hne : x.toRat ≠ 0) :
    ∃ v, Numeral.Shows (Literal.number x).render.toList v ∧
      x.IsShortest (Numeral.significantDigits (Literal.number x).render.toList).length v := by
  rw [Literal.render, String.toList_ofList]
  rcases hne.lt_or_gt with hbelow | hpos
  · -- the number without its sign is above zero, and its text is the same behind the minus sign
    have hpos : 0 < x.negate.toRat := by
      rw [Binary64.toRat_negate]
      exact neg_pos.mpr hbelow
    have hfinite' := x.isFinite_negate.trans hfinite
    obtain ⟨v, hv, hshortest⟩ := exists_isShortest_text hfinite' hpos
    have htext := text_negate hfinite' (Binary64.isNegative_eq_false_of_toRat_pos hpos)
    have hnegate := hshortest.negate
    rw [Binary64.negate_negate] at htext hnegate
    rw [htext, Numeral.significantDigits_minus]
    exact ⟨-v, .negative hv, hnegate⟩
  · obtain ⟨v, hv, hshortest⟩ := exists_isShortest_text hfinite hpos
    exact ⟨v, .unsigned hv, hshortest⟩

/-- From `-2 ^ -44` towards zero the numbers are twice as close together as away from it. The
nearest decimal of sixteen digits ends in `801` and rounds to the next number towards zero, so the
one that ends in `802` is shown. -/
theorem isShortest_render_lopsided :
    (⟨0xBD30000000000000⟩ : Binary64).isFinite = true ∧
      (⟨0xBD30000000000000⟩ : Binary64).toRat ≠ 0 ∧
      (Literal.number ⟨0xBD30000000000000⟩).render = "-0.00000000000005684341886080802" ∧
      ∃ v, Numeral.Shows "-0.00000000000005684341886080802".toList v ∧
        (⟨0xBD30000000000000⟩ : Binary64).IsShortest 16 v := by
  have hfinite : (⟨0xBD30000000000000⟩ : Binary64).isFinite = true := by decide
  have hne : (⟨0xBD30000000000000⟩ : Binary64).toRat ≠ 0 := by
    rw [Ne, Binary64.toRat_eq_zero_iff]
    decide
  have hshown : (Literal.number ⟨0xBD30000000000000⟩).render =
      "-0.00000000000005684341886080802" := by decide +kernel
  have hdigits : (Numeral.significantDigits "-0.00000000000005684341886080802".toList).length =
      16 := by decide +kernel
  have h := exists_isShortest_render hfinite hne
  rw [hshown, hdigits] at h
  exact ⟨hfinite, hne, hshown, h⟩

end ScriptLexer
