import ScriptLexer.Proofs.Binary64.Magnitude
import Mathlib.Tactic.FieldSimp
import Mathlib.Tactic.Linarith
import Mathlib.Tactic.NormNum

/-!
# What is read as a rank

**A rank is read from everything between the midpoints to its two neighbours**, and from a
midpoint itself exactly when the rank is even (`RoundsTo`). Infinity is the rank without a
midpoint above it. Since the numbers of the ranks go up, these intervals lie side by side, and a
rank is known by any point that is read as it (`RoundsTo.unique`).

`nearestRank` finds that rank (`roundsTo_nearestRank`). The proof goes through the ranks as if
they never ended (`InBasin`): there the formula `s · 2 ^ 52 + m` of `Binary64/Rounding.lean` has
one case for all sizes, and the cut at infinity is a step of its own.

Everything is said in units of `2 ^ -1074` and not of the numbers themselves, because in units every
number of the format is a natural number. Midpoints are kept doubled for the same reason. That being
in a basin is the same as being nearest is another matter, and the next file's (`isNearest_iff`).
-/

set_option autoImplicit false

namespace ScriptLexer

namespace Binary64

/-! ## Bounds that an even number reaches

A half goes to the even neighbour. So the bounds of what is read as a rank belong to it or not by
the rank alone, and both of them do or neither does. With `LeIfEven` such a bound is one relation,
which can be multiplied and chained like an inequality, and no proof splits on whether a rank is
even.
-/

/-- `a` is below `b`, or it is `b` and `n` is even. Only the parity of `n` matters, so it may be the
rank or the number of steps in its binade (`congr`). -/
def LeIfEven (n : Nat) (a b : ℚ) : Prop := a < b ∨ a = b ∧ n % 2 = 0

namespace LeIfEven

variable {n m : Nat} {a b c : ℚ}

theorem le (h : LeIfEven n a b) : a ≤ b := by
  rcases h with h | ⟨h, -⟩
  · exact h.le
  · exact h.le

theorem even (h : LeIfEven n a b) (hab : b ≤ a) : n % 2 = 0 := by
  rcases h with h | ⟨-, h⟩
  · exact absurd h hab.not_gt
  · exact h

theorem of_le_of_even (h : a ≤ b) (hn : n % 2 = 0) : LeIfEven n a b :=
  h.lt_or_eq.imp id fun h => ⟨h, hn⟩

/-- For an even number the bound is `≤`, for an odd one (`iff_lt`) it is `<`. -/
theorem iff_le (hn : n % 2 = 0) : LeIfEven n a b ↔ a ≤ b :=
  ⟨le, fun h => of_le_of_even h hn⟩

theorem iff_lt (hn : n % 2 = 1) : LeIfEven n a b ↔ a < b :=
  ⟨fun h => h.resolve_right fun heq => by omega, Or.inl⟩

theorem mul_right (h : LeIfEven n a b) (hc : 0 < c) : LeIfEven n (a * c) (b * c) := by
  rcases h with h | ⟨rfl, h⟩
  · exact Or.inl (mul_lt_mul_of_pos_right h hc)
  · exact Or.inr ⟨rfl, h⟩

theorem of_mul_right (h : LeIfEven n (a * c) (b * c)) (hc : 0 < c) : LeIfEven n a b := by
  rcases h with h | ⟨h, hn⟩
  · exact Or.inl (lt_of_mul_lt_mul_right h hc.le)
  · exact Or.inr ⟨mul_right_cancel₀ hc.ne' h, hn⟩

theorem trans_le (h : LeIfEven n a b) (hbc : b ≤ c) : LeIfEven n a c := by
  rcases hbc.lt_or_eq with hlt | rfl
  · exact Or.inl (h.le.trans_lt hlt)
  · exact h

theorem of_le_trans (hab : a ≤ b) (h : LeIfEven n b c) : LeIfEven n a c := by
  rcases hab.lt_or_eq with hlt | rfl
  · exact Or.inl (hlt.trans_le h.le)
  · exact h

theorem congr (h : LeIfEven n a b) (hnm : n % 2 = m % 2) : LeIfEven m a b :=
  h.imp id fun ⟨hab, hn⟩ => ⟨hab, hnm ▸ hn⟩

end LeIfEven

/-! ## Rounding to a whole number -/

/-- `n` is the whole number nearest to `w`, a half going to the even one. Both bounds are doubled,
so that no half has to be written. -/
structure IsHalfEven (w : ℚ) (n : Nat) : Prop where
  low : LeIfEven n (2 * n - 1) (2 * w)
  high : LeIfEven n (2 * w) (2 * n + 1)

/-- For a fraction the bounds can be stated in natural numbers, with nothing divided: what is on the
left is the whole number doubled and times the denominator. -/
theorem isHalfEven_div {num den n : Nat} (hden : 0 < den)
    (hlow : 2 * n * den < 2 * num + den ∨ 2 * n * den = 2 * num + den ∧ n % 2 = 0)
    (hhigh : 2 * num < 2 * n * den + den ∨ 2 * num = 2 * n * den + den ∧ n % 2 = 0) :
    IsHalfEven (num / den) n := by
  have hpos : (0 : ℚ) < den := by exact_mod_cast hden
  have hnum : (num / den : ℚ) * den = num := div_mul_cancel₀ _ hpos.ne'
  -- each bound is compared after multiplying by `den`, where it is one of natural numbers
  constructor
  · refine LeIfEven.of_mul_right ?_ hpos
    rcases hlow with h | ⟨h, hn⟩
    · have : (2 * n * den : ℚ) < 2 * num + den := by exact_mod_cast h
      exact Or.inl (by linarith)
    · have : (2 * n * den : ℚ) = 2 * num + den := by exact_mod_cast h
      exact Or.inr ⟨by linarith, hn⟩
  · refine LeIfEven.of_mul_right ?_ hpos
    rcases hhigh with h | ⟨h, hn⟩
    · have : (2 * num : ℚ) < 2 * n * den + den := by exact_mod_cast h
      exact Or.inl (by linarith)
    · have : (2 * num : ℚ) = 2 * n * den + den := by exact_mod_cast h
      exact Or.inr ⟨by linarith, hn⟩

theorem isHalfEven_roundHalfEven (num : Nat) {den : Nat} (hden : 0 < den) :
    IsHalfEven (num / den) (roundHalfEven num den) := by
  have hdiv := Nat.div_add_mod num den
  have hmod := Nat.mod_lt num hden
  have hcomm : den * (num / den) = num / den * den := Nat.mul_comm _ _
  have hdown : 2 * (num / den) * den = 2 * (num / den * den) := by ring
  have hup : 2 * (num / den + 1) * den = 2 * (num / den * den) + 2 * den := by ring
  unfold roundHalfEven
  dsimp only
  -- less than half is left, more than half, or a half and then the parity of the quotient decides
  split
  · apply isHalfEven_div hden <;> rw [hdown] <;> omega
  · split
    · apply isHalfEven_div hden <;> rw [hup] <;> omega
    · rcases Nat.mod_two_eq_zero_or_one (num / den) with h | h
      · rw [h, Nat.add_zero]
        apply isHalfEven_div hden <;> rw [hdown] <;> omega
      · rw [h]
        apply isHalfEven_div hden <;> rw [hup] <;> omega

/-! ## Ranks without an end -/

/-- Among all ranks, with none taken for infinity, `u` units lie between the midpoints to the
neighbours of this one. Rank zero has no neighbour below and so no lower bound;
ranks past infinity have numbers too, in binades that the format does not have. -/
structure InBasin (u : ℚ) (rank : Nat) : Prop where
  low : ∀ below, below + 1 = rank → LeIfEven rank (magnitude below + magnitude rank) (2 * u)
  high : LeIfEven rank (2 * u) (magnitude rank + magnitude (rank + 1))

/-- The midpoint to the next number is half a step up. Behind the steps of a binade it is more,
since the steps there are longer. -/
theorem magnitude_add_magnitude_succ {spacing steps : Nat} (hle : steps ≤ 2 * hiddenBit)
    (hnormal : spacing = 0 ∨ hiddenBit ≤ steps) :
    ((2 * steps + 1) * 2 ^ spacing : ℚ) = magnitude (spacing * hiddenBit + steps) +
        magnitude (spacing * hiddenBit + steps + 1) ∨
      steps = 2 * hiddenBit := by
  rcases Nat.lt_or_eq_of_le hle with hlt | heq
  · left
    rw [magnitude_steps hle hnormal, Nat.add_assoc, magnitude_steps (by omega) (by omega)]
    push_cast
    ring
  · exact Or.inr heq

/-- Rounding in steps of `2 ^ spacing` finds the basin, when the steps are those of the binade
that the number is in. In the middle of a binade the two notions are the same, steps apart from
units. At its two ends they are not, and there the number is shown to be on the right side anyway:
below the first number of a binade steps are half as long, and behind the last they are twice. -/
theorem inBasin_steps {w : ℚ} {spacing steps : Nat} (hround : IsHalfEven w steps)
    (hlow : spacing = 0 ∨ (hiddenBit : ℚ) ≤ w) (hhigh : w < 2 * hiddenBit) :
    InBasin (w * 2 ^ spacing) (spacing * hiddenBit + steps) := by
  have hpos : (0 : ℚ) < 2 ^ spacing := by positivity
  have hle : steps ≤ 2 * hiddenBit := by
    have : (2 * steps : ℚ) < 4 * hiddenBit + 1 := by linarith [hround.low.le]
    have : 2 * steps < 4 * hiddenBit + 1 := by exact_mod_cast this
    omega
  have hnormal : spacing = 0 ∨ hiddenBit ≤ steps := by
    refine hlow.imp id fun h => ?_
    have : (2 * hiddenBit : ℚ) ≤ 2 * steps + 1 := by linarith [hround.high.le]
    have : 2 * hiddenBit ≤ 2 * steps + 1 := by exact_mod_cast this
    omega
  have hrank : (magnitude (spacing * hiddenBit + steps) : ℚ) = steps * 2 ^ spacing := by
    rw [magnitude_steps hle hnormal]
    push_cast
    rfl
  have heven : steps % 2 = (spacing * hiddenBit + steps) % 2 := by
    rw [Nat.add_mod, Nat.mul_mod, show hiddenBit % 2 = 0 by decide]
    simp
  constructor
  · intro below hbelow
    -- The rank below is in the same binade, unless this one is the first of its binade. There
    -- the step down is shorter than the steps up, and `w` is not below the first anyway.
    by_cases hfirst : spacing = 0 ∨ hiddenBit < steps
    · obtain ⟨previous, rfl⟩ : ∃ previous, steps = previous + 1 :=
        ⟨steps - 1, by rcases hfirst with rfl | h <;> omega⟩
      obtain rfl : below = spacing * hiddenBit + previous := by omega
      have hmid := (@magnitude_add_magnitude_succ spacing previous
        (by omega) (by omega)).resolve_right (by omega)
      have hstep := (hround.low.congr heven).mul_right hpos
      rw [← Nat.add_assoc] at hstep ⊢
      rw [← hmid]
      push_cast at hstep
      convert hstep using 1 <;> ring
    · have hw : (hiddenBit : ℚ) ≤ w := hlow.resolve_left fun h => hfirst (Or.inl h)
      have hsteps : steps = hiddenBit := by omega
      have hlt : (magnitude below : ℚ) < magnitude (spacing * hiddenBit + steps) := by
        exact_mod_cast magnitude_strictMono (by omega)
      have hu : (hiddenBit * 2 ^ spacing : ℚ) ≤ w * 2 ^ spacing :=
        mul_le_mul_of_nonneg_right hw hpos.le
      rw [← hsteps, ← hrank] at hu
      exact Or.inl (by linarith)
  · rcases magnitude_add_magnitude_succ hle hnormal with hmid | hlast
    · have hstep := (hround.high.congr heven).mul_right hpos
      rw [← hmid]
      convert hstep using 1
      ring
    · have hlt : (magnitude (spacing * hiddenBit + steps) : ℚ) <
          magnitude (spacing * hiddenBit + steps + 1) := by
        exact_mod_cast magnitude_lt_succ _
      have hu : w * 2 ^ spacing < (2 * hiddenBit * 2 ^ spacing : ℚ) :=
        mul_lt_mul_of_pos_right hhigh hpos
      rw [show (2 * hiddenBit : ℚ) = steps by rw [hlast]; push_cast; rfl, ← hrank] at hu
      exact Or.inl (by linarith)

/-- The rank that reading comes to, before it is cut at infinity. What is left to show of
`inBasin_steps` is that the logarithm of the quotient finds the right binade. -/
theorem inBasin_nearestRank (num : Nat) {den : Nat} (hden : 0 < den) :
    InBasin (num / den) (((num / den).log2 - 52) * hiddenBit +
      roundHalfEven num (den <<< ((num / den).log2 - 52))) := by
  generalize hspacing : (num / den).log2 - 52 = spacing
  have hpos : (0 : ℚ) < 2 ^ spacing := by positivity
  have hq : (0 : ℚ) < den := by exact_mod_cast hden
  have hden' : 0 < den <<< spacing := by
    rw [Nat.shiftLeft_eq]
    positivity
  have hcast : ((den <<< spacing : Nat) : ℚ) = den * 2 ^ spacing := by
    rw [Nat.shiftLeft_eq]
    push_cast
    rfl
  have hw : (num / den : ℚ) = num / (den <<< spacing : Nat) * 2 ^ spacing := by
    rw [hcast]
    field_simp
  rw [hw]
  refine inBasin_steps (isHalfEven_roundHalfEven num hden') ?_ ?_
  · -- in the lowest binade nothing is asked of the number from below
    rcases Nat.eq_zero_or_pos spacing with h | h
    · exact Or.inl h
    · -- no power of two below the quotient is skipped, so the number is past the hidden bit
      have hlog : (num / den).log2 = spacing + 52 := by omega
      have hne : num / den ≠ 0 := by
        intro hzero
        rw [hzero] at hlog
        simp at hlog
      have hle := (Nat.le_log2 hne).mp hlog.ge
      rw [Nat.le_div_iff_mul_le hden] at hle
      have hnum : hiddenBit * (den <<< spacing) ≤ num := by
        rw [Nat.shiftLeft_eq, show hiddenBit = 2 ^ 52 by decide]
        calc 2 ^ 52 * (den * 2 ^ spacing) = 2 ^ (spacing + 52) * den := by ring
          _ ≤ num := hle
      right
      rw [le_div_iff₀ (by exact_mod_cast hden')]
      exact_mod_cast hnum
  · have hlt : num / den < 2 ^ (spacing + 53) := by
      apply Nat.lt_log2_self.trans_le
      exact Nat.pow_le_pow_right (by decide) (by omega)
    have hnum : num < 2 * hiddenBit * (den <<< spacing) := by
      rw [Nat.div_lt_iff_lt_mul hden] at hlt
      rw [Nat.shiftLeft_eq, show hiddenBit = 2 ^ 52 by decide]
      calc num < 2 ^ (spacing + 53) * den := hlt
        _ = 2 * 2 ^ 52 * (den * 2 ^ spacing) := by ring
    rw [div_lt_iff₀ (by exact_mod_cast hden')]
    exact_mod_cast hnum

/-! ## Ranks that end with infinity -/

/-- `u` units are read as this rank: they lie between the midpoints to its neighbours, and may
lie on one when the rank is even. Infinity has no midpoint above it. The midpoint below it counts
`2 ^ 1024` as its number, which is how the format says where overflow begins. -/
structure RoundsTo (u : ℚ) (rank : Nat) : Prop where
  le_infinityRank : rank ≤ infinityRank
  low : ∀ below, below + 1 = rank → LeIfEven rank (magnitude below + magnitude rank) (2 * u)
  high : rank < infinityRank → LeIfEven rank (2 * u) (magnitude rank + magnitude (rank + 1))

/-- What is below half the least positive number is read as zero. So is the half itself, zero being
even, but nobody asks for that here. -/
theorem roundsTo_zero {u : ℚ} (h : 2 * u < 1) : RoundsTo u 0 := by
  refine ⟨Nat.zero_le _, fun below hbelow => absurd hbelow (Nat.succ_ne_zero below), ?_⟩
  intro _
  rw [magnitude_zero, magnitude_one]
  exact Or.inl (by simpa using h)

/-- What is not below the midpoint under infinity overflows. Infinity is even, so the midpoint
itself does too. -/
theorem roundsTo_infinityRank {u : ℚ}
    (h : (magnitude (infinityRank - 1) + magnitude infinityRank : ℚ) ≤ 2 * u) :
    RoundsTo u infinityRank := by
  refine ⟨le_rfl, ?_, fun hlt => absurd hlt (Nat.lt_irrefl _)⟩
  intro below hbelow
  obtain rfl : below = infinityRank - 1 := by omega
  exact LeIfEven.of_le_of_even h (by decide)

/-- A number is read as its own rank: it is strictly between the midpoints, whatever the parity. -/
theorem roundsTo_magnitude {rank : Nat} (hrank : rank ≤ infinityRank) :
    RoundsTo (magnitude rank) rank := by
  refine ⟨hrank, ?_, ?_⟩
  · rintro below rfl
    have hlt : (magnitude below : ℚ) < magnitude (below + 1) := by
      exact_mod_cast magnitude_lt_succ below
    exact Or.inl (by linarith)
  · intro _
    have hlt : (magnitude rank : ℚ) < magnitude (rank + 1) := by
      exact_mod_cast magnitude_lt_succ rank
    exact Or.inl (by linarith)

/-- Cutting at infinity is right: all the basins from there on lie past the midpoint below it. -/
theorem InBasin.roundsTo {u : ℚ} {rank : Nat} (h : InBasin u rank) :
    RoundsTo u (min rank infinityRank) := by
  rcases Nat.lt_or_ge rank infinityRank with hlt | hge
  · rw [Nat.min_eq_left hlt.le]
    exact ⟨hlt.le, h.low, fun _ => h.high⟩
  · rw [Nat.min_eq_right hge]
    obtain ⟨previous, rfl⟩ : ∃ previous, rank = previous + 1 :=
      ⟨rank - 1, by have := infinityRank_pos; omega⟩
    have hle := (h.low previous rfl).le
    have h₁ : (magnitude (infinityRank - 1) : ℚ) ≤ magnitude previous := by
      exact_mod_cast magnitude_strictMono.monotone (by omega)
    have h₂ : (magnitude infinityRank : ℚ) ≤ magnitude (previous + 1) := by
      exact_mod_cast magnitude_strictMono.monotone hge
    exact roundsTo_infinityRank (by linarith)

/-- **`nearestRank` finds the rank that is read.** -/
theorem roundsTo_nearestRank (num : Nat) {den : Nat} (hden : 0 < den) :
    RoundsTo (num / den) (nearestRank num den) :=
  (inBasin_nearestRank num hden).roundsTo

/-- A rank that is read from a midpoint above it or past that is the rank just below the
midpoint, and it is even. -/
theorem RoundsTo.eq_and_even {u : ℚ} {rank below : Nat} (h : RoundsTo u rank)
    (hlt : rank < infinityRank) (hle : rank ≤ below)
    (hmid : (magnitude below + magnitude (below + 1) : ℚ) ≤ 2 * u) :
    rank = below ∧ rank % 2 = 0 := by
  have hhigh := h.high hlt
  have h₁ : (magnitude rank : ℚ) ≤ magnitude below := by
    exact_mod_cast magnitude_strictMono.monotone hle
  have h₂ : (magnitude (rank + 1) : ℚ) ≤ magnitude (below + 1) := by
    exact_mod_cast magnitude_strictMono.monotone (Nat.succ_le_succ hle)
  have heq : (magnitude rank : ℚ) = magnitude below := by linarith [hhigh.le]
  exact ⟨magnitude_strictMono.injective (by exact_mod_cast heq), hhigh.even (by linarith)⟩

/-- No two ranks are read from the same number. On the midpoint between neighbours both would have
to be even. This is what makes a rank a function of the number, and it is used wherever two ways of
finding one have to agree. -/
theorem RoundsTo.unique {u : ℚ} {r s : Nat} (hr : RoundsTo u r) (hs : RoundsTo u s) : r = s := by
  have key : ∀ {r s : Nat}, RoundsTo u r → RoundsTo u s → ¬ r < s := by
    intro r s hr hs hlt
    obtain ⟨below, rfl⟩ : ∃ below, s = below + 1 := ⟨s - 1, by omega⟩
    have hlow := hs.low below rfl
    obtain ⟨rfl, hre⟩ := hr.eq_and_even (hlt.trans_le hs.le_infinityRank) (by omega) hlow.le
    have hse := hlow.even (hr.high (hlt.trans_le hs.le_infinityRank)).le
    omega
  exact Nat.le_antisymm (Nat.le_of_not_lt (key hs hr)) (Nat.le_of_not_lt (key hr hs))

/-- What lies between two numbers that are read as a rank is read as it too: basins have no holes.
-/
theorem RoundsTo.of_le_of_le {u v w : ℚ} {rank : Nat} (hu : RoundsTo u rank) (hw : RoundsTo w rank)
    (huv : u ≤ v) (hvw : v ≤ w) : RoundsTo v rank := by
  refine ⟨hu.le_infinityRank, ?_, ?_⟩
  · intro below hbelow
    exact (hu.low below hbelow).trans_le (by linarith)
  · intro hlt
    exact .of_le_trans (by linarith) (hw.high hlt)

/-- What overflows is what is not below the midpoint between the greatest finite number and
`2 ^ 1024`. -/
theorem RoundsTo.eq_infinityRank_iff {u : ℚ} {rank : Nat} (h : RoundsTo u rank) :
    rank = infinityRank ↔
      (magnitude (infinityRank - 1) + magnitude infinityRank : ℚ) ≤ 2 * u := by
  constructor
  · rintro rfl
    exact (h.low (infinityRank - 1) (by decide)).le
  · intro hu
    by_contra hne
    have hlt : rank < infinityRank := Nat.lt_of_le_of_ne h.le_infinityRank hne
    obtain ⟨rfl, heven⟩ := h.eq_and_even hlt (Nat.le_pred_of_lt hlt) hu
    exact absurd heven (by decide)

end Binary64

end ScriptLexer
