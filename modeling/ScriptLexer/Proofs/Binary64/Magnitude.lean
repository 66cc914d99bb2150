import ScriptLexer.Binary64.Rounding
import Mathlib.Algebra.Order.Field.Rat
import Mathlib.Order.Monotone.Basic
import Mathlib.Tactic.Positivity
import Mathlib.Tactic.Ring

/-!
# The numbers of the ranks, in order

`magnitude` (`Binary64/Basic.lean`) says of how many units of `2 ^ -1074` the number of a rank
is. Two facts about it carry everything that is proved about rounding:

- **within a binade it is linear**: `s · 2 ^ 52 + m` is `m` steps of `2 ^ s` units
  (`magnitude_steps`), for the ranks of the binade and for the first one behind it as well;
- **it is strictly monotone** (`magnitude_strictMono`), so ranks compare as their numbers do and
  no two ranks share a number.

The definition has two branches and a shift, and after these two facts it is unfolded once more
only, where the fields of the bits are read (`magnitude_rank`).
-/

set_option autoImplicit false

namespace ScriptLexer

namespace Binary64

theorem hiddenBit_pos : 0 < hiddenBit := by decide

theorem infinityRank_pos : 0 < infinityRank := by decide

/-- A rank is a number of steps in its binade. As many steps as two hidden bits are let in too:
there the next binade starts, and both readings of that rank give the same number. -/
theorem magnitude_steps {spacing steps : Nat} (hle : steps ≤ 2 * hiddenBit)
    (hnormal : spacing = 0 ∨ hiddenBit ≤ steps) :
    magnitude (spacing * hiddenBit + steps) = steps * 2 ^ spacing := by
  have hpos := hiddenBit_pos
  have hdiv : (spacing * hiddenBit + steps) / hiddenBit = spacing + steps / hiddenBit := by
    rw [Nat.add_comm, Nat.add_mul_div_right _ _ hpos, Nat.add_comm]
  have hmod : (spacing * hiddenBit + steps) % hiddenBit = steps % hiddenBit := by
    rw [Nat.add_comm, Nat.add_mul_mod_self_right]
  simp only [magnitude, hdiv, hmod, Nat.shiftLeft_eq]
  -- a subnormal number, a normal one, and the first of the next binade
  rcases Nat.lt_or_ge steps hiddenBit with hlt | hge
  · have hzero : spacing = 0 := by omega
    rw [Nat.div_eq_of_lt hlt, Nat.mod_eq_of_lt hlt, hzero]
    simp
  · rcases Nat.lt_or_ge steps (2 * hiddenBit) with hlt | hge'
    · have hone : steps / hiddenBit = 1 := Nat.div_eq_of_lt_le (by omega) (by omega)
      have hrest : steps % hiddenBit = steps - hiddenBit := by
        rw [Nat.mod_eq_sub_mod hge, Nat.mod_eq_of_lt (by omega)]
      rw [hone, hrest, if_neg (by omega), Nat.add_sub_cancel, Nat.add_sub_cancel' hge]
    · have htwo : steps = 2 * hiddenBit := by omega
      rw [htwo, Nat.mul_div_cancel _ hpos, Nat.mul_mod_left, if_neg (by omega)]
      rw [show spacing + 2 - 1 = spacing + 1 by omega, pow_succ]
      ring

/-- Every rank is in some binade. The subnormal ranks and the first normal binade have the same
steps and are both under `spacing = 0`; so what is shown of steps has no case for the subnormal
ones. -/
theorem exists_steps (rank : Nat) :
    ∃ spacing steps, rank = spacing * hiddenBit + steps ∧ steps < 2 * hiddenBit ∧
      (spacing = 0 ∨ hiddenBit ≤ steps) := by
  have hpos := hiddenBit_pos
  rcases Nat.lt_or_ge rank hiddenBit with hlt | hge
  · exact ⟨0, rank, by omega, by omega, Or.inl rfl⟩
  · have hdiv := Nat.div_add_mod rank hiddenBit
    have hmod := Nat.mod_lt rank hpos
    have hone : 1 ≤ rank / hiddenBit := (Nat.le_div_iff_mul_le hpos).mpr (by omega)
    obtain ⟨spacing, hs⟩ : ∃ spacing, rank / hiddenBit = spacing + 1 :=
      ⟨rank / hiddenBit - 1, by omega⟩
    refine ⟨spacing, hiddenBit + rank % hiddenBit, ?_, by omega, Or.inr (by omega)⟩
    have hsplit : hiddenBit * (spacing + 1) = spacing * hiddenBit + hiddenBit := by ring
    rw [hs] at hdiv
    omega

/-- A rank further is a step further, also where a binade ends: its last step leads to the first
number of the next one. -/
theorem magnitude_lt_succ (rank : Nat) : magnitude rank < magnitude (rank + 1) := by
  obtain ⟨spacing, steps, rfl, hlt, hnormal⟩ := exists_steps rank
  rw [magnitude_steps (by omega) hnormal, Nat.add_assoc, magnitude_steps (by omega) (by omega)]
  exact Nat.mul_lt_mul_of_pos_right (Nat.lt_succ_self steps) (by positivity)

theorem magnitude_strictMono : StrictMono magnitude :=
  strictMono_nat_of_lt_succ magnitude_lt_succ

/-- Behind `k` ranks or more, a step up is at most a `k`-th part of the number. It is said with
products, so that no division of natural numbers is needed. -/
theorem mul_magnitude_succ_le {k rank : Nat} (hk : k ≤ hiddenBit) (hrank : k ≤ rank) :
    k * magnitude (rank + 1) ≤ (k + 1) * magnitude rank := by
  obtain ⟨spacing, steps, rfl, hlt, hnormal⟩ := exists_steps rank
  have hsteps : k ≤ steps := by
    rcases hnormal with rfl | h
    · omega
    · omega
  rw [magnitude_steps (by omega) hnormal, Nat.add_assoc, magnitude_steps (by omega) (by omega),
    ← Nat.mul_assoc, ← Nat.mul_assoc]
  apply Nat.mul_le_mul_right
  rw [Nat.mul_succ, Nat.succ_mul]
  exact Nat.add_le_add_left hsteps _

/-- In the lowest binade a rank is its own number. So among the first ranks everything can be
computed by hand, which is where general bounds are too weak. -/
theorem magnitude_of_le_hiddenBit {rank : Nat} (h : rank ≤ hiddenBit) : magnitude rank = rank := by
  have := @magnitude_steps 0 rank (by omega) (Or.inl rfl)
  simpa using this

theorem magnitude_pos {rank : Nat} (h : rank ≠ 0) : 0 < magnitude rank :=
  Nat.zero_lt_of_lt (magnitude_strictMono (Nat.pos_of_ne_zero h))

@[simp] theorem magnitude_zero : magnitude 0 = 0 := by decide

@[simp] theorem magnitude_one : magnitude 1 = 1 := by decide

/-- The number that the format would hold next behind its greatest is `2 ^ 1024`. -/
theorem magnitude_infinityRank : magnitude infinityRank = 2 ^ 2098 := by
  have h : infinityRank = 2046 * hiddenBit + hiddenBit := by decide
  rw [h, magnitude_steps (by omega) (by omega), show hiddenBit = 2 ^ 52 by decide, ← pow_add]

/-- The greatest finite number is one step of its binade below that. -/
theorem magnitude_greatest : magnitude (infinityRank - 1) + 2 ^ 2045 = 2 ^ 2098 := by
  have h : infinityRank - 1 = 2045 * hiddenBit + (2 * hiddenBit - 1) := by decide
  have hsteps : 2 * hiddenBit - 1 + 1 = 2 ^ 53 := by decide
  rw [h, magnitude_steps (by omega) (by decide), ← Nat.succ_mul, Nat.succ_eq_add_one, hsteps,
    ← pow_add]

end Binary64

end ScriptLexer
