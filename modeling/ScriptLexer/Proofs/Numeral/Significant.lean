import ScriptLexer.Proofs.Numeral.Positional
import Mathlib.Data.List.DropRight
import Mathlib.Tactic.IntervalCases

/-!
# The significant digits of a numeral

Zeros in front and behind, and the point, say where a number is and not how it is spelled. What is
left without them are the significant digits of a text (`significantDigits`), and **those of a
decimal that is written out are the digits of its coefficient**, wherever the exponent puts the
point, as long as the coefficient does not end in a zero itself (`significantDigits_positional`).

They are defined on the text, so that a statement about few digits is about what is shown and not
about the decimal that it was written from.
-/

set_option autoImplicit false

namespace ScriptLexer

namespace Numeral

/-- The digits of a text from the first to the last one that is not zero. Signs and points are
passed over. A text of zeros has none at all. -/
def significantDigits (text : List Char) : List Char :=
  ((text.filter Char.isDigit).dropWhile (· == '0')).rdropWhile (· == '0')

/-! ## The digits of a number that ends in no zero -/

theorem digitChar_ne_zero {n : Nat} (hpos : 0 < n) (hlt : n < 10) : Nat.digitChar n ≠ '0' := by
  interval_cases n <;> decide

theorem exists_toDigits_eq_cons {n : Nat} (h : n ≠ 0) :
    ∃ c rest, Nat.toDigits 10 n = c :: rest ∧ c ≠ '0' := by
  induction n using Nat.strongRecOn with
  | ind n ih =>
    rcases Nat.lt_or_ge n 10 with hlt | hge
    · exact ⟨_, [], Nat.toDigits_of_lt_base hlt, digitChar_ne_zero (Nat.pos_of_ne_zero h) hlt⟩
    · obtain ⟨c, rest, hdigits, hc⟩ := ih (n / 10) (by omega) (by omega)
      refine ⟨c, rest ++ [Nat.digitChar (n % 10)], ?_, hc⟩
      rw [Nat.toDigits_of_base_le (by decide) hge, hdigits, List.cons_append]

/-- The last digit is the remainder by ten, so it is zero for a multiple of ten only. -/
theorem exists_toDigits_eq_concat {n : Nat} (h : n % 10 ≠ 0) :
    ∃ rest c, Nat.toDigits 10 n = rest ++ [c] ∧ c ≠ '0' := by
  have hlast := digitChar_ne_zero (Nat.pos_of_ne_zero h) (Nat.mod_lt n (by decide))
  rcases Nat.lt_or_ge n 10 with hlt | hge
  · rw [Nat.mod_eq_of_lt hlt] at hlast
    exact ⟨[], _, Nat.toDigits_of_lt_base hlt, hlast⟩
  · exact ⟨_, _, Nat.toDigits_of_base_le (by decide) hge, hlast⟩

/-- A number has as many digits as it takes powers of ten to reach past it. In this form the number
of digits is a bound on coefficients, which is what decimals are compared by. -/
theorem exists_length_toDigits {n : Nat} (h : n ≠ 0) :
    ∃ k, (Nat.toDigits 10 n).length = k + 1 ∧ 10 ^ k ≤ n ∧ n < 10 ^ (k + 1) := by
  obtain ⟨c, rest, hdigits, -⟩ := exists_toDigits_eq_cons h
  have hlength : (Nat.toDigits 10 n).length = rest.length + 1 := by
    rw [hdigits, List.length_cons]
  refine ⟨rest.length, hlength, ?_, ?_⟩
  · rcases Nat.eq_zero_or_pos rest.length with hzero | hpos
    · rw [hzero, Nat.pow_zero]
      exact Nat.one_le_iff_ne_zero.mpr h
    · have hnot := (Nat.length_toDigits_le_iff (by decide : 1 < 10) hpos (n := n)).not
      rw [hlength] at hnot
      exact Nat.not_lt.mp (hnot.mp (by omega))
  · exact (Nat.length_toDigits_le_iff (by decide) (Nat.succ_pos _)).mp hlength.le

/-! ## Filling zeros do not count -/

theorem dropWhile_zeros_append (n : Nat) (digits : List Char) :
    (List.replicate n '0' ++ digits).dropWhile (· == '0') = digits.dropWhile (· == '0') :=
  List.dropWhile_append_of_pos fun c hc => by simp [List.eq_of_mem_replicate hc]

/-- The digits that are written for a decimal are those of its coefficient between zeros. Zeros are
on one side only, in front if there is a point and behind if there is none. -/
theorem exists_filter_positional (d : Decimal) :
    ∃ before behind, d.positional.filter Char.isDigit =
      List.replicate before '0' ++
        (Nat.toDigits 10 d.coefficient ++ List.replicate behind '0') := by
  have hall {digits : List Char} (h : AllDigits digits) : digits.filter Char.isDigit = digits :=
    List.filter_eq_self.mpr h
  obtain ⟨coefficient, exponent⟩ := d
  cases exponent with
  | ofNat zeros =>
    refine ⟨0, zeros, ?_⟩
    exact hall (allDigits_append.mpr ⟨allDigits_toDigits _, allDigits_zeros _⟩)
  | negSucc n =>
    refine ⟨n + 1 + 1 - (Nat.toDigits 10 coefficient).length, 0, ?_⟩
    have hdigits := allDigits_append.mpr ⟨allDigits_zeros
      (n + 1 + 1 - (Nat.toDigits 10 coefficient).length), allDigits_toDigits coefficient⟩
    have hpoint : Char.isDigit '.' = false := rfl
    -- without the point the two halves that it was put between come together again
    simp only [Decimal.positional]
    rw [List.filter_append, List.filter_cons, hpoint, if_neg Bool.false_ne_true,
      ← List.filter_append, List.take_append_drop, hall hdigits, List.replicate_zero,
      List.append_nil]

/-- **The significant digits of what is written are the digits of the coefficient.** -/
theorem significantDigits_positional {d : Decimal} (h : d.coefficient % 10 ≠ 0) :
    significantDigits d.positional = Nat.toDigits 10 d.coefficient := by
  obtain ⟨before, behind, hfilter⟩ := exists_filter_positional d
  obtain ⟨first, rest, hfirst, hne⟩ := exists_toDigits_eq_cons (n := d.coefficient) (by omega)
  obtain ⟨front, last, hlast, hne'⟩ := exists_toDigits_eq_concat h
  have hdrop : (Nat.toDigits 10 d.coefficient ++ List.replicate behind '0').dropWhile (· == '0') =
      Nat.toDigits 10 d.coefficient ++ List.replicate behind '0' := by
    rw [hfirst, List.cons_append, List.dropWhile_cons_of_neg (by simpa using hne)]
  rw [significantDigits, hfilter, dropWhile_zeros_append, hdrop, List.rdropWhile,
    List.reverse_append, List.reverse_replicate, dropWhile_zeros_append, hlast,
    List.reverse_append, List.reverse_singleton, List.singleton_append,
    List.dropWhile_cons_of_neg (by simpa using hne'), List.reverse_cons, List.reverse_reverse]

end Numeral

end ScriptLexer
