import Mathlib.Data.Nat.Log
import Mathlib.Tactic.Ring

/-! Natural numbers as IEEE-754 doubles: which of them are doubles, and the
double that a decimal numeral is read as. -/

set_option autoImplicit false

namespace SbFuzz.Numeric

/-- A significand of at most 53 bits, scaled by a power of two. -/
def Exact (value : Nat) : Prop := ∃ significand exponent,
  significand < 2 ^ 53 ∧ value = significand * 2 ^ exponent

/-- The number of low bits of `value` that a 53-bit significand has no room for. -/
def excess (value : Nat) : Nat := Nat.log 2 value + 1 - 53

/-- `value / 2 ^ bits`, rounded to the nearest integer, ties to even. -/
def roundHalfEven (value bits : Nat) : Nat :=
  let quotient := value / 2 ^ bits
  let remainder := value % 2 ^ bits
  if 2 * remainder < 2 ^ bits ∨ (2 * remainder = 2 ^ bits ∧ quotient % 2 = 0) then quotient
  else quotient + 1

/-- The double nearest to `value`. -/
def toBinary64 (value : Nat) : Nat := roundHalfEven value (excess value) * 2 ^ excess value

theorem roundHalfEven_of_dvd {value bits : Nat} (divides : 2 ^ bits ∣ value) :
    roundHalfEven value bits = value / 2 ^ bits := by
  have exactly : value % 2 ^ bits = 0 := Nat.mod_eq_zero_of_dvd divides
  simp [roundHalfEven, exactly]

theorem roundHalfEven_le (value bits : Nat) :
    roundHalfEven value bits ≤ value / 2 ^ bits + 1 := by
  simp only [roundHalfEven]
  split <;> omega

theorem quotient_lt (value : Nat) : value / 2 ^ excess value < 2 ^ 53 := by
  rw [Nat.div_lt_iff_lt_mul (Nat.two_pow_pos _), ← Nat.pow_add]
  have below : value < 2 ^ (Nat.log 2 value + 1) := Nat.lt_pow_succ_log_self (by decide) value
  have more : Nat.log 2 value + 1 ≤ 53 + excess value := by
    unfold excess
    omega
  exact below.trans_le (Nat.pow_le_pow_right (by decide) more)

theorem toBinary64_exact (value : Nat) : Exact (toBinary64 value) := by
  have bound := (roundHalfEven_le value (excess value)).trans (quotient_lt value)
  rcases bound.lt_or_eq with room | carry
  · exact ⟨_, _, room, rfl⟩
  · -- rounding up to a power of two moves the exponent instead
    refine ⟨2 ^ 52, excess value + 1, by decide, ?_⟩
    rw [toBinary64, carry]
    ring

/-- The low bits that have to go are zero in a number that is a double. -/
theorem Exact.dvd {value : Nat} (exactly : Exact value) : 2 ^ excess value ∣ value := by
  obtain ⟨significand, exponent, small, rfl⟩ := exactly
  by_cases fits : excess (significand * 2 ^ exponent) ≤ exponent
  · exact (Nat.pow_dvd_pow 2 fits).trans (Nat.dvd_mul_left _ _)
  · exfalso
    have positive : significand * 2 ^ exponent ≠ 0 := by
      intro zero
      simp [zero, excess] at fits
    have below : significand * 2 ^ exponent < 2 ^ (53 + exponent) := by
      rw [Nat.pow_add]
      exact Nat.mul_lt_mul_of_pos_right small (Nat.two_pow_pos _)
    have log := Nat.log_lt_of_lt_pow positive below
    unfold excess at fits
    omega

theorem toBinary64_eq_self_iff (value : Nat) : toBinary64 value = value ↔ Exact value := by
  constructor
  · intro same
    exact same ▸ toBinary64_exact value
  · intro exactly
    rw [toBinary64, roundHalfEven_of_dvd exactly.dvd, Nat.div_mul_cancel exactly.dvd]

/-- Multiples of a power of two have few significant bits. -/
theorem exact_of_dvd {value bits : Nat} (divides : 2 ^ bits ∣ value)
    (small : value < 2 ^ (53 + bits)) : Exact value := by
  obtain ⟨significand, rfl⟩ := divides
  refine ⟨significand, bits, ?_, Nat.mul_comm _ _⟩
  rw [Nat.pow_add, Nat.mul_comm] at small
  exact Nat.lt_of_mul_lt_mul_right small

example : toBinary64 (2 ^ 53 + 1) = 2 ^ 53 := by decide +kernel

end SbFuzz.Numeric
