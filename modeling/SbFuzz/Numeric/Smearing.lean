import Mathlib.Data.Nat.Size
import Mathlib.Data.Nat.Bitwise

/-! Rounding up to a power of two by smearing the highest bit downwards with a list of shifts,
and what is left when the shifts do not reach down far enough. -/

set_option autoImplicit false

namespace SbFuzz.Numeric

/-- Each bit of `y` is one of `window` bits of `x` from there upwards. -/
def Smeared (window x y : Nat) : Prop :=
  ∀ i, y.testBit i = true ↔ ∃ j < window, x.testBit (i + j) = true

theorem Smeared.self (x : Nat) : Smeared 1 x x := by
  intro i
  constructor
  · intro bit
    exact ⟨0, Nat.one_pos, bit⟩
  · intro found
    obtain ⟨j, inWindow, bit⟩ := found
    obtain rfl : j = 0 := by omega
    exact bit

/-- A shift no longer than the window adds its length to the window. -/
theorem Smeared.step {window shift x y : Nat} (smeared : Smeared window x y)
    (reaches : shift ≤ window) : Smeared (window + shift) x (y ||| y >>> shift) := by
  intro i
  rw [Nat.testBit_or, Nat.testBit_shiftRight, Bool.or_eq_true, smeared i, smeared (shift + i)]
  constructor
  · intro found
    rcases found with ⟨j, inWindow, bit⟩ | ⟨j, inWindow, bit⟩
    · exact ⟨j, by omega, bit⟩
    · refine ⟨shift + j, by omega, ?_⟩
      rwa [← Nat.add_assoc, Nat.add_comm i shift]
  · intro found
    obtain ⟨j, inWindow, bit⟩ := found
    by_cases low : j < window
    · exact .inl ⟨j, low, bit⟩
    · refine .inr ⟨j - shift, by omega, ?_⟩
      have same : shift + i + (j - shift) = i + j := by omega
      rwa [same]

theorem Smeared.le {window x y : Nat} (smeared : Smeared window x y) (some_ : 0 < window) :
    x ≤ y := by
  have kept : x ||| y = y := by
    apply Nat.eq_of_testBit_eq
    intro i
    rw [Nat.testBit_or]
    cases bit : x.testBit i with
    | false => rfl
    | true => exact ((smeared i).mpr ⟨0, some_, bit⟩).symm
  rw [← kept]
  exact Nat.left_le_or

theorem Smeared.lt_two_pow {window x y k : Nat} (smeared : Smeared window x y)
    (small : x < 2 ^ k) : y < 2 ^ k := by
  apply Nat.lt_pow_two_of_testBit
  intro i high
  rw [← Bool.not_eq_true, smeared i]
  intro found
  obtain ⟨j, _, bit⟩ := found
  have beyond := Nat.testBit_lt_two_pow
    (small.trans_le (Nat.pow_le_pow_right Nat.two_pos (high.trans (Nat.le_add_right i j))))
  exact absurd bit (by rw [beyond]; exact Bool.false_ne_true)

/-- Below the highest bit there are no `window` zeros in a row. -/
def Dense (window x : Nat) : Prop := ∀ i, 2 ^ i ≤ x → ∃ j < window, x.testBit (i + j) = true

/-- Every bit below the highest one is reached exactly when there is no gap. -/
theorem Smeared.add_one_eq_iff {window x y : Nat} (smeared : Smeared window x y) :
    y + 1 = 2 ^ x.size ↔ Dense window x := by
  have positive : 0 < 2 ^ x.size := Nat.two_pow_pos _
  constructor
  · intro all i below
    have bit : y.testBit i = true := by
      obtain rfl : y = 2 ^ x.size - 1 := by omega
      rw [Nat.testBit_two_pow_sub_one]
      exact decide_eq_true (Nat.lt_size.mpr below)
    exact (smeared i).mp bit
  · intro dense
    have all : y = 2 ^ x.size - 1 := by
      apply Nat.eq_of_testBit_eq
      intro i
      rw [Nat.testBit_two_pow_sub_one]
      by_cases below : i < x.size
      · rw [decide_eq_true below]
        exact (smeared i).mpr (dense i (Nat.lt_size.mp below))
      · rw [decide_eq_false below]
        have small := smeared.lt_two_pow (Nat.lt_size_self x)
        exact Nat.testBit_lt_two_pow
          (small.trans_le (Nat.pow_le_pow_right Nat.two_pos (Nat.not_lt.mp below)))
    omega

end SbFuzz.Numeric
