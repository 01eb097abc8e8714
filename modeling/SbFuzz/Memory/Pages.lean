import Mathlib.Data.Nat.Bitwise

/-! Pages of 4096 bytes in a 64-bit address space. -/

set_option autoImplicit false

namespace SbFuzz.Memory

def pageSize : Nat := 4096

/-- The start of the page of an address. -/
def pageDown (address : Nat) : Nat := address / pageSize * pageSize

/-- The end of the page of the last address before `limit`. -/
def pageUp (limit : Nat) : Nat := pageDown (limit + (pageSize - 1))

def Aligned (address : Nat) : Prop := address % pageSize = 0

instance (address : Nat) : Decidable (Aligned address) := inferInstanceAs (Decidable (_ = _))

theorem pageDown_le (address : Nat) : pageDown address ≤ address := Nat.div_mul_le_self _ _

theorem aligned_pageDown (address : Nat) : Aligned (pageDown address) := by
  unfold Aligned pageDown
  exact Nat.mul_mod_left _ _

theorem aligned_pageUp (limit : Nat) : Aligned (pageUp limit) := aligned_pageDown _

theorem le_pageUp (limit : Nat) : limit ≤ pageUp limit := by
  unfold pageUp pageDown pageSize
  omega

theorem pageUp_le_iff {limit boundary : Nat} (aligned : Aligned boundary) :
    pageUp limit ≤ boundary ↔ limit ≤ boundary := by
  unfold pageUp pageDown
  unfold Aligned at aligned
  unfold pageSize at aligned ⊢
  omega

theorem le_pageDown_iff {address boundary : Nat} (aligned : Aligned boundary) :
    boundary ≤ pageDown address ↔ boundary ≤ address := by
  unfold pageDown
  unfold Aligned at aligned
  unfold pageSize at aligned ⊢
  omega

theorem Aligned.pageDown {address : Nat} (aligned : Aligned address) :
    pageDown address = address :=
  (pageDown_le address).antisymm ((le_pageDown_iff aligned).mpr le_rfl)

theorem Aligned.pageUp {limit : Nat} (aligned : Aligned limit) : pageUp limit = limit :=
  ((pageUp_le_iff aligned).mpr le_rfl).antisymm (le_pageUp limit)

/-! ## Masks -/

theorem toNat_and_pageMask (word : UInt64) : (word &&& 0xfff).toNat = word.toNat % pageSize := by
  rw [UInt64.toNat_and]
  exact Nat.and_two_pow_sub_one_eq_mod word.toNat 12

theorem and_pageMask_eq_zero_iff (word : UInt64) : word &&& 0xfff = 0 ↔ Aligned word.toNat := by
  rw [← UInt64.toNat_inj, toNat_and_pageMask]
  rfl

theorem toNat_and_not_pageMask (word : UInt64) :
    (word &&& ~~~0xfff).toNat = pageDown word.toNat := by
  have mask : (~~~(0xfff : UInt64)).toNat = 2 ^ 64 - (4095 + 1) := by decide
  rw [UInt64.toNat_and, mask, pageDown, pageSize]
  have shifted : word.toNat / 4096 * 4096 = word.toNat >>> 12 <<< 12 := by
    rw [Nat.shiftRight_eq_div_pow, Nat.shiftLeft_eq]
  rw [shifted]
  refine Nat.eq_of_testBit_eq fun bit => ?_
  rw [Nat.testBit_and, Nat.testBit_two_pow_sub_succ (by decide), Nat.testBit_shiftLeft,
    Nat.testBit_shiftRight]
  have low : Nat.testBit 4095 bit = decide (bit < 12) := Nat.testBit_two_pow_sub_one 12 bit
  rw [low]
  by_cases small : bit < 12
  · simp [small, Nat.not_le.mpr small]
  · have high : 12 + (bit - 12) = bit := by omega
    simp only [small, decide_false, Bool.not_false, Bool.and_true, Nat.not_lt.mp small,
      decide_true, Bool.true_and, high]
    by_cases wide : bit < 64
    · simp [wide]
    · have zero : word.toNat.testBit bit = false :=
        Nat.testBit_lt_two_pow (word.toNat_lt.trans_le (Nat.pow_le_pow_right (by decide)
          (Nat.not_lt.mp wide)))
      simp [zero]

end SbFuzz.Memory
