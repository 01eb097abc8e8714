import Mathlib.Data.Nat.Bitwise
import Mathlib.Logic.Function.Basic

/-! Sets of small numbers as bits of bytes: bit `i % 8` of byte `i / 8`. -/

set_option autoImplicit false

namespace SbFuzz.Memory

abbrev BitSet := Nat → UInt8

namespace BitSet

def mask (i : Nat) : UInt8 := 1 <<< UInt8.ofNat (i % 8)

def has (bits : BitSet) (i : Nat) : Bool := bits (i / 8) &&& mask i ≠ 0

def insert (bits : BitSet) (i : Nat) : BitSet :=
  Function.update bits (i / 8) (bits (i / 8) ||| mask i)

/-- The first `length` bytes lose the bits of `other`. -/
def without (bits other : BitSet) (length : Nat) : BitSet :=
  fun j => if j < length then bits j &&& ~~~other j else bits j

theorem mask_toNat (i : Nat) : (mask i).toNat = 2 ^ (i % 8) := by
  have all : ∀ k : Fin 8, ((1 : UInt8) <<< UInt8.ofNat k.val).toNat = 2 ^ k.val := by decide
  exact all ⟨i % 8, Nat.mod_lt i (by decide)⟩

theorem and_mask_ne_zero_iff (byte : UInt8) (i : Nat) :
    byte &&& mask i ≠ 0 ↔ byte.toNat.testBit (i % 8) = true := by
  rw [ne_eq, ← UInt8.toNat_inj, UInt8.toNat_and, mask_toNat, Nat.and_two_pow]
  cases byte.toNat.testBit (i % 8) <;> simp

theorem has_iff (bits : BitSet) (i : Nat) :
    bits.has i = true ↔ (bits (i / 8)).toNat.testBit (i % 8) = true := by
  rw [has, decide_eq_true_iff, and_mask_ne_zero_iff]

theorem has_empty (i : Nat) : has (fun _ => 0) i = false := by
  rw [Bool.eq_false_iff, ne_eq, has_iff]
  simp

theorem has_full (i : Nat) : has (fun _ => 0xff) i = true := by
  rw [has_iff]
  have all : ∀ k : Fin 8, (0xff : UInt8).toNat.testBit k.val = true := by decide
  exact all ⟨i % 8, Nat.mod_lt i (by decide)⟩

theorem has_without (bits other : BitSet) {length i : Nat} (inside : i < 8 * length) :
    (bits.without other length).has i = true ↔ bits.has i = true ∧ other.has i = false := by
  have inBytes : i / 8 < length := by omega
  rw [Bool.eq_false_iff, ne_eq, has_iff, has_iff, has_iff, without, if_pos inBytes,
    UInt8.toNat_and, Nat.testBit_and, UInt8.toNat_not, show UInt8.size - 1 - (other (i / 8)).toNat =
      2 ^ 8 - ((other (i / 8)).toNat + 1) by change 2 ^ 8 - 1 - (other (i / 8)).toNat = _; omega,
    Nat.testBit_two_pow_sub_succ (other (i / 8)).toNat_lt]
  simp [Nat.mod_lt i (by decide : 0 < 8)]

end BitSet

end SbFuzz.Memory
