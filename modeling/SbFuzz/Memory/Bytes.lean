import Mathlib.Data.Nat.Bitwise
import Mathlib.Algebra.Ring.Nat

/-! Byte buffers: little-endian words in them, and the bits in which two buffers
of one length differ. -/

set_option autoImplicit false

namespace SbFuzz.Memory

/-- Bit `t` of a buffer, from the lowest bit of the first byte on. -/
def bit (buf : List UInt8) (t : Nat) : Bool := (buf.getD (t / 8) 0).toNat.testBit (t % 8)

/-- The little-endian word of `n` bytes at `i`. -/
def load : Nat → List UInt8 → Nat → Nat
  | 0, _, _ => 0
  | n + 1, buf, i => (buf.getD i 0).toNat + 2 ^ 8 * load n buf (i + 1)

/-- The word of `n` bytes at `i` is overwritten. -/
def store (n : Nat) (buf : List UInt8) (i v : Nat) : List UInt8 :=
  buf.mapIdx fun k byte => if i ≤ k ∧ k < i + n then UInt8.ofNat (v >>> (8 * (k - i))) else byte

@[simp] theorem length_store (n : Nat) (buf : List UInt8) (i v : Nat) :
    (store n buf i v).length = buf.length := List.length_mapIdx

/-- Words of so many bits are equal when these are. -/
theorem eq_of_testBit_below {n x y : Nat} (fitsX : x < 2 ^ n) (fitsY : y < 2 ^ n)
    (same : ∀ s < n, x.testBit s = y.testBit s) : x = y := by
  refine Nat.eq_of_testBit_eq fun s => ?_
  by_cases below : s < n
  · exact same s below
  · have large : 2 ^ n ≤ 2 ^ s := Nat.pow_le_pow_right (by decide) (Nat.le_of_not_lt below)
    rw [Nat.testBit_lt_two_pow (Nat.lt_of_lt_of_le fitsX large),
      Nat.testBit_lt_two_pow (Nat.lt_of_lt_of_le fitsY large)]

theorem testBit_load (n : Nat) (buf : List UInt8) (i s : Nat) :
    (load n buf i).testBit s = (decide (s < 8 * n) && bit buf (8 * i + s)) := by
  induction n generalizing i s with
  | zero => simp [load]
  | succ n ih =>
      have byte : (buf.getD i 0).toNat < 2 ^ 8 := UInt8.toNat_lt _
      rw [load, Nat.add_comm, Nat.testBit_two_pow_mul_add _ byte]
      split
      · next low =>
        have position : (8 * i + s) / 8 = i ∧ (8 * i + s) % 8 = s := by omega
        rw [bit, position.1, position.2, decide_eq_true (by omega), Bool.true_and]
      · next high =>
        have inside : (s - 8 < 8 * n) ↔ s < 8 * (n + 1) := by omega
        have position : 8 * (i + 1) + (s - 8) = 8 * i + s := by omega
        rw [ih, position, decide_eq_decide.mpr inside]

theorem load_lt (n : Nat) (buf : List UInt8) (i : Nat) : load n buf i < 2 ^ (8 * n) := by
  refine Nat.lt_pow_two_of_testBit _ fun s high => ?_
  rw [testBit_load, decide_eq_false (Nat.not_lt.mpr high), Bool.false_and]

theorem load_add (m n : Nat) (buf : List UInt8) (i : Nat) :
    load (m + n) buf i = load m buf i + 2 ^ (8 * m) * load n buf (i + m) := by
  refine Nat.eq_of_testBit_eq fun s => ?_
  rw [Nat.add_comm (load m buf i), Nat.testBit_two_pow_mul_add _ (load_lt m buf i)]
  simp only [testBit_load]
  split
  · next low =>
    rw [decide_eq_true (by omega), decide_eq_true low]
  · next high =>
    have inside : s < 8 * (m + n) ↔ s - 8 * m < 8 * n := by omega
    have position : 8 * (i + m) + (s - 8 * m) = 8 * i + s := by omega
    rw [position, decide_eq_decide.mpr inside]

theorem load_low (m n : Nat) (buf : List UInt8) (i : Nat) :
    load (m + n) buf i % 2 ^ (8 * m) = load m buf i := by
  rw [load_add, Nat.add_mul_mod_self_left, Nat.mod_eq_of_lt (load_lt m buf i)]

theorem load_high (m n : Nat) (buf : List UInt8) (i : Nat) :
    load (m + n) buf i / 2 ^ (8 * m) = load n buf (i + m) := by
  rw [load_add, Nat.add_mul_div_left _ _ (Nat.two_pow_pos _), Nat.div_eq_of_lt (load_lt m buf i),
    Nat.zero_add]

theorem bit_store {n : Nat} {buf : List UInt8} {i : Nat} (inside : i + n ≤ buf.length) (v t : Nat) :
    bit (store n buf i v) t =
      if 8 * i ≤ t ∧ t < 8 * (i + n) then v.testBit (t - 8 * i) else bit buf t := by
  have word : (8 * i ≤ t ∧ t < 8 * (i + n)) ↔ i ≤ t / 8 ∧ t / 8 < i + n := by omega
  unfold bit store
  by_cases within : t / 8 < buf.length
  · rw [List.getD_eq_getElem _ _ (by rw [List.length_mapIdx]; exact within), List.getElem_mapIdx,
      List.getD_eq_getElem _ _ within, if_congr word rfl rfl]
    split
    · have position : 8 * (t / 8 - i) + t % 8 = t - 8 * i := by omega
      rw [UInt8.toNat_ofNat', Nat.testBit_mod_two_pow, Nat.testBit_shiftRight, position,
        decide_eq_true (by omega), Bool.true_and]
    · rfl
  · rw [List.getD_eq_default _ _ (by rw [List.length_mapIdx]; omega),
      List.getD_eq_default _ _ (by omega), if_neg (by omega)]

theorem ext_bit {a b : List UInt8} (length : a.length = b.length) (same : ∀ t, bit a t = bit b t) :
    a = b := by
  refine List.ext_getElem length fun k inA inB => UInt8.toNat_inj.mp ?_
  refine eq_of_testBit_below (UInt8.toNat_lt _) (UInt8.toNat_lt _) fun s low => ?_
  have position : (8 * k + s) / 8 = k ∧ (8 * k + s) % 8 = s := by omega
  have here := same (8 * k + s)
  rw [bit, bit, position.1, position.2, List.getD_eq_getElem _ _ inA,
    List.getD_eq_getElem _ _ inB] at here
  exact here

/-! ## Buffers that differ in a mask -/

/-- A buffer of the same length that differs in the bits of the mask. -/
structure Differs (input other : List UInt8) (mask : Nat) : Prop where
  length : other.length = input.length
  bits : ∀ t, bit other t = (bit input t ^^ mask.testBit t)

theorem Differs.refl (input : List UInt8) : Differs input input 0 where
  length := rfl
  bits t := by rw [Nat.zero_testBit, Bool.xor_false]

theorem Differs.unique {input a b : List UInt8} {mask : Nat} (first : Differs input a mask)
    (second : Differs input b mask) : a = b :=
  ext_bit (first.length.trans second.length.symm) fun t =>
    (first.bits t).trans (second.bits t).symm

theorem Differs.mask_eq {input other : List UInt8} {first second : Nat}
    (left : Differs input other first) (right : Differs input other second) : first = second := by
  refine Nat.eq_of_testBit_eq fun t => ?_
  have same := (left.bits t).symm.trans (right.bits t)
  rwa [Bool.xor_right_inj] at same

theorem Differs.trans {a b c : List UInt8} {first second : Nat} (left : Differs a b first)
    (right : Differs b c second) : Differs a c (first ^^^ second) where
  length := right.length.trans left.length
  bits t := by rw [right.bits, left.bits, Nat.testBit_xor, Bool.xor_assoc]

theorem Differs.store {n : Nat} {input : List UInt8} {i v : Nat} (inside : i + n ≤ input.length)
    (fits : v < 2 ^ (8 * n)) :
    Differs input (store n input i v) ((load n input i ^^^ v) <<< (8 * i)) where
  length := length_store n input i v
  bits t := by
    rw [bit_store inside, Nat.testBit_shiftLeft, Nat.testBit_xor, testBit_load]
    split
    · next word =>
      have position : 8 * i + (t - 8 * i) = t := by omega
      rw [decide_eq_true word.1, decide_eq_true (by omega), position]
      simp
    · next outside =>
      by_cases above : 8 * i ≤ t
      · have high : 2 ^ (8 * n) ≤ 2 ^ (t - 8 * i) := Nat.pow_le_pow_right (by decide) (by omega)
        have beyond : ¬ t - 8 * i < 8 * n := by omega
        rw [Nat.testBit_lt_two_pow (Nat.lt_of_lt_of_le fits high), decide_eq_false beyond]
        simp
      · rw [decide_eq_false above]
        simp

theorem store_store {n : Nat} {buf : List UInt8} {i : Nat} (inside : i + n ≤ buf.length)
    (v w : Nat) : Memory.store n (Memory.store n buf i v) i w = Memory.store n buf i w := by
  refine ext_bit (by simp) fun t => ?_
  rw [bit_store (by rwa [length_store]), bit_store inside, bit_store inside]
  split <;> rfl

theorem store_load {n : Nat} {buf : List UInt8} {i : Nat} (inside : i + n ≤ buf.length) :
    Memory.store n buf i (load n buf i) = buf := by
  have unchanged := Differs.store inside (load_lt n buf i)
  rw [Nat.xor_self, Nat.zero_shiftLeft] at unchanged
  exact unchanged.unique (.refl buf)

theorem store_restore {n : Nat} {buf : List UInt8} {i : Nat} (inside : i + n ≤ buf.length)
    (v : Nat) : Memory.store n (Memory.store n buf i v) i (load n buf i) = buf := by
  rw [store_store inside, store_load inside]

end SbFuzz.Memory
