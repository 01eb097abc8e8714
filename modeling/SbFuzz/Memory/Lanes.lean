import SbFuzz.Memory.Bytes

/-! Machine words as little-endian lists of bytes: the bitwise operations act byte by byte, and
a buffer is read and written as a list of words. -/

set_option autoImplicit false

namespace SbFuzz.Memory

/-- A type of machine words of `count` bytes. -/
class Lanes (W : Type) [AndOp W] [Complement W] where
  count : Nat
  zero : W
  toBitVec : W → BitVec (8 * count)
  ofBitVec : BitVec (8 * count) → W
  ofBitVec_toBitVec : ∀ word, ofBitVec (toBitVec word) = word
  toBitVec_ofBitVec : ∀ bits, toBitVec (ofBitVec bits) = bits
  toBitVec_and : ∀ left right, toBitVec (left &&& right) = toBitVec left &&& toBitVec right
  toBitVec_complement : ∀ word, toBitVec (~~~word) = ~~~toBitVec word
  toBitVec_zero : toBitVec zero = 0

instance : Lanes UInt32 where
  count := 4
  zero := 0
  toBitVec := UInt32.toBitVec
  ofBitVec := UInt32.ofBitVec
  ofBitVec_toBitVec := fun _ => rfl
  toBitVec_ofBitVec := fun _ => rfl
  toBitVec_and := UInt32.toBitVec_and
  toBitVec_complement := fun _ => UInt32.toBitVec_not
  toBitVec_zero := rfl

instance : Lanes UInt64 where
  count := 8
  zero := 0
  toBitVec := UInt64.toBitVec
  ofBitVec := UInt64.ofBitVec
  ofBitVec_toBitVec := fun _ => rfl
  toBitVec_ofBitVec := fun _ => rfl
  toBitVec_and := UInt64.toBitVec_and
  toBitVec_complement := fun _ => UInt64.toBitVec_not
  toBitVec_zero := rfl

namespace Lanes

variable {W : Type} [AndOp W] [Complement W] [Lanes W]

/-! ### The bytes of a word -/

def byte (word : W) (k : Nat) : UInt8 := UInt8.ofBitVec ((toBitVec word).extractLsb' (8 * k) 8)

def bytes (word : W) : List UInt8 := (List.range (count W)).map (byte word)

def ofBytes (buf : List UInt8) : W := ofBitVec (BitVec.ofNat _ (load (count W) buf 0))

@[simp] theorem length_bytes (word : W) : (bytes word).length = count W := by
  rw [bytes, List.length_map, List.length_range]

theorem getElem?_bytes (word : W) {k : Nat} (inside : k < count W) :
    (bytes word)[k]? = some (byte word k) := by
  rw [bytes, List.getElem?_map, List.getElem?_range inside, Option.map_some]

theorem bytes_eq_iff (left right : W) :
    bytes left = bytes right ↔ ∀ k < count W, byte left k = byte right k := by
  rw [bytes, bytes, List.map_inj_left]
  simp only [List.mem_range]

theorem bytes_injective {left right : W} (same : bytes left = bytes right) : left = right := by
  rw [bytes_eq_iff] at same
  rw [← ofBitVec_toBitVec left, ← ofBitVec_toBitVec right]
  congr 1
  apply BitVec.eq_of_getLsbD_eq
  intro i inside
  have sameByte := congrArg (fun value => value.toBitVec.getLsbD (i % 8)) (same (i / 8) (by omega))
  have low : i % 8 < 8 := Nat.mod_lt _ (by decide)
  simpa only [byte, BitVec.getLsbD_extractLsb', low, decide_true, Bool.true_and,
    Nat.div_add_mod] using sameByte

theorem byte_and (left right : W) (k : Nat) :
    byte (left &&& right) k = byte left k &&& byte right k := by
  rw [byte, toBitVec_and, BitVec.extractLsb'_and]
  rfl

theorem byte_complement (word : W) {k : Nat} (inside : k < count W) :
    byte (~~~word) k = ~~~byte word k := by
  apply UInt8.toBitVec_inj.mp
  apply BitVec.eq_of_getLsbD_eq
  intro i low
  have fits : 8 * k + i < 8 * count W := by omega
  rw [UInt8.toBitVec_not, byte, byte, toBitVec_complement]
  simp only [BitVec.getLsbD_extractLsb', BitVec.getLsbD_not, low, fits, decide_true, Bool.true_and]

theorem byte_zero (k : Nat) : byte (zero : W) k = 0 := by
  rw [byte, toBitVec_zero]
  simp

theorem bytes_zero : bytes (zero : W) = List.replicate (count W) 0 := by
  rw [bytes, List.map_congr_left fun k _ => byte_zero k, List.map_const', List.length_range]

theorem bytes_and (left right : W) :
    bytes (left &&& right) = List.zipWith (· &&& ·) (bytes left) (bytes right) := by
  rw [bytes, bytes, bytes, List.zipWith_map, List.zipWith_self]
  exact List.map_congr_left fun k _ => byte_and left right k

theorem bytes_complement (word : W) : bytes (~~~word) = (bytes word).map (~~~·) := by
  rw [bytes, bytes, List.map_map]
  exact List.map_congr_left fun k member => byte_complement word (List.mem_range.mp member)

theorem eq_zero_iff (word : W) : word = zero ↔ ∀ value ∈ bytes word, value = 0 := by
  constructor
  · intro isZero value member
    subst isZero
    rw [bytes_zero] at member
    exact List.eq_of_mem_replicate member
  · intro all
    apply bytes_injective
    rw [bytes_zero]
    exact List.eq_replicate_iff.mpr ⟨length_bytes word, all⟩

theorem bytes_ofBytes {buf : List UInt8} (length : buf.length = count W) :
    bytes (ofBytes buf : W) = buf := by
  apply List.ext_getElem?
  intro k
  by_cases inside : k < count W
  · rw [getElem?_bytes _ inside, List.getElem?_eq_getElem (by omega), Option.some_inj]
    apply UInt8.toBitVec_inj.mp
    apply BitVec.eq_of_getLsbD_eq
    intro i low
    have fits : 8 * k + i < 8 * count W := by omega
    have position : (8 * k + i) / 8 = k ∧ (8 * k + i) % 8 = i := by omega
    simp only [byte, ofBytes, toBitVec_ofBitVec, BitVec.getLsbD_extractLsb', low, decide_true,
      Bool.true_and, BitVec.getLsbD_ofNat, fits, testBit_load, Nat.mul_zero, Nat.zero_add, bit,
      position.1, position.2, List.getD_eq_getElem _ _ (show k < buf.length by omega)]
    rfl
  · rw [List.getElem?_eq_none (by rw [length_bytes]; omega), List.getElem?_eq_none (by omega)]

/-! ### Buffers of words -/

/-- The first `n` words of a buffer. -/
def words (W : Type) [AndOp W] [Complement W] [Lanes W] : Nat → List UInt8 → List W
  | 0, _ => []
  | n + 1, buf => ofBytes (buf.take (count W)) :: words W n (buf.drop (count W))

def flat (mem : List W) : List UInt8 := mem.flatMap bytes

theorem flat_cons (word : W) (mem : List W) : flat (word :: mem) = bytes word ++ flat mem := rfl

@[simp] theorem length_words (n : Nat) (buf : List UInt8) : (words W n buf).length = n := by
  induction n generalizing buf with
  | zero => rfl
  | succ n ih => rw [words, List.length_cons, ih]

theorem flat_words {n : Nat} {buf : List UInt8} (length : buf.length = n * count W) :
    flat (words W n buf) = buf := by
  induction n generalizing buf with
  | zero =>
      rw [Nat.zero_mul, List.length_eq_zero_iff] at length
      rw [length]
      rfl
  | succ n ih =>
      rw [Nat.succ_mul] at length
      rw [words, flat_cons, bytes_ofBytes (by rw [List.length_take]; omega),
        ih (by rw [List.length_drop]; omega), List.take_append_drop]

end Lanes

end SbFuzz.Memory
