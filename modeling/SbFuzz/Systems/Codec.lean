import Mathlib.Algebra.Ring.Nat
import Mathlib.Data.List.Basic

/-! Byte streams that are written and read back value by value. -/

set_option autoImplicit false

namespace SbFuzz.Systems

/-- A writer, and a reader that takes back what was written and leaves the
rest of the stream. -/
structure Codec (Value : Type) where
  write : Value → List UInt8
  read : List UInt8 → Option (Value × List UInt8)
  read_write : ∀ value rest, read (write value ++ rest) = some (value, rest)

abbrev Block (length : Nat) : Type := { bytes : List UInt8 // bytes.length = length }

namespace Codec

variable {Value : Type}

/-- A fixed number of bytes as they are. -/
def block (length : Nat) : Codec (Block length) where
  write := Subtype.val
  read := fun stream =>
    if enough : length ≤ stream.length then
      some (⟨stream.take length, List.length_take_of_le enough⟩, stream.drop length)
    else none
  read_write := by
    intro value rest
    have enough : length ≤ (value.val ++ rest).length := by
      rw [List.length_append, value.property]
      exact Nat.le_add_right length rest.length
    rw [dif_pos enough]
    congr 2
    · exact Subtype.ext (List.take_left' value.property)
    · exact List.drop_left' value.property

/-- A little-endian word. -/
def u32 : Codec UInt32 where
  write := fun word =>
    [word.toUInt8, (word >>> 8).toUInt8, (word >>> 16).toUInt8, (word >>> 24).toUInt8]
  read := fun
    | a :: b :: c :: d :: rest =>
        some (.ofNat (a.toNat + 2 ^ 8 * (b.toNat + 2 ^ 8 * (c.toNat + 2 ^ 8 * d.toNat))), rest)
    | _ => none
  read_write := by
    intro word rest
    simp only [List.cons_append, List.nil_append, Option.some.injEq, Prod.mk.injEq, and_true]
    have bound := word.toNat_lt
    have byte : ∀ k : UInt32, k.toNat < 32 →
        (word >>> k).toUInt8.toNat = word.toNat / 2 ^ k.toNat % 2 ^ 8 := by
      intro k small
      rw [UInt32.toNat_toUInt8, UInt32.toNat_shiftRight, Nat.mod_eq_of_lt small,
        Nat.shiftRight_eq_div_pow]
    rw [← UInt32.toNat_inj, UInt32.toNat_ofNat', byte 8 (by decide), byte 16 (by decide),
      byte 24 (by decide), UInt32.toNat_toUInt8]
    have lengths : (8 : UInt32).toNat = 8 ∧ (16 : UInt32).toNat = 16 ∧ (24 : UInt32).toNat = 24 := by
      decide
    rw [lengths.1, lengths.2.1, lengths.2.2]
    omega

@[simp] theorem u32_write_length (word : UInt32) : (u32.write word).length = 4 := rfl

/-- A value behind a byte that says whether it is there. -/
def optional (codec : Codec Value) : Codec (Option Value) where
  write := fun
    | none => [0]
    | some value => 1 :: codec.write value
  read := fun
    | [] => none
    | flag :: stream =>
        if flag = 0 then some (none, stream)
        else (codec.read stream).map fun (value, rest) => (some value, rest)
  read_write := by
    intro value rest
    cases value with
    | none => rfl
    | some value => simp [codec.read_write]

end Codec

end SbFuzz.Systems
