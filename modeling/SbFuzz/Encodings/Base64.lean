import Mathlib.Data.List.Basic

/-! The base64 encoding of RFC 4648. -/

set_option autoImplicit false

namespace SbFuzz.Encodings.Base64

def digit (v : Nat) : UInt8 :=
  if v < 26 then .ofNat (65 + v)
  else if v < 52 then .ofNat (97 + (v - 26))
  else if v < 62 then .ofNat (48 + (v - 52))
  else if v = 62 then 0x2b
  else 0x2f

def padding : UInt8 := 0x3d

/-- Three bytes, the first one on top. -/
def group (a b c : UInt8) : Nat := a.toNat * 65536 + b.toNat * 256 + c.toNat

/-- Six bits of a group, those of place 0 the lowest. -/
def sextet (group : Nat) : Nat → Nat
  | 0 => group % 64
  | place + 1 => sextet (group / 64) place

def character (group place : Nat) : UInt8 := digit (sextet group place)

def encode : List UInt8 → List UInt8
  | [] => []
  | [a] => [character (group a 0 0) 3, character (group a 0 0) 2, padding, padding]
  | [a, b] =>
    [character (group a b 0) 3, character (group a b 0) 2, character (group a b 0) 1, padding]
  | a :: b :: c :: rest =>
    character (group a b c) 3 :: character (group a b c) 2 :: character (group a b c) 1 ::
      character (group a b c) 0 :: encode rest

theorem length_encode (bytes : List UInt8) : (encode bytes).length = (bytes.length + 2) / 3 * 4 := by
  fun_induction encode bytes with
  | case1 => rfl
  | case2 a => simp
  | case3 a b => simp
  | case4 a b c rest ih => simp only [List.length_cons, ih]; omega

theorem sextet_lt (group place : Nat) : sextet group place < 64 := by
  induction place generalizing group with
  | zero => exact Nat.mod_lt _ (by decide)
  | succ place ih => exact ih _

theorem group_lt (a b c : UInt8) : group a b c < 16777216 := by
  have first := a.toNat_lt
  have second := b.toNat_lt
  have third := c.toNat_lt
  unfold group
  omega

/-- A group is made of its four sextets. -/
theorem sextets {v : Nat} (fits : v < 16777216) :
    ((sextet v 3 * 64 + sextet v 2) * 64 + sextet v 1) * 64 + sextet v 0 = v := by
  simp only [sextet]
  omega

theorem character_ne_padding (group place : Nat) : character group place ≠ padding := by
  have all : ∀ v < 64, digit v ≠ padding := by decide
  exact all _ (sextet_lt group place)

theorem bytes_group (a b c : UInt8) :
    UInt8.ofNat (group a b c / 65536) = a ∧ UInt8.ofNat (group a b c / 256) = b ∧
      UInt8.ofNat (group a b c) = c := by
  have first := a.toNat_lt
  have second := b.toNat_lt
  have third := c.toNat_lt
  simp only [← UInt8.toNat_inj, UInt8.toNat_ofNat', group]
  omega

end SbFuzz.Encodings.Base64
