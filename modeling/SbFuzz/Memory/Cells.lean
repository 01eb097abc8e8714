import Mathlib.Algebra.Order.Ring.Int
import Mathlib.Data.List.GetD
import Mathlib.Logic.Function.Basic

/-! Memory without bounds, and what is written to it from a position on. -/

set_option autoImplicit false

namespace SbFuzz.Memory

/-- What a pointer points to, and what stands behind it. -/
abbrev Cells := Nat → UInt8

def put (dst : Cells) (pos : Nat) (bytes : List UInt8) : Cells := fun k =>
  if k < pos then dst k else bytes.getD (k - pos) (dst k)

theorem put_append (dst : Cells) (pos : Nat) (first rest : List UInt8) :
    put (put dst pos first) (pos + first.length) rest = put dst pos (first ++ rest) := by
  funext k
  unfold put
  by_cases before : k < pos
  · rw [if_pos (by omega), if_pos before, if_pos before]
  · rw [if_neg before, if_neg before]
    by_cases inFirst : k < pos + first.length
    · rw [if_pos inFirst, List.getD_append _ _ _ _ (by omega)]
    · have behind : first.length ≤ k - pos := by omega
      rw [if_neg inFirst, List.getD_append_right _ _ _ _ behind, Nat.sub_sub,
        List.getD_eq_default first _ behind]

theorem put_nil (dst : Cells) (pos : Nat) : put dst pos [] = dst := by
  funext k
  exact ite_self _

theorem put_before (dst : Cells) {pos k : Nat} (bytes : List UInt8) (before : k < pos) :
    put dst pos bytes k = dst k := if_pos before

theorem put_at (dst : Cells) (pos : Nat) {bytes : List UInt8} {k : Nat}
    (inside : k < bytes.length) : put dst pos bytes (pos + k) = bytes[k] := by
  unfold put
  rw [if_neg (by omega), Nat.add_sub_cancel_left, List.getD_eq_getElem _ _ inside]

theorem put_set (dst : Cells) (pos : Nat) {bytes : List UInt8} {k : Nat}
    (inside : k < bytes.length) (byte : UInt8) :
    put (put dst pos bytes) (pos + k) [byte] = put dst pos (bytes.set k byte) := by
  funext p
  unfold put
  by_cases before : p < pos + k
  · rw [if_pos before]
    split
    · rfl
    · next behind =>
      have other : k ≠ p - pos := by omega
      rw [List.getD_eq_getElem?_getD, List.getD_eq_getElem?_getD, List.getElem?_set_ne other]
  · have behind : ¬p < pos := by omega
    simp only [if_neg before, if_neg behind]
    by_cases here : p = pos + k
    · have still : k < (bytes.set k byte).length := by rwa [List.length_set]
      rw [here, Nat.sub_self, Nat.add_sub_cancel_left, List.getD_eq_getElem _ _ still,
        List.getElem_set_self]
      rfl
    · have other : k ≠ p - pos := by omega
      rw [List.getD_eq_default [byte] _ (by rw [List.length_singleton]; omega),
        List.getD_eq_getElem?_getD, List.getD_eq_getElem?_getD, List.getElem?_set_ne other]

theorem put_outside (dst : Cells) {pos k : Nat} {bytes : List UInt8}
    (outside : pos + bytes.length ≤ k) : put dst pos bytes k = dst k := by
  unfold put
  rw [if_neg (by omega), List.getD_eq_default _ _ (by omega)]

theorem put_inside (dst : Cells) (pos : Nat) (bytes : List UInt8) :
    (List.range' pos bytes.length).map (put dst pos bytes) = bytes := by
  refine List.ext_getElem (by simp) fun k _ inside => ?_
  rw [List.getElem_map, List.getElem_range', Nat.one_mul, put_at dst pos inside]

/-! Machine words: arithmetic that wraps around, and little-endian words of four bytes in
memory. -/

/-- What a word of so many bits keeps of a number. -/
def wrap (bits : Nat) (value : Int) : Nat := (value % 2 ^ bits).toNat

theorem wrap_of_lt {bits value : Nat} (small : value < 2 ^ bits) : wrap bits value = value := by
  unfold wrap
  rw [Int.emod_eq_of_lt (Int.natCast_nonneg value) (by exact_mod_cast small), Int.toNat_natCast]

theorem wrap_sub {bits value taken : Nat} (enough : taken ≤ value) (small : value < 2 ^ bits) :
    wrap bits (value - taken) = value - taken := by
  rw [← Int.natCast_sub enough]
  exact wrap_of_lt (Nat.lt_of_le_of_lt (Nat.sub_le _ _) small)

/-! ## Words in memory -/

def dword (mem : Cells) (pos : Nat) : Nat :=
  (mem pos).toNat + 2 ^ 8 * ((mem (pos + 1)).toNat +
    2 ^ 8 * ((mem (pos + 2)).toNat + 2 ^ 8 * (mem (pos + 3)).toNat))

def dwordBytes (value : Nat) : List UInt8 :=
  [UInt8.ofNat value, UInt8.ofNat (value / 2 ^ 8), UInt8.ofNat (value / 2 ^ 16),
    UInt8.ofNat (value / 2 ^ 24)]

theorem dword_congr {mem other : Cells} {pos : Nat}
    (same : ∀ k, pos ≤ k → k < pos + 4 → other k = mem k) : dword other pos = dword mem pos := by
  unfold dword
  rw [same pos (by omega) (by omega), same (pos + 1) (by omega) (by omega),
    same (pos + 2) (by omega) (by omega), same (pos + 3) (by omega) (by omega)]

theorem dword_put (mem : Cells) (pos value : Nat) :
    dword (put mem pos (dwordBytes value)) pos = value % 2 ^ 32 := by
  have length : (dwordBytes value).length = 4 := rfl
  have byte {k : Nat} (inside : k < (dwordBytes value).length) := put_at mem pos inside
  have first := byte (k := 0) (by omega)
  have second := byte (k := 1) (by omega)
  have third := byte (k := 2) (by omega)
  have fourth := byte (k := 3) (by omega)
  simp only [Nat.add_zero, dwordBytes, List.getElem_cons_zero, List.getElem_cons_succ] at *
  unfold dword
  rw [first, second, third, fourth]
  simp only [UInt8.toNat_ofNat']
  omega

/-! ## Blocks

Their numbers are given out one after another and never again. -/

abbrev Block := Nat

structure Heap where
  contents : Block → Cells
  next : Block

def Heap.load (heap : Heap) (block : Block) (len : Nat) : List UInt8 :=
  (List.range len).map (heap.contents block)

def Heap.store (heap : Heap) (block : Block) (bytes : List UInt8) : Heap :=
  { heap with contents :=
      Function.update heap.contents block (put (heap.contents block) 0 bytes) }

/-- How a request for more memory ends, and what the memory holds then. -/
inductive Growth where
  | failed
  | stays (contents : Cells)
  | moves (contents : Cells)

def Heap.grow (heap : Heap) (block : Block) : Growth → Option (Heap × Block)
  | .failed => none
  | .stays contents =>
      some ({ heap with contents := Function.update heap.contents block contents }, block)
  | .moves contents =>
      some (⟨Function.update heap.contents heap.next contents, heap.next + 1⟩, heap.next)

section

variable {heap after : Heap} {block other grown : Block}

end

end SbFuzz.Memory
