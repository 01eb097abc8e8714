import SbFuzz.Memory.Bytes
import SbFuzz.Systems.Draws

/-! Accesses to buffers of fixed size, of which each one crashes that leaves its
buffer. -/

set_option autoImplicit false

namespace SbFuzz.Systems.Buffers

open Draws

def loadByte (mem : List UInt8) (pos : Nat) : Draws UInt8 := fetch mem[pos]?

def storeByte (mem : List UInt8) (pos : Nat) (byte : UInt8) : Draws (List UInt8) :=
  if pos < mem.length then pure (mem.set pos byte) else stop .crashed

/-- The little-endian word of `width` bytes. -/
def loadWord (width : Nat) (mem : List UInt8) (pos : Nat) : Draws Nat :=
  if pos + width ≤ mem.length then pure (Memory.load width mem pos) else stop .crashed

def storeWord (width : Nat) (mem : List UInt8) (pos value : Nat) : Draws (List UInt8) :=
  if pos + width ≤ mem.length then pure (Memory.store width mem pos value) else stop .crashed

/-- `count` bytes from a buffer into another, or into itself, of which it then
reads all before it writes one. -/
def copy (dst : List UInt8) (dstPos : Nat) (src : List UInt8) (srcPos count : Nat) :
    Draws (List UInt8) :=
  if srcPos + count ≤ src.length ∧ dstPos + count ≤ dst.length then
    pure (dst.take dstPos ++ (src.drop srcPos).take count ++ dst.drop (dstPos + count))
  else stop .crashed

def fill (dst : List UInt8) (dstPos : Nat) (byte : UInt8) (count : Nat) : Draws (List UInt8) :=
  copy dst dstPos (List.replicate count byte) 0 count

/-! ## Accesses inside -/

variable {crashes : Prop} {mem dst src : List UInt8} {pos dstPos srcPos count width : Nat}

theorem loadByte_returns (inside : pos < mem.length) :
    Returns crashes (fun _ => True) (loadByte mem pos) :=
  Returns.fetch_lt inside

theorem storeByte_returns (inside : pos < mem.length) (byte : UInt8) :
    Returns crashes (fun after => after.length = mem.length) (storeByte mem pos byte) := by
  unfold storeByte
  rw [if_pos inside]
  exact Returns.pure List.length_set

theorem loadWord_returns (inside : pos + width ≤ mem.length) :
    Returns crashes (fun _ => True) (loadWord width mem pos) := by
  unfold loadWord
  rw [if_pos inside]
  exact Returns.pure trivial

theorem storeWord_returns (inside : pos + width ≤ mem.length) (value : Nat) :
    Returns crashes (fun after => after.length = mem.length) (storeWord width mem pos value) := by
  unfold storeWord
  rw [if_pos inside]
  exact Returns.pure (Memory.length_store width mem pos value)

theorem copy_returns (read : srcPos + count ≤ src.length) (written : dstPos + count ≤ dst.length) :
    Returns crashes (fun after => after.length = dst.length)
      (copy dst dstPos src srcPos count) := by
  unfold copy
  rw [if_pos ⟨read, written⟩]
  refine Returns.pure ?_
  simp only [List.length_append, List.length_take, List.length_drop]
  omega

theorem fill_returns (written : dstPos + count ≤ dst.length) (byte : UInt8) :
    Returns crashes (fun after => after.length = dst.length) (fill dst dstPos byte count) :=
  copy_returns (by rw [List.length_replicate, Nat.zero_add]) written

end SbFuzz.Systems.Buffers
