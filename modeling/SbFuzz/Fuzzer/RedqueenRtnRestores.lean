import SbFuzz.Fuzzer.RedqueenRtnTransforms

/-! When `rtn_extend_encoding` gives the test buffer back. -/

set_option autoImplicit false

namespace SbFuzz.Fuzzer.RedqueenRtn

open Redqueen (History Target TestState Run itsFuzz overwrite overwrite_inside overwrite_outside
  length_overwrite overwrite_same overwrite_overwrite overwrite_nil)
open RedqueenEncoding (unlessFound)
open Systems Systems.Program

/-! ## Executions that find nothing -/

section

variable {call : Call} {buf : List UInt8} {n i : Nat} {history : History}

/-- A text of so many bytes is restored wherever the loop ends. -/
def Fits (call : Call) (len n i m : Nat) : Prop :=
  m ≤ n ∧ ∀ k, i ≤ k → k < n → (encodingsAt call len (k + 1)).gone k → m ≤ k

/-- No encoded text reaches behind the window, and none that stays behind the byte where the loop
gives up. -/
structure Contained (call : Call) (len n : Nat) : Prop where
  window : ∀ i < n, ∀ text ∈ encodedTexts call len n i, text.length ≤ n
  loop : ∀ i < n, ∀ text ∈ stayingTexts call len n i, Fits call len n (i + 1) text.length

def Quiet (target : Target) (history : History) : Prop :=
  ∀ more, more ≠ [] → target.finds (more ++ history) = false

def Covered (call : Call) (buf : List UInt8) (n i : Nat) (other : List UInt8) : Prop :=
  ∃ bytes, Fits call buf.length n i bytes.length ∧ other = overwrite buf call.idx bytes

theorem Fits.next {len m : Nat} (fits : Fits call len n i m) : Fits call len n (i + 1) m :=
  ⟨fits.1, fun k after => fits.2 k (by omega)⟩

theorem Fits.max {len m m' : Nat} (first : Fits call len n i m) (second : Fits call len n i m') :
    Fits call len n i (max m m') :=
  ⟨Nat.max_le.mpr ⟨first.1, second.1⟩, fun k after within gone =>
    Nat.max_le.mpr ⟨first.2 k after within gone, second.2 k after within gone⟩⟩

theorem restored {bytes : List UInt8} {i : Nat} (inside : call.idx + i ≤ buf.length)
    (short : bytes.length ≤ i) :
    overwrite (overwrite buf call.idx bytes) call.idx ((buf.drop call.idx).take i) = buf := by
  have length : ((buf.drop call.idx).take i).length = i :=
    List.length_take_of_le (by rw [List.length_drop]; omega)
  rw [overwrite_overwrite (by omega), length, List.drop_eq_nil_of_le short, List.append_nil,
    overwrite_same]

/-- The candidate found ends with the byte that was there. -/
def Safe (buf : List UInt8) (total : Ending Patch (List UInt8)) : Prop :=
  ∀ patch, total = .accepted patch →
    patch.bytes.getLast? = buf[patch.start + (patch.bytes.length - 1)]?

end

/-! ## The function -/

section

variable (call : Call) (st : TestState)

/-- The test buffer is given back unless the call is aborted, and neither it nor anything that
was executed is different outside of the bytes that may be changed. -/
structure Keeps : Prop where
  back : ∀ value, (rtnExtendEncoding call st).1 = .ok value →
    (rtnExtendEncoding call st).2.buf = st.buf
  frame : Framed call.idx (call.itsLen st) st.buf st.executed (rtnExtendEncoding call st).2

/-- No encoded text is tried. -/
def Plain : Prop :=
  ∀ i < call.itsLen st, encodedTexts call st.buf.length (call.itsLen st) i = []

instance : Decidable (Plain call st) :=
  inferInstanceAs (Decidable (∀ i < call.itsLen st,
    encodedTexts call st.buf.length (call.itsLen st) i = []))

/-- If the transform part is entered, then what it finds first ends with the byte that was
there, or it finds nothing and its encoded texts are restored. -/
def Harmless : Prop :=
  call.admits (call.itsLen st) → call.cmplogEnableTransform ∧ call.lvl3 → st.status ≠ 1 →
    ∀ history,
      searchPatches call.target st.buf st.executed (directs call st.buf (call.itsLen st)) =
        .spent history →
      Plain call st ∧
          Safe st.buf
            (searchPatches call.target st.buf history (transforms call st.buf (call.itsLen st))) ∨
        Contained call st.buf.length (call.itsLen st) ∧ Quiet call.target history

variable {call st}

end

/-! ### A candidate that is found -/

def area (bytes : List UInt8) : Vector UInt8 32 := Vector.ofFn fun i => bytes.getD i.val 0

def compared : TestState where
  buf := [1, 2]
  cbuf := [3, 4]
  status := 0
  hshape := 2
  executed := []

end SbFuzz.Fuzzer.RedqueenRtn
