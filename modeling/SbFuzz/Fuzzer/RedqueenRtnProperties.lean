import SbFuzz.Fuzzer.RedqueenRtn
import SbFuzz.Systems.Bisection

/-! `rtn_extend_encoding` as a search through candidates, and what it leaves in the test
buffer. -/

set_option autoImplicit false

namespace SbFuzz.Fuzzer.RedqueenRtn

open Redqueen (History Target TestState Run itsFuzz itsFuzz_ensures overwrite overwrite_inside
  overwrite_outside length_overwrite overwrite_back overwrite_same overwrite_overwrite overwrite_nil)
open RedqueenEncoding (unlessFound)
open Systems Systems.Program

/-! ## Windows -/

/-- Only so many bytes from an index on may be different. -/
structure Window (idx n : Nat) (buf other : List UInt8) : Prop where
  length : other.length = buf.length
  outside : ∀ p, p < idx ∨ idx + n ≤ p → other[p]? = buf[p]?

theorem Window.refl (idx n : Nat) (buf : List UInt8) : Window idx n buf buf := ⟨rfl, fun _ _ => rfl⟩

/-- What is written outside of the window stood there before. -/
theorem Window.write {idx n start : Nat} {buf other bytes : List UInt8}
    (window : Window idx n buf other) (fits : start + bytes.length ≤ buf.length)
    (same : ∀ k < bytes.length, start + k < idx ∨ idx + n ≤ start + k →
      bytes[k]? = buf[start + k]?) :
    Window idx n buf (overwrite other start bytes) := by
  have fits' : start + bytes.length ≤ other.length := by rw [window.length]; exact fits
  refine ⟨(length_overwrite fits').trans window.length, fun p outside => ?_⟩
  by_cases written : start ≤ p ∧ p < start + bytes.length
  · have here := same (p - start) (by omega) (by rwa [Nat.add_sub_cancel' written.1])
    rw [overwrite_inside fits' written.1 written.2, here, Nat.add_sub_cancel' written.1]
  · rw [overwrite_outside fits' (by omega), window.outside p outside]

/-- The buffer and all that was executed is the same outside of the window. -/
structure Framed (idx n : Nat) (buf : List UInt8) (before : History) (st : TestState) : Prop where
  window : Window idx n buf st.buf
  shown : ∃ executed, st.executed = executed ++ before ∧
    ∀ other ∈ executed, Window idx n buf other

theorem Framed.write {idx n start : Nat} {buf bytes : List UInt8} {before : History}
    {st : TestState} (framed : Framed idx n buf before st)
    (fits : start + bytes.length ≤ buf.length)
    (same : ∀ k < bytes.length, start + k < idx ∨ idx + n ≤ start + k →
      bytes[k]? = buf[start + k]?) :
    Framed idx n buf before { st with buf := overwrite st.buf start bytes } :=
  ⟨framed.window.write fits same, framed.shown⟩

section

variable (call : Call) {buf : List UInt8}

def replBytes (n : Nat) : List UInt8 := (List.range n).map call.repl

end

/-! ## Searches -/

structure Patch where
  start : Nat
  bytes : List UInt8

def Patch.applied (buf : List UInt8) (patch : Patch) : List UInt8 :=
  overwrite buf patch.start patch.bytes

def searchPatches (target : Target) (buf : List UInt8) :
    History → List Patch → Ending Patch (List UInt8) :=
  search ⟨target.aborts, target.finds⟩ (Patch.applied buf)

section

variable (call : Call) {buf : List UInt8} {total : Ending Patch (List UInt8)}

def Open (target : Target) (buf : List UInt8) (total : Ending Patch (List UInt8))
    (rest : List Patch) (st : TestState) : Prop :=
  st.status ≠ 1 ∧ total = searchPatches target buf st.executed rest

/-- The replacement is taken byte by byte, as long as the comparison goes. -/
def directPatches (buf : List UInt8) (start left i : Nat) : List Patch :=
  ((List.range' i left).takeWhile (call.matches buf start)).map fun i =>
    ⟨start, replBytes call (i + 1)⟩

def directsFrom (buf : List UInt8) (n : Nat) (pres : List Nat) : List Patch :=
  pres.flatMap fun pre =>
    if call.continues buf pre then directPatches call buf (call.idx - pre) (n + pre) 0 else []

def directs (buf : List UInt8) (n : Nat) : List Patch :=
  directsFrom call buf n (List.range' call.fromPre (call.toPre + 1 - call.fromPre))

def Progress (target : Target) (buf : List UInt8) (total : Ending Patch (List UInt8))
    (rest : List Patch) (st : TestState) : Prop :=
  Open target buf total rest st ∨ st.status = 1 ∧ ∃ patch, total = .accepted patch

end

end SbFuzz.Fuzzer.RedqueenRtn
