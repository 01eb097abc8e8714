import SbFuzz.Fuzzer.RedqueenRtnProperties

/-! The transform part of `rtn_extend_encoding`: when it gives the test buffer back. -/

set_option autoImplicit false

namespace SbFuzz.Fuzzer.RedqueenRtn

open Redqueen (History Target TestState Run overwrite overwrite_inside overwrite_outside
  length_overwrite overwrite_same overwrite_overwrite overwrite_nil)
open RedqueenEncoding (unlessFound)
open Systems Systems.Program

section

variable (call : Call) {buf : List UInt8}

/-! ## Encoded candidates -/

/-- What was seen in front of a byte. -/
def encodingsAt (len : Nat) : Nat → Encodings
  | 0 => {}
  | i + 1 => (encodingsAt len i).measure call len i

/-- These are not taken back before the loop ends. -/
def stayingTexts (len n i : Nat) : List (List UInt8) :=
  let seen := encodingsAt call len (i + 1)
  fromBase64Texts call len n i seen ++ toBase64Texts call i seen ++ toHexTexts call i seen

def encodedTexts (len n i : Nat) : List (List UInt8) :=
  stayingTexts call len n i ++ fromHexTexts call len i (encodingsAt call len (i + 1))

/-! ## What every candidate keeps -/

theorem Counts.length_bytes (counts : Counts) (i : Nat) (transform : Transform) :
    (counts.bytes call i transform).length = i + 1 := by
  rw [Counts.bytes, List.length_map, List.length_range]

section

variable {kept : TestState → Prop} {stopped : Redqueen.Stop → TestState → Prop}

end

/-! ## The window -/

variable {n : Nat} {before : History}

def Call.byte (buf : List UInt8) (i : Nat) : UInt8 := buf.getD (call.idx + i) 0

def transformBytes (buf : List UInt8) (i : Nat) (transform : Transform) : List UInt8 :=
  (List.range (i + 1)).map fun j =>
    transform.undo (call.repl j) (call.pattern j ^^^ call.byte buf j)
      (call.pattern j - call.byte buf j)

/-- All bytes so far are transformed like this. -/
def Transform.fitsAll (buf : List UInt8) (i : Nat) (transform : Transform) : Bool :=
  (List.range (i + 1)).all fun j => transform.fits call j (call.byte buf j)

def patchesOf (buf : List UInt8) (i : Nat) (transforms : List Transform) : List Patch :=
  (transforms.filter (Transform.fitsAll call buf i)).map fun transform =>
    ⟨call.idx, transformBytes call buf i transform⟩

def transformsAt (buf : List UInt8) (i : Nat) : List Patch :=
  patchesOf call buf i [.xor, .arith, .toupper, .tolower]

def transformsFrom (buf : List UInt8) (i left : Nat) : List Patch :=
  (List.range' i left).flatMap (transformsAt call buf)

def transforms (buf : List UInt8) (n : Nat) : List Patch := transformsFrom call buf 0 n

/-- What is counted in front of a byte. -/
structure Counts.Of (buf : List UInt8) (i : Nat) (counts : Counts) : Prop where
  encodings : counts.encodings = encodingsAt call buf.length i
  fitting : ∀ transform, counts.fitting transform =
    (List.range i).countP fun j => transform.fits call j (call.byte buf j)
  xorVal : counts.xorVal = (List.range i).map fun j => call.pattern j ^^^ call.byte buf j
  arithVal : counts.arithVal = (List.range i).map fun j => call.pattern j - call.byte buf j

variable {call}

theorem Counts.Of.measure {counts : Counts} {i : Nat} (counted : counts.Of call buf i) :
    (counts.measure call buf.length i (call.byte buf i)).Of call buf (i + 1) := by
  refine ⟨?_, fun transform => ?_, ?_, ?_⟩
  · rw [Counts.measure, counted.encodings, encodingsAt]
  · rw [List.range_succ, List.countP_append, List.countP_singleton, ← counted.fitting transform,
      Counts.measure]
    dsimp only
    split <;> rfl
  · rw [List.range_succ, List.map_append, ← counted.xorVal]
    rfl
  · rw [List.range_succ, List.map_append, ← counted.arithVal]
    rfl

theorem Counts.Of.bytes {counts : Counts} {i : Nat} (counted : counts.Of call buf (i + 1))
    (transform : Transform) : counts.bytes call i transform = transformBytes call buf i transform := by
  refine List.map_congr_left fun j member => ?_
  have small := List.mem_range.mp member
  have value (f : Nat → UInt8) : ((List.range (i + 1)).map f).getD j 0 = f j := by
    rw [List.getD_eq_getElem _ _ (by simpa using small), List.getElem_map, List.getElem_range]
  rw [counted.xorVal, counted.arithVal, value, value]

/-! ## The search -/

variable (call) {total : Ending Patch (List UInt8)}

variable {call} {counts : Counts} {i : Nat}

end

end SbFuzz.Fuzzer.RedqueenRtn
