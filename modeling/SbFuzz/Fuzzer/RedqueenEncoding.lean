import SbFuzz.Fuzzer.RedqueenAtoi
import SbFuzz.Fuzzer.RedqueenItsFuzz
import SbFuzz.Memory.Bytes

/-! `cmp_extend_encoding` and `cmp_extend_encodingN`: the candidates for one comparison,
written to the test buffer one after another. -/

set_option autoImplicit false

namespace SbFuzz.Fuzzer.RedqueenEncoding

open Memory (Cells)
open Redqueen (History Target TestState Run itsFuzz tryBytes leBytes scaleMode scaleModeN isFp lvl3)
open RedqueenAtoi (reverseAtoi)
open Systems Systems.Program

/-! ## Arguments -/

def isEqual : UInt8 := 1

def isGreater : UInt8 := 2

def isLesser : UInt8 := 4

def isFpMod : UInt8 := 16

def isIntMod : UInt8 := 32

def isTransform : UInt8 := 64

def lvl1 : UInt8 := 1

/-- What stays the same in all nested calls. -/
structure Call where
  target : Target
  cmplogEnableTransform : Bool
  cmplogEnableScale : Bool
  cmplogEnableArith : Bool
  wordSize64 : Bool
  lvl : UInt8
  idx : Nat
  taintLen : Nat
  origBuf : List UInt8
  /-- Whether errno is `ERANGE`, and what the scratch buffer holds. -/
  errno : History → Bool
  scratch : History → Cells
  /-- One is added to or taken from a float of so many bytes. -/
  step : Nat → Bool → UInt64 → UInt64
  /-- A double made a float. -/
  narrow : UInt64 → UInt64
  /-- `SWAPN` shifts by more than 128 bits, which is not defined. -/
  swapN : Nat → BitVec 128 → BitVec 128

def Call.itsLen (call : Call) (st : TestState) : Nat := min (st.buf.length - call.idx) call.taintLen

structure Args where
  pattern : UInt64
  repl : UInt64
  oPattern : UInt64
  changedVal : UInt64
  attr : UInt8
  doReverse : Bool

/-- `bytes`, before it is cut to the bytes that are left. -/
def shapeBytes : Nat → Nat
  | 0 | 1 => 1
  | 2 => 2
  | 3 | 4 => 4
  | _ => 8

section

variable (call : Call) (recurse : Args → Run Unit) (args : Args)

def unlessFound (program : Run Unit) : Run Unit := do
  let st ← look
  if st.status = 1 then pure () else program

/-! ## Transformations -/

def atoi : Run Unit := do
  let st ← look
  match reverseAtoi (call.errno st.executed) (call.scratch st.executed) st.buf call.idx
    args.pattern args.repl with
  | none => pure ()
  | some run => itsFuzz call.target run.candidate

/-- The value that the input has where it is transformed. -/
def valueAt (buf : List UInt8) (idx width : Nat) : UInt64 := .ofNat (Memory.load width buf idx)

def maskOf : Nat → UInt64
  | 2 => 0xffff
  | 4 => 0xffffffff
  | _ => 0xffffffffffffffff

def tryTransform (applies : Bool) (newRepl : UInt64) : Run Unit :=
  if applies then
    recurse { args with
      repl := newRepl, changedVal := args.repl, attr := isTransform, doReverse := true }
  else pure ()

/-- Arithmetic, XOR, to lower case and to upper case. -/
def transforms (bVal oBVal mask : UInt64) : Run Unit := do
  let diff := args.pattern - bVal
  tryTransform recurse args (diff = args.oPattern - oBVal && diff ≠ 0) (args.repl - diff)
  let xor := args.pattern ^^^ bVal
  unlessFound
    (tryTransform recurse args (xor = args.oPattern ^^^ oBVal && xor ≠ 0) (args.repl ^^^ xor))
  let low := 0x2020202020202020 &&& mask
  let high := 0x5f5f5f5f5f5f5f5f &&& mask
  unlessFound
    (tryTransform recurse args
      (bVal ||| low = args.pattern &&& mask && oBVal ||| low = args.oPattern &&& mask)
      (args.repl &&& high))
  unlessFound
    (tryTransform recurse args
      (bVal &&& high = args.pattern &&& mask && oBVal &&& high = args.oPattern &&& mask)
      (args.repl ||| low))
  update fun st => { st with status := 0 }

def transformMagic (bytes : Nat) : Run Unit := do
  let st ← look
  if args.pattern ≠ args.oPattern ∧ args.repl = args.changedVal ∧ args.attr ≤ isEqual then
    let width := if bytes ≤ 3 then 2 else if bytes ≤ 7 then 4 else 8
    transforms recurse args (valueAt st.buf call.idx width) (valueAt call.origBuf call.idx width)
      (maskOf width)
  else pure ()

def enableTransform (bytes : Nat) : Run Unit :=
  if call.cmplogEnableTransform ∧ call.lvl &&& lvl3 ≠ 0 then do
    atoi call args
    transformMagic call recurse args bytes
  else pure ()

/-! ## Integers -/

/-- `SWAP64`, `SWAP32` and `SWAP16`. -/
def swap (width : Nat) (value : UInt64) : UInt64 :=
  valueAt (leBytes width value.toNat).reverse 0 width

def Args.swapped (width : Nat) : Args :=
  { pattern := swap width args.pattern
    repl := swap width args.repl
    oPattern := swap width args.oPattern
    changedVal := swap width args.changedVal
    attr := args.attr
    doReverse := false }

def tryInteger (width : Nat) : Run Unit := do
  let st ← look
  if width ≤ call.itsLen st ∧
      (Memory.load width st.buf call.idx = args.pattern.toNat % 256 ^ width ∧
        Memory.load width call.origBuf call.idx = args.oPattern.toNat % 256 ^ width ∨
      isFpMod ≤ args.attr) then
    tryBytes call.target call.idx (leBytes width args.repl.toNat)
  else pure ()

def integer (width : Nat) : Run Unit := do
  let st ← look
  if width ≤ st.hshape ∧ st.status ≠ 1 then do
    tryInteger call args width
    unlessFound (if args.doReverse then recurse (args.swapped width) else pure ())
  else pure ()

def integers : Run Unit :=
  if call.lvl &&& lvl1 ≠ 0 ∨ isFpMod ≤ args.attr then do
    integer call recurse args 8
    integer call recurse args 4
    integer call recurse args 2
  else pure ()

/-! ## Scale -/

def scale : Run Unit := do
  let st ← look
  if args.attr < isFp ∧ (call.cmplogEnableScale ∨ lvl3 ≤ call.lvl) ∧
      args.repl = args.changedVal then
    match scaleMode call.wordSize64 args.repl args.changedVal with
    | none => pure ()
    | some (newVal, ilen) =>
      if ilen ≤ call.itsLen st ∧ 1 < ilen then
        tryBytes call.target call.idx (leBytes ilen newVal)
      else pure ()
  else pure ()

/-! ## Arithmetic -/

def Args.stepped (repl : UInt64) (attr : UInt8) : Args :=
  { args with repl, changedVal := repl, attr, doReverse := true }

/-- A double is tried as a float as well, llvm likes to do that. -/
def double2float : Run Unit := do
  let st ← look
  if st.hshape = 8 ∧ 4 ≤ call.itsLen st then do
    update fun st => { st with hshape := 4 }
    always (recurse (args.stepped (call.narrow args.repl) isFpMod)) fun st => { st with hshape := 8 }
  else pure ()

def floats (greater : Bool) : Run Unit := do
  let st ← look
  if st.hshape = 4 ∧ (greater → 4 ≤ call.itsLen st) ∨
      st.hshape = 8 ∧ (greater → 8 ≤ call.itsLen st) then do
    recurse (args.stepped (call.step st.hshape greater args.repl) isFpMod)
    double2float call recurse args
  else pure ()

/-- `>=` is turned into `<` and `<=` into `>`. -/
def turned (attr : UInt8) : UInt8 :=
  if attr &&& isEqual ≠ 0 ∧ attr &&& (isGreater ||| isLesser) ≠ 0 then
    if attr &&& 2 ≠ 0 then attr + 2 else attr - 2
  else attr

def arithmetic : Run Unit := do
  let st ← look
  if ¬call.cmplogEnableArith ∨ call.lvl < lvl3 ∨ args.attr = isTransform then pure ()
  else if args.attr &&& (isGreater ||| isLesser) = 0 ∨ st.hshape < 4 then pure ()
  else
    let attr := turned args.attr
    let greater := attr &&& isGreater != 0
    if isFp ≤ attr ∧ attr < isFpMod then floats call recurse args greater
    else if attr < isFp then
      recurse (args.stepped (if greater then args.repl + 1 else args.repl - 1) isIntMod)
    else pure ()

end

/-! ## The functions -/

/-- Calls may be nested so many times. -/
def cmpExtendEncoding (call : Call) : Nat → Args → Run Unit
  | 0, _ => stop .outOfFuel
  | depth + 1, args => do
    let st ← look
    let bytes := min (shapeBytes st.hshape) (st.buf.length - call.idx)
    if bytes ≤ 1 then pure ()
    else do
      enableTransform call (cmpExtendEncoding call depth) args bytes
      if args.pattern = args.oPattern then pure ()
      else do
        integers call (cmpExtendEncoding call depth) args
        scale call args
        arithmetic call (cmpExtendEncoding call depth) args

structure ArgsN where
  pattern : BitVec 128
  repl : BitVec 128
  oPattern : BitVec 128
  changedVal : BitVec 128
  attr : UInt8
  doReverse : Bool

section

variable (call : Call) (args : ArgsN)

-- The passes record operands of at most 16 bytes.
def tryN : Run Unit := do
  let st ← look
  if (st.buf.drop call.idx).take st.hshape = leBytes st.hshape args.pattern.toNat ∧
      (call.origBuf.drop call.idx).take st.hshape = leBytes st.hshape args.oPattern.toNat then
    tryBytes call.target call.idx (leBytes st.hshape args.repl.toNat)
  else pure ()

def ArgsN.swapped (hshape : Nat) : ArgsN :=
  { pattern := call.swapN hshape args.pattern
    repl := call.swapN hshape args.repl
    oPattern := call.swapN hshape args.oPattern
    changedVal := call.swapN hshape args.changedVal
    attr := args.attr
    doReverse := false }

def scaleN : Run Unit := do
  let st ← look
  if args.attr < isFp ∧ args.attr < 32 ∧ (call.cmplogEnableScale ∨ lvl3 ≤ call.lvl) then
    match scaleModeN args.repl with
    | none => pure ()
    | some (newVal, ilen) =>
      if ilen ≤ call.itsLen st then tryBytes call.target call.idx (leBytes ilen newVal)
      else pure ()
  else pure ()

end

def cmpExtendEncodingN (call : Call) : Nat → ArgsN → Run Unit
  | 0, _ => stop .outOfFuel
  | depth + 1, args => do
    let st ← look
    if st.hshape ≤ call.itsLen st then do
      tryN call args
      unlessFound
        (if args.doReverse then cmpExtendEncodingN call depth (args.swapped call st.hshape)
        else pure ())
      scaleN call args
    else pure ()

end SbFuzz.Fuzzer.RedqueenEncoding
