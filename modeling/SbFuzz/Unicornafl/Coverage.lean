import Mathlib.Logic.Function.Basic

/-! The coverage hooks of unicornafl: the hash that places an address in the
shared map, the block hook and the compare-coverage hooks. -/

set_option autoImplicit false

namespace SbFuzz.Unicornafl

/-! ## The address hash -/

/-- The `secret` of `afl_hash_ip`. -/
def secret : List UInt8 :=
  [0xb8, 0xfe, 0x6c, 0x39, 0x23, 0xa4, 0x4b, 0xbe, 0x7c, 0x01, 0x81, 0x2c,
   0xf7, 0x21, 0xad, 0x1c, 0xde, 0xd4, 0x6d, 0xe9, 0x83, 0x90, 0x97, 0xdb,
   0x72, 0x40, 0xa4, 0xa4, 0xb7, 0xb3, 0x67, 0x1f, 0xcb, 0x79, 0xe6, 0x4e,
   0xcc, 0xc0, 0xe5, 0x78, 0x82, 0x5a, 0xd0, 0x7d, 0xcc, 0xff, 0x72, 0x21,
   0xb8, 0x08, 0x46, 0x74, 0xf7, 0x43, 0x24, 0x8e, 0xe0, 0x35, 0x90, 0xe6,
   0x81, 0x3a, 0x26, 0x4c, 0x3c, 0x28, 0x52, 0xbb, 0x91, 0xc3, 0x00, 0xcb,
   0x88, 0xd0, 0x65, 0x8b, 0x1b, 0x53, 0x2e, 0xa3, 0x71, 0x64, 0x48, 0x97,
   0xa2, 0x0d, 0xf9, 0x4e, 0x38, 0x19, 0xef, 0x46, 0xa9, 0xde, 0xac, 0xd8,
   0xa8, 0xfa, 0x76, 0x3f, 0xe3, 0x9c, 0x34, 0x3f, 0xf9, 0xdc, 0xbb, 0xc7,
   0xc7, 0x0b, 0x4f, 0x1d, 0x8a, 0x51, 0xe0, 0x4b, 0xcd, 0xb4, 0x59, 0x31,
   0xc8, 0x9f, 0x7e, 0xc9, 0xd9, 0x78, 0x73, 0x64, 0xea, 0xc5, 0xac, 0x83,
   0x34, 0xd3, 0xeb, 0xc3, 0xc5, 0x81, 0xa0, 0xff, 0xfa, 0x13, 0x63, 0xeb,
   0x17, 0x0d, 0xdd, 0x51, 0xb7, 0xf0, 0xda, 0x49, 0xd3, 0x16, 0x55, 0x26,
   0x29, 0xd4, 0x68, 0x9e, 0x2b, 0x16, 0xbe, 0x58, 0x7d, 0x47, 0xa1, 0xfc,
   0x8f, 0xf8, 0xb8, 0xd1, 0x7a, 0xd0, 0x31, 0xce, 0x45, 0xcb, 0x3a, 0x8f,
   0x95, 0x16, 0x04, 0x28, 0xaf, 0xd7, 0xfb, 0xca, 0xbb, 0x4b, 0x40, 0x7e]

def aflReadLE64 (bytes : List UInt8) : UInt64 :=
  let byte (k : Nat) : UInt64 := (bytes.getD k 0).toUInt64
  byte 0 ||| (byte 1 <<< 8) ||| (byte 2 <<< 16) ||| (byte 3 <<< 24) ||| (byte 4 <<< 32) |||
    (byte 5 <<< 40) ||| (byte 6 <<< 48) ||| (byte 7 <<< 56)

def aflRotl64 (x r : UInt64) : UInt64 := (x <<< r) ||| (x >>> (64 - r))

def aflRrmxmx (h64 len : UInt64) : UInt64 :=
  let h64 := h64 ^^^ (aflRotl64 h64 49 ^^^ aflRotl64 h64 24)
  let h64 := h64 * 0x9FB21C651E98DF25
  let h64 := h64 ^^^ ((h64 >>> 35) + len)
  let h64 := h64 * 0x9FB21C651E98DF25
  h64 ^^^ (h64 >>> 28)

def aflHashIp (ip : UInt64) : UInt32 :=
  let input1 : UInt32 := (ip &&& 0xffffffff).toUInt32
  let input2 : UInt32 := (ip >>> 32).toUInt32
  let bitflip := aflReadLE64 (secret.drop 8) ^^^ aflReadLE64 (secret.drop 16)
  let input64 := input2.toUInt64 + (input1.toUInt64 <<< 32)
  let keyed := input64 ^^^ bitflip
  (aflRrmxmx keyed 8).toUInt32

/-! ## The shared map -/

/-- `MAP_SIZE`, that is `1U << MAP_SIZE_POW2`. -/
def mapSize : UInt32 := (1 : UInt32) <<< 16

/-- The memory from `afl_area_ptr_` on (the map is its first `MAP_SIZE` bytes)
and `afl_prev_loc_`. `touched` is history: the indices that were incremented. -/
structure Coverage where
  area : UInt64 → UInt8
  prevLoc : UInt64
  touched : List UInt64

/-- `afl_area_ptr_[index]++`. -/
def Coverage.increment (coverage : Coverage) (index : UInt64) : Coverage where
  area := Function.update coverage.area index (coverage.area index + 1)
  prevLoc := coverage.prevLoc
  touched := coverage.touched ++ [index]

/-- A cleared map at the start of a round. -/
def Coverage.initial : Coverage where
  area := fun index => if index = 0 then 1 else 0
  prevLoc := 0
  touched := []

/-- The end of `_afl_next`: the map is cleared, and what lies behind it is not. -/
def Coverage.aflNext (coverage : Coverage) : Coverage where
  area := fun index =>
    if index = 0 then 1 else if index < mapSize.toUInt64 then 0 else coverage.area index
  prevLoc := 0
  touched := coverage.touched

/-- `afl_inst_rms_` as `_afl_setup` computes it from `AFL_INST_RATIO`. -/
def aflInstRms (instRatio : Option UInt32) : UInt32 :=
  match instRatio with
  | some ratio =>
      let r := if ratio > 100 then 100 else if ratio = 0 then 1 else ratio
      mapSize * r / 100
  | none => mapSize

/-! ## The hooks -/

/-- `afl_hash_ip(address) & (MAP_SIZE - 1)`. -/
def curLoc (address : UInt64) : UInt64 := (aflHashIp address &&& (mapSize - 1)).toUInt64

def ucHookBlock (coverage : Coverage) (address : UInt64) : Coverage :=
  { coverage.increment (curLoc address ^^^ coverage.prevLoc) with
    prevLoc := curLoc address >>> 1 }

/-- The nested comparisons of `_uc_hook_sub_impl_*`: one increment for each
mask under which the operands agree, up to the first under which they differ. -/
def ucHookSubMasks (cur arg1 arg2 : UInt64) : List (UInt64 × UInt64) → Coverage → Coverage
  | [], coverage => coverage
  | (mask, offset) :: rest, coverage =>
      if arg1 &&& mask = arg2 &&& mask then
        ucHookSubMasks cur arg1 arg2 rest
          (coverage.increment ((cur + offset) ^^^ coverage.prevLoc))
      else coverage

def ucHookSubImpl16 (cur arg1 arg2 : UInt64) : Coverage → Coverage :=
  ucHookSubMasks cur arg1 arg2 [(0xff00, 0)]

def ucHookSubImpl32 (cur arg1 arg2 : UInt64) : Coverage → Coverage :=
  ucHookSubMasks cur arg1 arg2 [(0xff000000, 2), (0xff0000, 1), (0xff00, 0)]

def ucHookSubImpl64 (cur arg1 arg2 : UInt64) : Coverage → Coverage :=
  ucHookSubMasks cur arg1 arg2
    [(0xff00000000000000, 6), (0xff000000000000, 5), (0xff0000000000, 4), (0xff00000000, 3),
      (0xff000000, 2), (0xff0000, 1), (0xff00, 0)]

def ucHookSubImpl (cur arg1 arg2 : UInt64) (size : UInt32) : Coverage → Coverage :=
  if size ≥ 64 then ucHookSubImpl64 cur arg1 arg2
  else if size ≥ 32 then ucHookSubImpl32 cur arg1 arg2
  else ucHookSubImpl16 cur arg1 arg2

/-- `_uc_hook_sub_cmp`; `_uc_hook_sub` forwards to it. -/
def ucHookSubCmp (instRms : UInt32) (coverage : Coverage) (address arg1 arg2 : UInt64)
    (size : UInt32) : Coverage :=
  if curLoc address ≥ instRms.toUInt64 then coverage
  else ucHookSubImpl (curLoc address) arg1 arg2 size coverage

/-- The calls of one child. -/
inductive HookCall where
  | block (address : UInt64) (size : UInt32)
  | sub (address arg1 arg2 : UInt64) (size : UInt32)
  | cmp (address arg1 arg2 : UInt64) (size : UInt32)
  | next
deriving DecidableEq, Repr

def Coverage.step (instRms : UInt32) (coverage : Coverage) : HookCall → Coverage
  | .block address _ => ucHookBlock coverage address
  | .sub address arg1 arg2 size => ucHookSubCmp instRms coverage address arg1 arg2 size
  | .cmp address arg1 arg2 size => ucHookSubCmp instRms coverage address arg1 arg2 size
  | .next => coverage.aflNext

/-- The calls of a child whose target was started with this `AFL_INST_RATIO`. -/
def runHooks (instRatio : Option UInt32) (calls : List HookCall) : Coverage :=
  calls.foldl (Coverage.step (aflInstRms instRatio)) .initial

end SbFuzz.Unicornafl
