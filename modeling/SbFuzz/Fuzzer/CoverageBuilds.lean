import SbFuzz.Fuzzer.Bitmap
import SbFuzz.Memory.Lanes

/-! The coverage code of `coverage-32.h` and of the three variants in `coverage-64.h`, each on the
same bytes. The scalar words of 64 bits are those of the bitmap. -/

set_option autoImplicit false

namespace SbFuzz.Fuzzer

open SbFuzz.Memory

/-! ## Words of 32 bits -/

namespace Coverage32

def mem16 (word : UInt32) (k : Nat) : UInt16 := (word >>> UInt32.ofNat (16 * k)).toUInt16

def classifyWord (word : UInt32) : UInt32 :=
  (countClassLookup16 (mem16 word 0)).toUInt32 |||
    ((countClassLookup16 (mem16 word 1)).toUInt32 <<< 16)

/-- `((u8 *)word)[k]`. -/
def byteOf (word : UInt32) (k : Nat) : UInt8 := (word >>> UInt32.ofNat (8 * k)).toUInt8

def discoverWord (ret : UInt8) (current virgin : UInt32) : UInt8 × UInt32 :=
  if current &&& virgin ≠ 0 then
    let pristine := (List.range 4).any fun k => byteOf current k ≠ 0 && byteOf virgin k = 0xff
    (if ret < 2 then if pristine then 2 else 1 else ret, virgin &&& ~~~current)
  else (ret, virgin)

def classifyWords : Nat → List UInt32 → List UInt32
  | i + 1, word :: mem => (if word ≠ 0 then classifyWord word else word) :: classifyWords i mem
  | _, mem => mem

def discoverWords : Nat → UInt8 → List UInt32 → List UInt32 → UInt8 × List UInt32
  | i + 1, ret, word :: current, virginWord :: virgin =>
      let (nextRet, nextWord) :=
        if word ≠ 0 then discoverWord ret word virginWord else (ret, virginWord)
      let (finalRet, rest) := discoverWords i nextRet current virgin
      (finalRet, nextWord :: rest)
  | _, ret, _, virgin => (ret, virgin)

def skimWord (virgin current : UInt32) : Bool :=
  current ≠ 0 && classifyWord current &&& virgin ≠ 0

def skim : List UInt32 → List UInt32 → Bool
  | v0 :: v1 :: v2 :: v3 :: virgin, c0 :: c1 :: c2 :: c3 :: current =>
      if skimWord v0 c0 then true
      else if skimWord v1 c1 then true
      else if skimWord v2 c2 then true
      else if skimWord v3 c3 then true
      else skim virgin current
  | _, _ => false

end Coverage32

/-! ## Vector instructions -/

/-- Bit `k` of a mask is the k-th truth value. -/
def maskBits : List Bool → Nat
  | [] => 0
  | bit :: rest => bit.toNat + 2 * maskBits rest

/-- A lane of `_mm256_cmpeq_epi64` with zeroes. -/
def cmpeqZero (isZero : Bool) : UInt64 := if isZero then 0xffffffffffffffff else 0

/-- `_mm256_movemask_epi8`: the highest bit of every byte. -/
def movemaskEpi8 (value : List UInt64) : UInt32 :=
  UInt32.ofNat (maskBits ((Lanes.flat value).map fun byte => byte ≥ 0x80))

/-- `_mm512_testn_epi64_mask` of a value with itself. -/
def testnEpi64Mask (value : List UInt64) : UInt8 :=
  UInt8.ofNat (maskBits (value.map fun lane => lane &&& lane == 0))

/-- `skim` with AVX2. -/
def skimAvx2 : List UInt64 → List UInt64 → Bool
  | v0 :: v1 :: v2 :: v3 :: virgin, c0 :: c1 :: c2 :: c3 :: current =>
      let mask := movemaskEpi8 ([c0, c1, c2, c3].map fun lane => cmpeqZero (lane == 0))
      if mask = 0xffffffff then skimAvx2 virgin current
      else if mask &&& 0xff = 0 && classifyWord c0 &&& v0 ≠ 0 then true
      else if mask &&& 0xff00 = 0 && classifyWord c1 &&& v1 ≠ 0 then true
      else if mask &&& 0xff0000 = 0 && classifyWord c2 &&& v2 ≠ 0 then true
      else if mask &&& 0xff000000 = 0 && classifyWord c3 &&& v3 ≠ 0 then true
      else skimAvx2 virgin current
  | _, _ => false

/-- The `UNROLL` of the AVX-512 variant. -/
def unroll (mask : UInt8) (x : UInt8) (virgin current : UInt64) : Bool :=
  mask &&& (1 <<< x) = 0 && classifyWord current &&& virgin ≠ 0

/-- `skim` with AVX-512. -/
def skimAvx512 : List UInt64 → List UInt64 → Bool
  | v0 :: v1 :: v2 :: v3 :: v4 :: v5 :: v6 :: v7 :: virgin,
    c0 :: c1 :: c2 :: c3 :: c4 :: c5 :: c6 :: c7 :: current =>
      let mask := testnEpi64Mask [c0, c1, c2, c3, c4, c5, c6, c7]
      if mask = 0xff then skimAvx512 virgin current
      else if unroll mask 0 v0 c0 then true
      else if unroll mask 1 v1 c1 then true
      else if unroll mask 2 v2 c2 then true
      else if unroll mask 3 v3 c3 then true
      else if unroll mask 4 v4 c4 then true
      else if unroll mask 5 v5 c5 then true
      else if unroll mask 6 v6 c6 then true
      else if unroll mask 7 v7 c7 then true
      else skimAvx512 virgin current
  | _, _ => false

/-! ## Simplified traces -/

def simplifyLookup (count : UInt8) : UInt8 := if count = 0 then 1 else 128

/-- The loop of `simplify_trace`, over `i` words; `ones` is the word with a 1 in every byte. -/
def simplifyWords {W : Type} [AndOp W] [Complement W] [Lanes W] [DecidableEq W] (ones : W) :
    Nat → List W → List W
  | i + 1, word :: mem =>
      (if word ≠ Lanes.zero then Lanes.ofBytes ((Lanes.bytes word).map simplifyLookup) else ones) ::
        simplifyWords ones i mem
  | _, mem => mem

/-! ## The builds -/

/-- The coverage functions of a build, on the bytes of the trace and of a virgin map. -/
structure CoverageBuild where
  classifyCounts : UInt32 → List UInt8 → List UInt8
  simplifyTrace : UInt32 → List UInt8 → List UInt8
  skim : List UInt8 → List UInt8 → Bool
  hasNewBits : UInt32 → List UInt8 → List UInt8 → UInt8 × List UInt8

def words32 (buf : List UInt8) : List UInt32 := Lanes.words UInt32 (buf.length / 4) buf

def words64 (buf : List UInt8) : List UInt64 := Lanes.words UInt64 (buf.length / 8) buf

def build32 : CoverageBuild where
  classifyCounts := fun mapSize trace =>
    Lanes.flat (Coverage32.classifyWords (mapSize >>> 2).toNat (words32 trace))
  simplifyTrace := fun mapSize trace =>
    Lanes.flat (simplifyWords (0x01010101 : UInt32) (mapSize >>> 2).toNat (words32 trace))
  skim := fun virgin trace => Coverage32.skim (words32 virgin) (words32 trace)
  hasNewBits := fun realMapSize trace virgin =>
    let found := Coverage32.discoverWords ((realMapSize + 3) >>> 2).toNat 0 (words32 trace)
      (words32 virgin)
    (found.1, Lanes.flat found.2)

/-- The parts of `coverage-64.h` that do not depend on the vector instructions. -/
def build64With (skim : List UInt64 → List UInt64 → Bool) : CoverageBuild where
  classifyCounts := fun mapSize trace =>
    Lanes.flat (classifyWords (mapSize >>> 3).toNat (words64 trace))
  simplifyTrace := fun mapSize trace =>
    Lanes.flat (simplifyWords (0x0101010101010101 : UInt64) (mapSize >>> 3).toNat (words64 trace))
  skim := fun virgin trace => skim (words64 virgin) (words64 trace)
  hasNewBits := fun realMapSize trace virgin =>
    let found := discoverWords ((realMapSize + 7) >>> 3).toNat 0 (words64 trace) (words64 virgin)
    (found.1, Lanes.flat found.2)

def build64 : CoverageBuild := build64With skim

def buildAvx2 : CoverageBuild := build64With skimAvx2

def buildAvx512 : CoverageBuild := build64With skimAvx512

/-- A trace and a virgin map of `map_size` bytes. -/
structure CoverageMaps where
  mapSize : UInt32
  realMapSize : UInt32
  trace : List UInt8
  virgin : List UInt8
  aligned : 64 ∣ mapSize.toNat
  inMap : realMapSize ≤ mapSize
  traceLength : trace.length = mapSize.toNat
  virginLength : virgin.length = mapSize.toNat

end SbFuzz.Fuzzer
