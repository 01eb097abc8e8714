import SbFuzz.Fuzzer.RedqueenScale
import SbFuzz.Systems.Programs

/-! `colorization`: as many bytes of the input as possible are replaced while the
checksum stays. -/

set_option autoImplicit false

namespace SbFuzz.Fuzzer.Colorization

open Redqueen (overwrite)
open Systems Systems.Program

/-! ## Replacements -/

/-- A byte that is given, or one of so many from a base on. -/
inductive Replacement where
  | fixed (c : UInt8)
  | drawn (base : UInt8) (limit : Nat)

def randomReplacement (_ : UInt8) : Replacement := .drawn 0 256

/-- The first and the last byte of the ranges that `type_replace` stays in. -/
def typeRanges : List (UInt8 × UInt8) :=
  [(0x41, 0x46), (0x61, 0x66), (0x32, 0x39), (0x47, 0x5a), (0x67, 0x7a), (0x21, 0x2a),
    (0x2c, 0x2e), (0x3a, 0x40), (0x5b, 0x60), (0x7b, 0x7e)]

def typePairs : List (UInt8 × UInt8) :=
  [(0x30, 0x31), (0x31, 0x30), (0x2b, 0x2f), (0x2f, 0x2b), (0x20, 0x09), (0x09, 0x20),
    (0x0d, 0x0a), (0x0a, 0x0d), (0, 1), (1, 0), (0xff, 0)]

def typeReplacement (c : UInt8) : Replacement :=
  match typeRanges.find? fun (first, last) => first ≤ c && c ≤ last with
  | some (first, last) => .drawn first (1 + (last - first).toNat)
  | none =>
    match typePairs.lookup c with
    | some other => .fixed other
    | none => .fixed (if c < 32 then c ^^^ 0x1f else c ^^^ 0x7f)

/-- The loop until a byte differs, over the random numbers that are left. -/
def replaceByte (replacement : Replacement) (orig : UInt8) (random : List Nat) :
    Option (UInt8 × List Nat) :=
  match replacement with
  | .fixed c => if c = orig then none else some (c, random)
  | .drawn base limit =>
    match random.dropWhile fun n => base + .ofNat (n % limit) = orig with
    | [] => none
    | n :: random => some (base + .ofNat (n % limit), random)

/-- `random_replace` and `type_replace`. -/
def replaceAll (pick : UInt8 → Replacement) : List UInt8 → List Nat → Option (List UInt8)
  | [], _ => some []
  | c :: rest, random => do
    let (other, random) ← replaceByte (pick c) c random
    let others ← replaceAll pick rest random
    pure (other :: others)

/-! ## Ranges -/

/-- `struct range`; the last position is the one called `end`. -/
structure Range where
  start : Nat
  last : Nat
  ok : Nat

def Range.size (range : Range) : Nat := 1 + range.last - range.start

def addRange (ranges : List Range) (start last : Nat) : List Range :=
  { start, last, ok := 0 } :: ranges

/-- The scan of a list from some index on. -/
def biggest (max : Nat) (found : Option (Nat × Range)) :
    List Range → Nat → Option (Nat × Range)
  | [], _ => found
  | range :: ranges, k =>
    if range.ok = 0 ∧ max ≤ range.size then biggest range.size (some (k, range)) ranges (k + 1)
    else biggest max found ranges (k + 1)

/-- A range and its place in the list. -/
def popBiggestRange (ranges : List Range) : Option (Nat × Range) := biggest 0 none ranges 0

/-! ## The search -/

inductive Stop where
  | outOfFuel
  | outOfChoices
  | aborted

abbrev History := List (List UInt8)

structure Env where
  /-- `hash64` of the trace that a buffer leaves. -/
  cksum : List UInt8 → UInt64
  /-- What `common_fuzz_stuff` returns, by the buffers that were executed. -/
  aborts : History → Bool
  /-- Whether the last execution took too much longer than it should. -/
  tooSlow : History → Bool
  cmplogRandomColorization : Bool
  colorizeSuccess : Nat
  cmplogLvl : Nat
  activeItems : Nat

structure State where
  buf : List UInt8
  ranges : List Range
  executed : History

abbrev Search := Program State Stop

section

variable (env : Env)

def getExecChecksum : Search UInt64 := do
  update fun st => { st with executed := st.buf :: st.executed }
  let st ← look
  if env.aborts st.executed then stop .aborted else pure (env.cksum st.buf)

/-- A range that failed gives way to its halves, which a single byte has not. -/
def splitRange (ranges : List Range) (k : Nat) (rng : Range) : List Range :=
  if 1 < rng.size then
    (addRange (addRange ranges rng.start (rng.start + rng.size / 2 - 1))
      (rng.start + rng.size / 2) rng.last).eraseIdx (k + 2)
  else ranges.eraseIdx k

def colorRange (backup changed : List UInt8) (execCksum : UInt64) (k : Nat) (rng : Range) :
    Search Unit := do
  let part (bytes : List UInt8) := (bytes.drop rng.start).take rng.size
  update fun st => { st with buf := overwrite st.buf rng.start (part changed) }
  let cksum ← getExecChecksum env
  let st ← look
  if cksum ≠ execCksum ∨ env.tooSlow st.executed then
    update fun st =>
      { st with
        buf := overwrite st.buf rng.start (part backup)
        ranges := splitRange st.ranges k rng }
  else update fun st => { st with ranges := st.ranges.set k { rng with ok := 1 } }

/-- The rounds that are left of `stage_max`. -/
def colorLoop (backup changed : List UInt8) (execCksum : UInt64) : Nat → Search Unit
  | 0 => pure ()
  | rounds + 1 => do
    let st ← look
    match popBiggestRange st.ranges with
    | none => pure ()
    | some (k, rng) => do
      colorRange env backup changed execCksum k rng
      colorLoop backup changed execCksum rounds

/-! ## The taint -/

/-- `struct tainted` -/
structure Tainted where
  pos : Nat
  len : Nat

/-- What a scan comes to: a range that continues the first interval, one to start an
interval with, or none. -/
inductive Picked where
  | continues (k : Nat) (range : Range)
  | starts (k : Nat) (range : Range)
  | finished

def pick (taint : List Tainted) (pos : Nat) (found : Picked) : List Range → Nat → Picked
  | [], _ => found
  | range :: ranges, k =>
    if range.ok = 1 ∧ range.start < pos then
      if taint.head?.any fun t => t.pos + t.len = range.start then .continues k range
      else pick taint range.start (.starts k range) ranges (k + 1)
    else pick taint pos found ranges (k + 1)

/-- The intervals, the last one first, and how many positions they have. -/
def mergeLoop : Nat → List Range → List Tainted → Nat → Option (List Tainted × Nat)
  | 0, _, _, _ => none
  | fuel + 1, ranges, taint, positions =>
    match pick taint 0xffffffff .finished ranges 0 with
    | .continues k range =>
      let merged := match taint with
        | [] => []
        | t :: rest => { t with len := t.len + range.size } :: rest
      mergeLoop fuel (ranges.set k { range with ok := 2 }) merged (positions + range.size)
    | .starts k range =>
      mergeLoop fuel (ranges.set k { range with ok := 2 })
        ({ pos := range.start, len := range.size } :: taint) (positions + range.size)
    | .finished => some (taint, positions)

def cmplogPositionsMax : Nat := 12 * 1024

def cmplogCorpusPercent : Nat := 5

/-- Nearly all of a large input was colorized, after few inputs for so large a corpus. -/
def unsatisfactory (len positions : Nat) : Prop :=
  env.colorizeSuccess ≠ 0 ∧ env.cmplogLvl < 3 ∧ cmplogPositionsMax < positions ∧
    len / positions = 1 ∧ cmplogCorpusPercent < env.activeItems / env.colorizeSuccess

instance (len positions : Nat) : Decidable (unsatisfactory env len positions) :=
  inferInstanceAs (Decidable (_ ∧ _))

/-- The taint; an empty list stands for a null pointer. -/
def colorization (random : List Nat) : Search (List Tainted) := do
  let st ← look
  let backup := st.buf
  let len := backup.length
  update fun st => { st with ranges := addRange [] 0 (len - 1) }
  let execCksum ← getExecChecksum env
  let pickReplacement :=
    if env.cmplogRandomColorization then randomReplacement else typeReplacement
  match replaceAll pickReplacement backup random with
  | none => stop .outOfChoices
  | some changed => do
    colorLoop env backup changed execCksum (len * 2)
    let st ← look
    match mergeLoop (st.ranges.length + 1) st.ranges [] 0 with
    | none => stop .outOfFuel
    | some (taint, positions) =>
      pure (if unsatisfactory env len positions then [] else taint)

end

end SbFuzz.Fuzzer.Colorization
