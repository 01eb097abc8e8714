import SbFuzz.Fuzzer.Bitmap
import SbFuzz.Fuzzer.Campaign
import SbFuzz.Fuzzer.LevelFactor

/-! `save_if_interesting`: what an execution adds to the queue and to the
counters of crashes and timeouts. The names of the files and the clock are left
out; what the target does while the function runs is given by an environment. -/

set_option autoImplicit false

namespace SbFuzz.Fuzzer.SaveIfInteresting

/-! ## Traces -/

/-- `simplify_lookup`. -/
def simplifyLookup (count : UInt8) : UInt8 := if count = 0 then 1 else 128

def simplifyWord (word : UInt64) : UInt64 :=
  if word ≠ 0 then
    (List.range 8).foldl
      (fun mem k =>
        mem ||| ((simplifyLookup (byteOf word k)).toUInt64 <<< UInt64.ofNat (8 * k))) 0
  else 0x0101010101010101

/-- The loop of `simplify_trace`, over `i` words. -/
def simplifyWords : Nat → List UInt64 → List UInt64
  | i + 1, word :: mem => simplifyWord word :: simplifyWords i mem
  | _, mem => mem

theorem simplifyWords_length (i : Nat) (mem : List UInt64) :
    (simplifyWords i mem).length = mem.length := by
  induction mem generalizing i with
  | nil => cases i <;> rfl
  | cons word mem ih =>
    cases i with
    | zero => rfl
    | succ i => exact congrArg Nat.succ (ih i)

section

variable {sizes : MapSizes}

def simplifyTrace (maps : AflState sizes) : AflState sizes :=
  let i := sizes.mapSize >>> 3
  { maps with traceBits :=
      ⟨simplifyWords i.toNat maps.traceBits.words,
        (simplifyWords_length _ _).symm ▸ maps.traceBits.length⟩ }

end

/-! ## Data -/

def keepUniqueHang : Nat := 500

def keepUniqueCrash : Nat := 10000

structure Options where
  schedule : Schedule
  ignoreTimeouts : Bool
  keepTimeouts : Bool
  nonInstrumentedMode : Bool
  crashMode : Bool
  switchFuzzMode : Bool
  execTmout : UInt32
  hangTmout : UInt32

/-- `crash_mode`, as a fault. -/
def Options.expected (options : Options) : Fault := if options.crashMode then .crash else .ok

/-- What an execution with `hang_tmout` leaves, and the length that `write_to_testcase` returned. -/
structure Rerun (sizes : MapSizes) where
  len : UInt32
  fault : Fault
  stopSoon : Bool
  traceBits : CoverageMap sizes

/-- What `calibrate_case` returns and leaves. -/
structure CalibrateCase (sizes : MapSizes) where
  fault : Fault
  traceBits : CoverageMap sizes
  virginBits : CoverageMap sizes
  execCksum : UInt64
  newCov : Bool

/-- `hash64` of a trace, and the reruns and calibrations of the call by the
number of entries that it has added before. -/
structure Env (sizes : MapSizes) where
  hash64 : CoverageMap sizes → UInt64
  rerun : Nat → Rerun sizes
  calibrate : Nat → CalibrateCase sizes

structure Entry where
  len : UInt32
  hasNewCov : Bool
  execCksum : UInt64
  nFuzzEntry : UInt64

structure Counters where
  totalCrashes : Nat
  savedCrashes : Nat
  totalTmouts : Nat
  savedTmouts : Nat
  savedHangs : Nat

structure State (sizes : MapSizes) where
  maps : AflState sizes
  queue : List Entry
  queuedWithCov : Nat
  nFuzz : UInt64 → UInt32
  fuzzMode : Bool
  counters : Counters

section

variable {sizes : MapSizes}

def State.incTotalCrashes (afl : State sizes) : State sizes :=
  { afl with counters.totalCrashes := afl.counters.totalCrashes + 1 }

def State.incSavedCrashes (afl : State sizes) : State sizes :=
  { afl with counters.savedCrashes := afl.counters.savedCrashes + 1 }

def State.incTotalTmouts (afl : State sizes) : State sizes :=
  { afl with counters.totalTmouts := afl.counters.totalTmouts + 1 }

def State.incSavedTmouts (afl : State sizes) : State sizes :=
  { afl with counters.savedTmouts := afl.counters.savedTmouts + 1 }

def State.incSavedHangs (afl : State sizes) : State sizes :=
  { afl with counters.savedHangs := afl.counters.savedHangs + 1 }

end

/-- The variables of the function. -/
structure Locals where
  len : UInt32
  newBits : UInt8
  keeping : Bool
  classified : Bool
  needHash : Bool
  cksum : UInt64
  added : Nat

inductive Outcome (sizes : MapSizes) where
  | returned (keeping : Bool) (afl : State sizes)
  | fatal (afl : State sizes)
  | jumped (afl : State sizes)

def Outcome.afl {sizes : MapSizes} : Outcome sizes → State sizes
  | .returned _ afl => afl
  | .fatal afl => afl
  | .jumped afl => afl

@[simp] theorem Outcome.afl_returned {sizes : MapSizes} (keeping : Bool) (afl : State sizes) :
    (Outcome.returned keeping afl).afl = afl := rfl

/-- Where control goes from the `switch`: out of the function, or to `save_to_queue`. -/
inductive Switched (sizes : MapSizes) where
  | left (outcome : Outcome sizes)
  | saveToQueue (afl : State sizes) (locals : Locals)

/-! ## The function -/

section

variable {sizes : MapSizes} (env : Env sizes) (options : Options)

/-- Only the schedules from `FAST` to `RARE` hash every trace. -/
def Options.hashesTraces : Bool := 3 ≤ options.schedule.number && options.schedule.number ≤ 7

def updatePathFrequency (afl : State sizes) : UInt64 × State sizes :=
  let maps := classifyCounts afl.maps
  let cksum := env.hash64 maps.traceBits
  (cksum, { afl with
    maps
    nFuzz := Function.update afl.nFuzz (cksum % nFuzzSize) (countHit (afl.nFuzz (cksum % nFuzzSize))) })

/-- From the label `save_to_queue` to the `switch`; `none` is the fatal error. -/
def saveToQueue (afl : State sizes) (locals : Locals) : State sizes × Option Locals :=
  let rehash := locals.needHash && locals.newBits ≠ 0
  let calibration := env.calibrate locals.added
  let execCksum := if rehash then env.hash64 afl.maps.traceBits else 0
  let queueTop : Entry :=
    { len := locals.len
      hasNewCov := locals.newBits = 2 || calibration.newCov
      execCksum := if execCksum ≠ 0 then execCksum else calibration.execCksum
      nFuzzEntry := if locals.cksum ≠ 0 then locals.cksum % nFuzzSize else 0 }
  let saved : State sizes :=
    { maps := { afl.maps with
        traceBits := calibration.traceBits
        virgin := Function.update afl.maps.virgin .bits calibration.virginBits }
      queue := afl.queue ++ [queueTop]
      queuedWithCov := if queueTop.hasNewCov then afl.queuedWithCov + 1 else afl.queuedWithCov
      nFuzz := if locals.cksum ≠ 0 then Function.update afl.nFuzz queueTop.nFuzzEntry 1 else afl.nFuzz
      fuzzMode := afl.fuzzMode && !(options.switchFuzzMode && !options.nonInstrumentedMode)
      counters := afl.counters }
  if calibration.fault = .error then (saved, none)
  else
    (saved, some { locals with
      keeping := true, needHash := locals.needHash && !rehash, added := locals.added + 1 })

/-- The test of a simplified trace against the virgin map of the fault. -/
def isUnique (virginMap : VirginMap) (classified : Bool) (afl : State sizes) : Bool × State sizes :=
  if options.nonInstrumentedMode then (true, afl)
  else
    let maps := if classified then afl.maps else classifyCounts afl.maps
    let found := hasNewBits (simplifyTrace maps) virginMap
    (found.1 ≠ 0, { afl with maps := found.2 })

/-- From the label `keep_as_crash`. -/
def keepAsCrash (afl : State sizes) (locals : Locals) : Outcome sizes :=
  let counted := afl.incTotalCrashes
  if keepUniqueCrash ≤ counted.counters.savedCrashes then .returned locals.keeping counted
  else
    let unique := isUnique options .crash locals.classified counted
    if !unique.1 then .returned locals.keeping unique.2
    else .returned locals.keeping unique.2.incSavedCrashes

/-- The execution with the more generous timeout. -/
def rerunTarget (afl : State sizes) (locals : Locals) : State sizes × Locals :=
  let run := env.rerun locals.added
  ({ afl with maps := classifyCounts { afl.maps with traceBits := run.traceBits } },
    { locals with len := run.len })

def saveHang (afl : State sizes) (locals : Locals) : Outcome sizes :=
  .returned locals.keeping afl.incSavedHangs

/-- A unique timeout: it is run again unless the timeout is generous already. -/
def confirmHang (afl : State sizes) (locals : Locals) : Switched sizes :=
  if options.execTmout < options.hangTmout then
    let run := env.rerun locals.added
    let rerun := rerunTarget env afl locals
    if !run.stopSoon && run.fault = .crash then .left (keepAsCrash options rerun.1 rerun.2)
    else if run.stopSoon || run.fault ≠ .tmout then
      if options.keepTimeouts then .saveToQueue rerun.1.incSavedTmouts rerun.2
      else .left (.returned locals.keeping rerun.1)
    else .left (saveHang rerun.1 rerun.2)
  else .left (saveHang afl locals)

def timedOut (afl : State sizes) (locals : Locals) : Switched sizes :=
  let counted := afl.incTotalTmouts
  if keepUniqueHang ≤ counted.counters.savedHangs then .left (.returned locals.keeping counted)
  else
    let unique := isUnique options .tmout locals.classified counted
    let marked := { locals with classified := locals.classified || !options.nonInstrumentedMode }
    if !unique.1 then .left (.returned locals.keeping unique.2)
    else confirmHang env options unique.2 marked

/-- The `switch` over the fault. -/
def switchFault (fault : Fault) (afl : State sizes) (locals : Locals) : Switched sizes :=
  match fault with
  | .tmout => timedOut env options afl locals
  | .crash => .left (keepAsCrash options afl locals)
  | .error => .left (.fatal afl)
  | .ok => .left (.returned locals.keeping afl)
  | .noinst => .left (.returned locals.keeping afl)
  | .nobits => .left (.returned locals.keeping afl)

/-- The function from `save_to_queue` on, for `fuel` passes through this label. -/
def runFromQueue (fault : Fault) (fuel : Nat) (afl : State sizes) (locals : Locals) : Outcome sizes :=
  match fuel with
  | 0 => .jumped afl
  | fuel + 1 =>
    match saveToQueue env options afl locals with
    | (saved, none) => .fatal saved
    | (saved, some kept) =>
      match switchFault env options fault saved kept with
      | .left outcome => outcome
      | .saveToQueue next jumped => runFromQueue fault fuel next jumped

def runSwitch (fault : Fault) (fuel : Nat) (afl : State sizes) (locals : Locals) : Outcome sizes :=
  match switchFault env options fault afl locals with
  | .left outcome => outcome
  | .saveToQueue next jumped => runFromQueue env options fault fuel next jumped

/-- The search for new bits of an execution with the expected fault. -/
def findNewBits (classified : Bool) (maps : AflState sizes) : UInt8 × AflState sizes :=
  if classified then hasNewBits maps .bits else hasNewBitsUnclassified maps .bits

/-- What is done before the fault is looked at. -/
def prepare (len : UInt32) (afl : State sizes) : State sizes × Locals :=
  let fresh : Locals :=
    { len, newBits := 0, keeping := false, classified := false, needHash := true, cksum := 0,
      added := 0 }
  if options.hashesTraces then
    let frequency := updatePathFrequency env afl
    (frequency.2, { fresh with classified := true, needHash := false, cksum := frequency.1 })
  else (afl, fresh)

/-- An execution with the expected fault is kept if there are new bits. -/
def saveExpected (fault : Fault) (fuel : Nat) (afl : State sizes) (locals : Locals) : Outcome sizes :=
  let found := findNewBits locals.classified afl.maps
  let afl := { afl with maps := found.2 }
  if found.1 = 0 then
    .returned false (if options.crashMode then afl.incTotalCrashes else afl)
  else
    runFromQueue env options fault fuel afl { locals with newBits := found.1, classified := true }

def saveIfInteresting (fuel : Nat) (afl : State sizes) (len : UInt32) (fault : Fault) : Outcome sizes :=
  if len = 0 then .returned false afl
  else if fault = .tmout ∧ options.ignoreTimeouts then
    .returned false (if options.hashesTraces then (updatePathFrequency env afl).2 else afl)
  else
    let prepared := prepare env options len afl
    if fault = options.expected then saveExpected env options fault fuel prepared.1 prepared.2
    else runSwitch env options fault fuel prepared.1 prepared.2

end

end SbFuzz.Fuzzer.SaveIfInteresting
