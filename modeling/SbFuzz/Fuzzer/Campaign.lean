import SbFuzz.Systems.Machine
import SbFuzz.Fuzzer.FastResume

/-! A fuzzing campaign as runs of a machine: the dry run over the seeds, the
main loop with its choice of an entry, `fuzz_one`, and restarts with fast
resume. Executions of the target, the clock and the dice are in the events. -/

set_option autoImplicit false

namespace SbFuzz.Fuzzer

open SbFuzz.Systems (Machine)

/-! ## Data -/

inductive Fault where
  | ok
  | tmout
  | crash
  | error
  | noinst
  | nobits
deriving DecidableEq, Repr

/-- The options and environment variables of the process. -/
structure Settings extends Config where
  crashMode : Bool
  timeoutGiven : Bool
  exitOnSeedIssues : Bool
  ignoreSeedProblems : Bool
  crashingSeedsAsNewCrash : Bool
  noStartupCalibration : Bool
  cycleSchedules : Bool
  oldSeedSelection : Bool
  disableTrim : Bool
  limitTimeSig : Int

/-- No option is given and no environment variable is set. -/
def Settings.plain (mapSize : Nat) (wholeBytes : mapSize % 8 = 0) : Settings where
  mapSize
  wholeBytes
  fixedSeed := false
  nonInstrumentedMode := false
  disableRedundant := false
  crashMode := false
  timeoutGiven := false
  exitOnSeedIssues := false
  ignoreSeedProblems := false
  crashingSeedsAsNewCrash := false
  noStartupCalibration := false
  cycleSchedules := false
  oldSeedSelection := false
  disableTrim := false
  limitTimeSig := 0

/-- What the target must do with a test case: `crash_mode` of the source. -/
def Settings.expected (settings : Settings) : Fault :=
  if settings.crashMode then .crash else .ok

def calChances : UInt8 := 3

def nFuzzSize : UInt64 := (1 : UInt64) <<< 21

/-- A run of `calibrate_case`: whether it reached `abort_calibration` by a
jump, and what the executions left in the state. -/
inductive Calibration where
  | aborted (fault : Fault) (execCksum : UInt64) (trace : Nat → UInt8)
  | completed (newBits : Bool) (execUs : UInt64) (execCksum : UInt64) (trace : Nat → UInt8)

/-- An execution that `save_if_interesting` adds to the queue. -/
structure Finding where
  len : UInt32
  execCksum : UInt64
  nFuzzEntry : UInt32
  nFuzz : Nat → UInt32
  calibration : Calibration
  traceAfter : Nat → UInt8

/-- The two mutators of `fuzz_one`. -/
inductive Engine where
  | original
  | mopt
deriving DecidableEq, Repr

/-- A call of `fuzz_one`. `skipped` collects the return values. -/
structure FuzzOne where
  entry : Nat
  engine : Engine
  skipped : Bool
deriving DecidableEq, Repr

inductive Phase where
  | seeding
  | dryRun (idx : Nat)
  | starting
  | loopHead
  | importing (newCycle : Bool)
  | rescoring (idx : Nat)
  | selecting
  | picked (fuzz : FuzzOne)
  | calibrating (fuzz : FuzzOne)
  | trimming (fuzz : FuzzOne)
  | executing (fuzz : FuzzOne)
  | stopped
deriving DecidableEq, Repr

/-- `scored` is no variable of the source: for every entry the traces of its
own executions that were scored, the last one first. -/
structure Campaign where
  afl : Afl
  scored : Nat → List (Nat → UInt8)
  phase : Phase
  stopSoon : Bool
  runsInCurrentCycle : UInt32
  seekTo : Nat
  currentEntry : Nat
  queueCur : Option Nat

inductive Event where
  | interrupt
  | seed (len : UInt32)
  | dryRun (calibration : Calibration) (newCrashBits : Bool) (traceAfter : Nat → UInt8)
  | launch (seekTo : Nat)
  | advance
  | find (finding : Finding)
  | run (trace : Nat → UInt8) (nFuzz : Nat → UInt32)
  | select (entry : Nat)
  | enter (queueGet : Bool) (skip : Bool)
  | pass
  | calibrate (calibration : Calibration)
  | trimmed (len : UInt32) (trace : Nat → UInt8)
  | trimEnd (len : UInt32) (trace : Nat → UInt8)
  | abandon (completed : Bool)
  | restart (schedule : Schedule) (len : Nat → UInt32) (trace : Nat → UInt8)

/-! ## Calibration and trimming -/

/-- An execution of `q` itself is scored. -/
def Campaign.score (settings : Settings) (campaign : Campaign) (q : Nat)
    (trace : Nat → UInt8) : Campaign :=
  { campaign with
    afl := updateBitmapScore settings.toConfig { campaign.afl with traceBits := trace } q
    scored := Function.update campaign.scored q (trace :: campaign.scored q) }

def calibrateCase (settings : Settings) (campaign : Campaign) (q : Nat) :
    Calibration → Option (Campaign × Fault)
  | .aborted fault execCksum trace =>
      if (campaign.stopSoon ∨ fault ≠ settings.expected) ∧ fault ≠ .nobits then
        let afl := campaign.afl.modify q fun entry =>
          { entry with calFailed := entry.calFailed + 1, execCksum }
        some ({ campaign with afl := { afl with traceBits := trace } }, fault)
      else none
  | .completed newBits execUs execCksum trace =>
      let firstRun := (campaign.afl.queueBuf q).execCksum = 0
      let afl := campaign.afl.modify q fun entry =>
        { entry with calFailed := 0, execUs, execCksum }
      let fault :=
        if !settings.nonInstrumentedMode ∧ firstRun ∧ settings.expected = .ok ∧ !newBits then
          .nobits
        else settings.expected
      some (({ campaign with afl }).score settings q trace, fault)

/-! ## The dry run -/

/-- The block under `if (!q->was_fuzzed)`. -/
def Afl.retire (afl : Afl) (q : Nat) : Afl :=
  if (afl.queueBuf q).wasFuzzed then afl
  else
    { afl.modify q fun entry => { entry with wasFuzzed := true } with
      reinitTable := true
      pendingNotFuzzed := afl.pendingNotFuzzed - 1
      activeItems := afl.activeItems - 1 }

def Afl.disable (afl : Afl) (q : Nat) : Afl :=
  afl.modify q fun entry => { entry with disabled := true }

/-- The `switch` over the result of a seed. The fuzzer gives up where there is
no state. -/
def judgeSeed (settings : Settings) (afl : Afl) (q : Nat) (newCrashBits : Bool) :
    Fault → Option Afl
  | .ok => if settings.crashMode then none else some afl
  | .tmout =>
      if settings.timeoutGiven ∧ !settings.exitOnSeedIssues then
        some (((afl.modify q fun entry => { entry with calFailed := calChances }).disable q).retire q)
      else if settings.ignoreSeedProblems then some ((afl.retire q).disable q)
      else none
  | .crash =>
      if settings.crashMode then some afl
      else if settings.exitOnSeedIssues then none
      else if settings.crashingSeedsAsNewCrash ∧ !settings.nonInstrumentedMode ∧ !newCrashBits then
        -- the `break` leaves before the entry is disabled
        some (afl.retire q)
      else some ((afl.retire q).disable q)
  | .error => none
  | .noinst => none
  | .nobits => some afl

/-- The test at the head of both loops over duplicates. -/
def QueueEntry.comparable (entry : QueueEntry) : Bool :=
  !entry.disabled && entry.calFailed = 0 && entry.execCksum ≠ 0

/-- A round of the inner loop: `q` against `p`. The flag is `done`. -/
def disableDuplicate (q : Nat) (state : Afl × Bool) (p : Nat) : Afl × Bool :=
  let (afl, done) := state
  if done then (afl, done)
  else if !(afl.queueBuf p).comparable then (afl, done)
  else if (afl.queueBuf p).execCksum = (afl.queueBuf q).execCksum then
    -- we keep the shorter file
    if (afl.queueBuf q).len ≤ (afl.queueBuf p).len then ((afl.retire p).disable p, done)
    else ((afl.retire q).disable q, true)
  else (afl, done)

def disableDuplicatesOf (afl : Afl) (q : Nat) : Afl :=
  if !(afl.queueBuf q).comparable then afl
  else
    ((List.range (afl.queuedItems - (q + 1))).foldl
      (fun state k => disableDuplicate q state (q + 1 + k)) (afl, false)).1

/-- The end of `perform_dry_run`. -/
def removeDuplicates (afl : Afl) : Afl :=
  (List.range (afl.queuedItems - 1)).foldl disableDuplicatesOf afl

/-! ## The main loop -/

def rotateSchedule : Schedule → Schedule
  | .explore => .exploit
  | .exploit => .mmopt
  | .mmopt => .seek
  | .seek => .explore
  | .fast => .coe
  | .coe => .lin
  | .lin => .quad
  | .quad => .rare
  | .rare => .fast

/-- The first index from `i` on of an entry that is enabled, or the end of the
queue. -/
def Afl.skipDisabled (afl : Afl) (i : Nat) : Nat :=
  if i < afl.queuedItems then
    if (afl.queueBuf i).disabled then afl.skipDisabled (i + 1) else i
  else i
termination_by afl.queuedItems - i

def Campaign.isNewCycle (settings : Settings) (campaign : Campaign) : Bool :=
  if settings.oldSeedSelection then campaign.queueCur = none
  else campaign.afl.queuedItems < campaign.runsInCurrentCycle.toNat

/-- The choice of the first entry of a cycle under `old_seed_selection`. -/
def Campaign.firstEntry (settings : Settings) (campaign : Campaign) : Campaign :=
  if settings.oldSeedSelection then
    let first := campaign.afl.skipDisabled 0
    let first := if campaign.afl.queuedItems ≤ first then 0 else first
    let first := if campaign.seekTo ≠ 0 then campaign.seekTo else first
    { campaign with currentEntry := first, queueCur := some first, seekTo := 0 }
  else campaign

/-- `++runs_in_current_cycle` in front of the choice of an entry. -/
def Campaign.toSelection (campaign : Campaign) : Campaign :=
  { campaign with
    runsInCurrentCycle := campaign.runsInCurrentCycle + 1
    phase := .selecting }

def Campaign.newCycle (settings : Settings) (campaign : Campaign) : Option Campaign :=
  if settings.oldSeedSelection ∧ campaign.afl.queuedItems ≤ campaign.seekTo then none
  else
    let campaign := { campaign with runsInCurrentCycle := (0 : UInt32) - 1 }
    let campaign := campaign.firstEntry settings
    if settings.cycleSchedules then
      some { campaign with
        afl := { campaign.afl with schedule := rotateSchedule campaign.afl.schedule }
        phase := .rescoring 0 }
    else some campaign.toSelection

/-- The test in front of the choice through `smallest_favored`. -/
def Campaign.picksSmallest (settings : Settings) (campaign : Campaign) : Bool :=
  !settings.oldSeedSelection && campaign.afl.pendingFavored ≠ 0 &&
    (0 : Int) ≤ campaign.afl.smallestFavored

/-- `entry` is one that the loop may pick. The alias table may hold any. -/
def Campaign.mayPick (settings : Settings) (campaign : Campaign) (entry : Nat) : Bool :=
  if settings.oldSeedSelection then campaign.queueCur = some entry
  else if campaign.picksSmallest settings then (entry : Int) = campaign.afl.smallestFavored
  else entry < campaign.afl.queuedItems

def Campaign.select (settings : Settings) (campaign : Campaign) (entry : Nat) :
    Option Campaign :=
  if campaign.mayPick settings entry then
    some { campaign with
      currentEntry := entry
      queueCur := some entry
      phase := .picked
        { entry
          engine := if settings.limitTimeSig ≤ 0 then .original else .mopt
          skipped := false } }
  else none

/-- The step to the next entry under `old_seed_selection`. -/
def Campaign.nextEntry (settings : Settings) (campaign : Campaign) : Campaign :=
  if settings.oldSeedSelection then
    let next := campaign.afl.skipDisabled (campaign.currentEntry + 1)
    { campaign with
      currentEntry := next
      queueCur := if next < campaign.afl.queuedItems then some next else none }
  else campaign

/-- The end of the body of the `do` loop. -/
def Campaign.endFuzzOne (settings : Settings) (campaign : Campaign) (skipped : Bool) : Campaign :=
  if skipped ∧ (campaign.nextEntry settings).queueCur ≠ none ∧ !campaign.stopSoon then
    { campaign.nextEntry settings with phase := .selecting }
  else { campaign.nextEntry settings with phase := .importing false }

/-- A mutator returns to `fuzz_one`. -/
def Campaign.endEngine (settings : Settings) (campaign : Campaign) (fuzz : FuzzOne)
    (skipped : Bool) : Campaign :=
  if fuzz.engine = .original ∧ settings.limitTimeSig ≠ 0 then
    { campaign with
      phase := .picked { fuzz with engine := .mopt, skipped := fuzz.skipped || skipped } }
  else campaign.endFuzzOne settings (fuzz.skipped || skipped)

/-! ## Inside `fuzz_one` -/

/-- The condition under which the dice may skip the entry. -/
def Campaign.maySkip (settings : Settings) (campaign : Campaign) (q : Nat) : Bool :=
  let entry := campaign.afl.queueBuf q
  if campaign.afl.pendingFavored ≠ 0 then entry.fuzzLevel ≠ 0 || !entry.favored
  else !settings.nonInstrumentedMode && !entry.favored && 10 < campaign.afl.queuedItems

def Campaign.enterTrimming (settings : Settings) (campaign : Campaign) (fuzz : FuzzOne) :
    Campaign :=
  if !settings.nonInstrumentedMode ∧ !(campaign.afl.queueBuf fuzz.entry).trimDone ∧
      !settings.disableTrim then
    { campaign with phase := .trimming fuzz }
  else { campaign with phase := .executing fuzz }

def Campaign.enter (settings : Settings) (campaign : Campaign) (fuzz : FuzzOne)
    (queueGet skip : Bool) : Option Campaign :=
  if fuzz.engine = .original ∧ !queueGet then some (campaign.endEngine settings fuzz true)
  else if skip then
    if campaign.maySkip settings fuzz.entry then some (campaign.endEngine settings fuzz true)
    else none
  else if (campaign.afl.queueBuf fuzz.entry).calFailed ≠ 0 then
    some { campaign with phase := .calibrating fuzz }
  else some (campaign.enterTrimming settings fuzz)

/-- The block under `abandon_entry`: the entry made it through calibration and
was not seen before. -/
def Afl.markFuzzed (afl : Afl) (q : Nat) (stopSoon : Bool) : Afl :=
  let entry := afl.queueBuf q
  if !stopSoon ∧ entry.calFailed = 0 ∧ !entry.wasFuzzed ∧ !entry.disabled then
    { afl.modify q fun entry => { entry with wasFuzzed := true } with
      pendingNotFuzzed := afl.pendingNotFuzzed - 1
      reinitTable := true
      pendingFavored := if entry.favored then afl.pendingFavored - 1 else afl.pendingFavored
      smallestFavored := if entry.favored then -1 else afl.smallestFavored }
  else afl

def abandonEntry (afl : Afl) (q : Nat) (stopSoon : Bool) : Afl :=
  (afl.markFuzzed q stopSoon).modify q fun entry =>
    { entry with fuzzLevel := entry.fuzzLevel + 1 }

/-- The mutator of MOpt only counts the call. -/
def moptAbandonEntry (afl : Afl) (q : Nat) : Afl :=
  afl.modify q fun entry => { entry with fuzzLevel := entry.fuzzLevel + 1 }

def Campaign.abandon (settings : Settings) (campaign : Campaign) (fuzz : FuzzOne)
    (skipped : Bool) : Campaign :=
  let afl :=
    match fuzz.engine with
    | .original => abandonEntry campaign.afl fuzz.entry campaign.stopSoon
    | .mopt => moptAbandonEntry campaign.afl fuzz.entry
  ({ campaign with afl }).endEngine settings fuzz skipped

/-- The calibration of an entry that failed it before. -/
def Campaign.recalibrate (settings : Settings) (campaign : Campaign) (fuzz : FuzzOne)
    (calibration : Calibration) : Option Campaign := do
  let afl := campaign.afl.modify fuzz.entry fun entry => { entry with execCksum := 0 }
  let (campaign, fault) ← calibrateCase settings { campaign with afl } fuzz.entry calibration
  if fault = .error then none
  else if campaign.stopSoon ∨ fault ≠ settings.expected then
    some (campaign.abandon settings fuzz true)
  else some (campaign.enterTrimming settings fuzz)

/-- A trimmed version of the entry is kept and scored. -/
def Campaign.keepTrimmed (settings : Settings) (campaign : Campaign) (q : Nat) (len : UInt32)
    (trace : Nat → UInt8) : Campaign :=
  let afl := campaign.afl.modify q fun entry => { entry with len }
  ({ campaign with afl }).score settings q trace

def Campaign.endTrimming (settings : Settings) (campaign : Campaign) (fuzz : FuzzOne)
    (len : UInt32) (trace : Nat → UInt8) : Campaign :=
  let afl := campaign.afl.modify fuzz.entry fun entry => { entry with len }
  let campaign := { campaign with afl := { afl with traceBits := trace } }
  if campaign.stopSoon then campaign.abandon settings fuzz true
  else
    { campaign with
      afl := campaign.afl.modify fuzz.entry fun entry => { entry with trimDone := true }
      phase := .executing fuzz }

/-- The path of `save_if_interesting` that adds to the queue. -/
def Campaign.saveIfInteresting (settings : Settings) (campaign : Campaign)
    (finding : Finding) : Option Campaign := do
  let q := campaign.afl.queuedItems
  let added := (addToQueue campaign.afl finding.len).modify q fun entry =>
    { entry with execCksum := finding.execCksum, nFuzzEntry := finding.nFuzzEntry }
  let (campaign, fault) ← calibrateCase settings
    { campaign with afl := { added with nFuzz := finding.nFuzz } } q finding.calibration
  if fault = .error ∨ finding.len = 0 then none
  else some { campaign with afl := { campaign.afl with traceBits := finding.traceAfter } }

/-! ## Steps -/

/-- A seed goes through the loop of `perform_dry_run`. -/
def Campaign.dryRunSeed (settings : Settings) (campaign : Campaign) (idx : Nat)
    (calibration : Calibration) (newCrashBits : Bool) (traceAfter : Nat → UInt8) :
    Option Campaign := do
  let (campaign, fault) ← calibrateCase settings campaign idx calibration
  let entry := campaign.afl.queueBuf idx
  let afl :=
    if Schedule.fast.number ≤ campaign.afl.schedule.number ∧
        campaign.afl.schedule.number ≤ Schedule.rare.number ∧ entry.execCksum ≠ 0 then
      campaign.afl.modify idx fun entry =>
        { entry with nFuzzEntry := (entry.execCksum % nFuzzSize).toUInt32 }
    else campaign.afl
  if campaign.stopSoon then some { campaign with afl, phase := .starting }
  else
    let afl ← judgeSeed settings afl idx newCrashBits fault
    some { campaign with
      afl := { afl with traceBits := traceAfter }
      phase := .dryRun (idx + 1) }

def Campaign.advance (settings : Settings) (campaign : Campaign) : Option Campaign :=
  match campaign.phase with
  | .seeding =>
      if campaign.afl.queuedItems = 0 then none
      else if settings.noStartupCalibration then some { campaign with phase := .starting }
      else some { campaign with phase := .dryRun 0 }
  | .dryRun idx =>
      if idx < campaign.afl.queuedItems then
        if (campaign.afl.queueBuf idx).disabled ∨ (campaign.afl.queueBuf idx).len = 0 then
          some { campaign with phase := .dryRun (idx + 1) }
        else none
      else some { campaign with afl := removeDuplicates campaign.afl, phase := .starting }
  | .loopHead =>
      if campaign.stopSoon then some { campaign with phase := .stopped }
      else
        let campaign := { campaign with afl := cullQueue settings.toConfig campaign.afl }
        if campaign.isNewCycle settings then some { campaign with phase := .importing true }
        else some campaign.toSelection
  | .importing newCycle =>
      if newCycle then campaign.newCycle settings else some { campaign with phase := .loopHead }
  | .rescoring idx =>
      if idx < campaign.afl.queuedItems then
        let afl :=
          if (campaign.afl.queueBuf idx).disabled then campaign.afl
          else updateBitmapScore settings.toConfig campaign.afl idx
        some { campaign with afl, phase := .rescoring (idx + 1) }
      else some campaign.toSelection
  | .calibrating fuzz =>
      if (campaign.afl.queueBuf fuzz.entry).calFailed < calChances then none
      else some (campaign.abandon settings fuzz true)
  | _ => none

/-- `cull_queue` and the checks before the main loop. -/
def Campaign.launch (settings : Settings) (campaign : Campaign) (seekTo : Nat) :
    Option Campaign :=
  let afl := cullQueue settings.toConfig campaign.afl
  let validSeeds := (List.range afl.queuedItems).any fun q => !(afl.queueBuf q).disabled
  if afl.pendingNotFuzzed = 0 ∨ !validSeeds then none
  else some { campaign with
    afl, seekTo, phase := if campaign.stopSoon then .stopped else .loopHead }

/-- A process that resumes in place from the state that this one leaves. -/
def Campaign.restart (settings : Settings) (campaign : Campaign) (schedule : Schedule)
    (len : Nat → UInt32) (trace : Nat → UInt8) : Campaign where
  afl := fastResume settings.toConfig schedule len trace campaign.afl
  scored := fun _ => []
  phase := .starting
  stopSoon := false
  runsInCurrentCycle := 0 - 1
  seekTo := 0
  currentEntry := 0
  queueCur := none

def Campaign.step (settings : Settings) (campaign : Campaign) : Event → Option Campaign
  | .interrupt => some { campaign with stopSoon := true }
  | .seed len =>
      match campaign.phase with
      | .seeding => some { campaign with afl := addToQueue campaign.afl len }
      | _ => none
  | .dryRun calibration newCrashBits traceAfter =>
      match campaign.phase with
      | .dryRun idx =>
          if idx < campaign.afl.queuedItems ∧ !(campaign.afl.queueBuf idx).disabled ∧
              (campaign.afl.queueBuf idx).len ≠ 0 then
            campaign.dryRunSeed settings idx calibration newCrashBits traceAfter
          else none
      | _ => none
  | .launch seekTo =>
      match campaign.phase with
      | .starting => campaign.launch settings seekTo
      | _ => none
  | .advance => campaign.advance settings
  | .find finding =>
      match campaign.phase with
      | .importing _ | .executing _ => campaign.saveIfInteresting settings finding
      | _ => none
  | .run trace nFuzz =>
      match campaign.phase with
      | .importing _ | .executing _ =>
          some { campaign with afl := { campaign.afl with traceBits := trace, nFuzz } }
      | _ => none
  | .select entry =>
      match campaign.phase with
      | .selecting => campaign.select settings entry
      | _ => none
  | .enter queueGet skip =>
      match campaign.phase with
      | .picked fuzz => campaign.enter settings fuzz queueGet skip
      | _ => none
  | .pass =>
      -- MOpt updates its swarms instead of fuzzing
      match campaign.phase with
      | .picked fuzz =>
          if fuzz.engine = .mopt then some (campaign.endEngine settings fuzz false) else none
      | _ => none
  | .calibrate calibration =>
      match campaign.phase with
      | .calibrating fuzz =>
          if (campaign.afl.queueBuf fuzz.entry).calFailed < calChances then
            campaign.recalibrate settings fuzz calibration
          else none
      | _ => none
  | .trimmed len trace =>
      match campaign.phase with
      | .trimming fuzz => some (campaign.keepTrimmed settings fuzz.entry len trace)
      | _ => none
  | .trimEnd len trace =>
      match campaign.phase with
      | .trimming fuzz => some (campaign.endTrimming settings fuzz len trace)
      | _ => none
  | .abandon completed =>
      match campaign.phase with
      | .executing fuzz => some (campaign.abandon settings fuzz (!completed))
      | _ => none
  | .restart schedule len trace =>
      match campaign.phase with
      | .stopped => some (campaign.restart settings schedule len trace)
      | _ => none

def campaignMachine (settings : Settings) (schedule : Schedule) : Machine Campaign Event where
  initial :=
    { afl := .initial schedule
      scored := fun _ => []
      phase := .seeding
      stopSoon := false
      runsInCurrentCycle := 0 - 1
      seekTo := 0
      currentEntry := 0
      queueCur := none }
  step := fun campaign event => campaign.step settings event

end SbFuzz.Fuzzer
