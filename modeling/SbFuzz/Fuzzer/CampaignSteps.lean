import SbFuzz.Fuzzer.Campaign
import SbFuzz.Systems.Loops

/-! What a step of a campaign can do, action by action, and the loops of the
dry run over duplicates. -/

set_option autoImplicit false

namespace SbFuzz.Fuzzer

/-! ## Seeds -/

theorem Campaign.step_seed {settings : Settings} {campaign next : Campaign} {len : UInt32}
    (stepped : campaign.step settings (.seed len) = some next) :
    campaign.phase = .seeding ∧ next = { campaign with afl := addToQueue campaign.afl len } := by
  simp only [Campaign.step] at stepped
  split at stepped
  · next phase => exact ⟨phase, (Option.some.inj stepped).symm⟩
  · cases stepped

/-! ## Where a campaign goes on -/

section

variable (settings : Settings) (campaign : Campaign) (fuzz : FuzzOne)

@[simp] theorem Campaign.nextEntry_afl : (campaign.nextEntry settings).afl = campaign.afl := by
  unfold Campaign.nextEntry
  split <;> rfl

@[simp] theorem Campaign.nextEntry_scored :
    (campaign.nextEntry settings).scored = campaign.scored := by
  unfold Campaign.nextEntry
  split <;> rfl

@[simp] theorem Campaign.nextEntry_stopSoon :
    (campaign.nextEntry settings).stopSoon = campaign.stopSoon := by
  unfold Campaign.nextEntry
  split <;> rfl

@[simp] theorem Campaign.endFuzzOne_afl (skipped : Bool) :
    (campaign.endFuzzOne settings skipped).afl = campaign.afl := by
  unfold Campaign.endFuzzOne
  split <;> simp

@[simp] theorem Campaign.endFuzzOne_scored (skipped : Bool) :
    (campaign.endFuzzOne settings skipped).scored = campaign.scored := by
  unfold Campaign.endFuzzOne
  split <;> simp

@[simp] theorem Campaign.endFuzzOne_stopSoon (skipped : Bool) :
    (campaign.endFuzzOne settings skipped).stopSoon = campaign.stopSoon := by
  unfold Campaign.endFuzzOne
  split <;> simp

theorem Campaign.endFuzzOne_phase (skipped : Bool) :
    (campaign.endFuzzOne settings skipped).phase = .importing false ∨
      (campaign.endFuzzOne settings skipped).phase = .selecting ∧ campaign.stopSoon = false := by
  unfold Campaign.endFuzzOne
  split
  · next again => exact .inr ⟨rfl, by simpa using again.2.2⟩
  · exact .inl rfl

@[simp] theorem Campaign.endEngine_afl (skipped : Bool) :
    (campaign.endEngine settings fuzz skipped).afl = campaign.afl := by
  unfold Campaign.endEngine
  split <;> simp

@[simp] theorem Campaign.endEngine_scored (skipped : Bool) :
    (campaign.endEngine settings fuzz skipped).scored = campaign.scored := by
  unfold Campaign.endEngine
  split <;> simp

@[simp] theorem Campaign.endEngine_stopSoon (skipped : Bool) :
    (campaign.endEngine settings fuzz skipped).stopSoon = campaign.stopSoon := by
  unfold Campaign.endEngine
  split <;> simp

/-- The call that a phase is about. -/
def Phase.fuzzOne : Phase → Option FuzzOne
  | .picked fuzz | .calibrating fuzz | .trimming fuzz | .executing fuzz => some fuzz
  | _ => none

theorem Campaign.endFuzzOne_queueCur (skipped : Bool) {q : Nat}
    (current : (campaign.endFuzzOne settings skipped).queueCur = some q) :
    campaign.queueCur = some q ∨ q < campaign.afl.queuedItems := by
  have same : (campaign.endFuzzOne settings skipped).queueCur =
      (campaign.nextEntry settings).queueCur := by
    unfold Campaign.endFuzzOne
    split <;> rfl
  rw [same] at current
  unfold Campaign.nextEntry at current
  split at current
  · simp only at current
    split at current
    · next inside => exact .inr (Option.some.inj current ▸ inside)
    · cases current
  · exact .inl current

theorem Campaign.endEngine_queueCur (skipped : Bool) {q : Nat}
    (current : (campaign.endEngine settings fuzz skipped).queueCur = some q) :
    campaign.queueCur = some q ∨ q < campaign.afl.queuedItems := by
  unfold Campaign.endEngine at current
  split at current
  · exact .inl current
  · exact campaign.endFuzzOne_queueCur settings _ current

/-- Where a mutator leaves the campaign: at MOpt with the same entry, at the
choice of an entry, or at the end of the round. -/
theorem Campaign.endEngine_phase (skipped : Bool) :
    (∃ either, (campaign.endEngine settings fuzz skipped).phase =
        .picked { fuzz with engine := .mopt, skipped := either } ∧ fuzz.engine = .original) ∨
      (campaign.endEngine settings fuzz skipped).phase = .importing false ∨
      (campaign.endEngine settings fuzz skipped).phase = .selecting ∧
        campaign.stopSoon = false := by
  unfold Campaign.endEngine
  split
  · next first => exact .inl ⟨fuzz.skipped || skipped, rfl, first.1⟩
  · exact .inr (campaign.endFuzzOne_phase settings _)

theorem Campaign.enterTrimming_phase :
    (campaign.enterTrimming settings fuzz).phase = .trimming fuzz ∨
      (campaign.enterTrimming settings fuzz).phase = .executing fuzz := by
  unfold Campaign.enterTrimming
  split
  · exact .inl rfl
  · exact .inr rfl

@[simp] theorem Campaign.enterTrimming_queueCur :
    (campaign.enterTrimming settings fuzz).queueCur = campaign.queueCur := by
  unfold Campaign.enterTrimming
  split <;> rfl

@[simp] theorem Campaign.enterTrimming_afl :
    (campaign.enterTrimming settings fuzz).afl = campaign.afl := by
  unfold Campaign.enterTrimming
  split <;> rfl

@[simp] theorem Campaign.enterTrimming_scored :
    (campaign.enterTrimming settings fuzz).scored = campaign.scored := by
  unfold Campaign.enterTrimming
  split <;> rfl

@[simp] theorem Campaign.enterTrimming_stopSoon :
    (campaign.enterTrimming settings fuzz).stopSoon = campaign.stopSoon := by
  unfold Campaign.enterTrimming
  split <;> rfl

@[simp] theorem Campaign.firstEntry_afl : (campaign.firstEntry settings).afl = campaign.afl := by
  unfold Campaign.firstEntry
  split <;> rfl

@[simp] theorem Campaign.firstEntry_scored :
    (campaign.firstEntry settings).scored = campaign.scored := by
  unfold Campaign.firstEntry
  split <;> rfl

@[simp] theorem Campaign.firstEntry_stopSoon :
    (campaign.firstEntry settings).stopSoon = campaign.stopSoon := by
  unfold Campaign.firstEntry
  split <;> rfl

end

/-! ## Actions -/

section

variable {settings : Settings} {campaign next : Campaign}

theorem Campaign.step_dryRun {calibration : Calibration} {newCrashBits : Bool}
    {traceAfter : Nat → UInt8}
    (stepped : campaign.step settings (.dryRun calibration newCrashBits traceAfter) = some next) :
    ∃ idx, campaign.phase = .dryRun idx ∧ idx < campaign.afl.queuedItems ∧
      (campaign.afl.queueBuf idx).disabled = false ∧
      campaign.dryRunSeed settings idx calibration newCrashBits traceAfter = some next := by
  simp only [Campaign.step] at stepped
  split at stepped
  · next idx phase =>
    split at stepped
    · next valid => exact ⟨idx, phase, valid.1, by simpa using valid.2.1, stepped⟩
    · cases stepped
  · cases stepped

theorem Campaign.step_launch {seekTo : Nat}
    (stepped : campaign.step settings (.launch seekTo) = some next) :
    campaign.phase = .starting ∧ campaign.launch settings seekTo = some next := by
  simp only [Campaign.step] at stepped
  split at stepped
  · next phase => exact ⟨phase, stepped⟩
  · cases stepped

theorem Campaign.step_find {finding : Finding}
    (stepped : campaign.step settings (.find finding) = some next) :
    ((∃ newCycle, campaign.phase = .importing newCycle) ∨
      ∃ fuzz, campaign.phase = .executing fuzz) ∧
      campaign.saveIfInteresting settings finding = some next := by
  simp only [Campaign.step] at stepped
  split at stepped
  · next newCycle phase => exact ⟨.inl ⟨newCycle, phase⟩, stepped⟩
  · next fuzz phase => exact ⟨.inr ⟨fuzz, phase⟩, stepped⟩
  · cases stepped

theorem Campaign.step_run {trace : Nat → UInt8} {nFuzz : Nat → UInt32}
    (stepped : campaign.step settings (.run trace nFuzz) = some next) :
    next = { campaign with afl := { campaign.afl with traceBits := trace, nFuzz } } := by
  simp only [Campaign.step] at stepped
  split at stepped
  · exact (Option.some.inj stepped).symm
  · exact (Option.some.inj stepped).symm
  · cases stepped

theorem Campaign.step_select {entry : Nat}
    (stepped : campaign.step settings (.select entry) = some next) :
    campaign.phase = .selecting ∧ campaign.mayPick settings entry = true ∧
      next.afl = campaign.afl ∧ next.scored = campaign.scored ∧
      next.stopSoon = campaign.stopSoon ∧
      next.queueCur = some entry ∧
      ∃ engine, next.phase = .picked { entry, engine, skipped := false } := by
  simp only [Campaign.step] at stepped
  split at stepped
  · next phase =>
    unfold Campaign.select at stepped
    split at stepped
    · next picked =>
      obtain rfl := Option.some.inj stepped
      exact ⟨phase, picked, rfl, rfl, rfl, rfl, _, rfl⟩
    · cases stepped
  · cases stepped

theorem Campaign.step_enter {queueGet skip : Bool}
    (stepped : campaign.step settings (.enter queueGet skip) = some next) :
    ∃ fuzz, campaign.phase = .picked fuzz ∧
      campaign.enter settings fuzz queueGet skip = some next := by
  simp only [Campaign.step] at stepped
  split at stepped
  · next fuzz phase => exact ⟨fuzz, phase, stepped⟩
  · cases stepped

theorem Campaign.step_pass (stepped : campaign.step settings .pass = some next) :
    ∃ fuzz, campaign.phase = .picked fuzz ∧ fuzz.engine = .mopt ∧
      next = campaign.endEngine settings fuzz false := by
  simp only [Campaign.step] at stepped
  split at stepped
  · next fuzz phase =>
    split at stepped
    · next mopt => exact ⟨fuzz, phase, mopt, (Option.some.inj stepped).symm⟩
    · cases stepped
  · cases stepped

theorem Campaign.step_calibrate {calibration : Calibration}
    (stepped : campaign.step settings (.calibrate calibration) = some next) :
    ∃ fuzz, campaign.phase = .calibrating fuzz ∧
      campaign.recalibrate settings fuzz calibration = some next := by
  simp only [Campaign.step] at stepped
  split at stepped
  · next fuzz phase =>
    split at stepped
    · exact ⟨fuzz, phase, stepped⟩
    · cases stepped
  · cases stepped

theorem Campaign.step_trimmed {len : UInt32} {trace : Nat → UInt8}
    (stepped : campaign.step settings (.trimmed len trace) = some next) :
    ∃ fuzz, campaign.phase = .trimming fuzz ∧
      next = campaign.keepTrimmed settings fuzz.entry len trace := by
  simp only [Campaign.step] at stepped
  split at stepped
  · next fuzz phase => exact ⟨fuzz, phase, (Option.some.inj stepped).symm⟩
  · cases stepped

theorem Campaign.step_trimEnd {len : UInt32} {trace : Nat → UInt8}
    (stepped : campaign.step settings (.trimEnd len trace) = some next) :
    ∃ fuzz, campaign.phase = .trimming fuzz ∧
      next = campaign.endTrimming settings fuzz len trace := by
  simp only [Campaign.step] at stepped
  split at stepped
  · next fuzz phase => exact ⟨fuzz, phase, (Option.some.inj stepped).symm⟩
  · cases stepped

theorem Campaign.step_abandon {completed : Bool}
    (stepped : campaign.step settings (.abandon completed) = some next) :
    ∃ fuzz, campaign.phase = .executing fuzz ∧
      next = campaign.abandon settings fuzz (!completed) := by
  simp only [Campaign.step] at stepped
  split at stepped
  · next fuzz phase => exact ⟨fuzz, phase, (Option.some.inj stepped).symm⟩
  · cases stepped

theorem Campaign.step_restart {schedule : Schedule} {len : Nat → UInt32} {trace : Nat → UInt8}
    (stepped : campaign.step settings (.restart schedule len trace) = some next) :
    campaign.phase = .stopped ∧ next = campaign.restart settings schedule len trace := by
  simp only [Campaign.step] at stepped
  split at stepped
  · next phase => exact ⟨phase, (Option.some.inj stepped).symm⟩
  · cases stepped

end

/-! ## Calibration -/

/-- The entry after a calibration that was given up, or went through. -/
def QueueEntry.calibrated (entry : QueueEntry) : Calibration → QueueEntry
  | .aborted _ execCksum _ => { entry with calFailed := entry.calFailed + 1, execCksum }
  | .completed _ execUs execCksum _ => { entry with calFailed := 0, execUs, execCksum }

section

variable (entry : QueueEntry) (calibration : Calibration)

@[simp] theorem QueueEntry.calibrated_tcRef : (entry.calibrated calibration).tcRef = entry.tcRef := by
  cases calibration <;> rfl

@[simp] theorem QueueEntry.calibrated_traceMini :
    (entry.calibrated calibration).traceMini = entry.traceMini := by
  cases calibration <;> rfl

@[simp] theorem QueueEntry.calibrated_disabled :
    (entry.calibrated calibration).disabled = entry.disabled := by
  cases calibration <;> rfl

@[simp] theorem QueueEntry.calibrated_wasFuzzed :
    (entry.calibrated calibration).wasFuzzed = entry.wasFuzzed := by
  cases calibration <;> rfl

@[simp] theorem QueueEntry.calibrated_favored :
    (entry.calibrated calibration).favored = entry.favored := by
  cases calibration <;> rfl

@[simp] theorem QueueEntry.calibrated_fsRedundant :
    (entry.calibrated calibration).fsRedundant = entry.fsRedundant := by
  cases calibration <;> rfl

end

def Campaign.recordCalibration (campaign : Campaign) (q : Nat) (calibration : Calibration) :
    Campaign :=
  { campaign with afl := campaign.afl.modify q fun entry => entry.calibrated calibration }

theorem Campaign.recordCalibration_afl (campaign : Campaign) (q : Nat) (calibration : Calibration) :
    (campaign.recordCalibration q calibration).afl =
      campaign.afl.modify q fun entry => entry.calibrated calibration := rfl

/-- A calibration changes its entry and the trace buffer; if it goes through,
the trace is scored. -/
theorem calibrateCase_cases {settings : Settings} {campaign after : Campaign} {q : Nat}
    {calibration : Calibration} {fault : Fault}
    (called : calibrateCase settings campaign q calibration = some (after, fault)) :
    (∃ execCksum trace, calibration = .aborted fault execCksum trace ∧
      (campaign.stopSoon = true ∨ fault ≠ settings.expected) ∧ fault ≠ .nobits ∧
      after = { campaign with
        afl := { (campaign.recordCalibration q calibration).afl with traceBits := trace } }) ∨
    ∃ newBits execUs execCksum trace,
      calibration = .completed newBits execUs execCksum trace ∧
      (fault = .nobits ∧ settings.expected = .ok ∨ fault = settings.expected) ∧
      after = (campaign.recordCalibration q calibration).score settings q trace := by
  cases calibration with
  | aborted given execCksum trace =>
      simp only [calibrateCase] at called
      split at called
      · next allowed =>
        obtain ⟨rfl, rfl⟩ := Prod.mk.inj (Option.some.inj called)
        exact .inl ⟨execCksum, trace, rfl, allowed.1, allowed.2, rfl⟩
      · cases called
  | completed newBits execUs execCksum trace =>
      simp only [calibrateCase] at called
      obtain ⟨rfl, rfl⟩ := Prod.mk.inj (Option.some.inj called)
      refine .inr ⟨newBits, execUs, execCksum, trace, rfl, ?_, rfl⟩
      split
      · next silent => exact .inl ⟨rfl, silent.2.2.1⟩
      · exact .inr rfl

theorem calibrateCase_stopSoon {settings : Settings} {campaign after : Campaign} {q : Nat}
    {calibration : Calibration} {fault : Fault}
    (called : calibrateCase settings campaign q calibration = some (after, fault)) :
    after.stopSoon = campaign.stopSoon := by
  rcases calibrateCase_cases called with ⟨_, _, _, _, _, rfl⟩ | ⟨_, _, _, _, _, _, rfl⟩
  · rfl
  · rfl

theorem calibrateCase_phase {settings : Settings} {campaign after : Campaign} {q : Nat}
    {calibration : Calibration} {fault : Fault}
    (called : calibrateCase settings campaign q calibration = some (after, fault)) :
    after.phase = campaign.phase := by
  rcases calibrateCase_cases called with ⟨_, _, _, _, _, rfl⟩ | ⟨_, _, _, _, _, _, rfl⟩
  · rfl
  · rfl

theorem calibrateCase_queueCur {settings : Settings} {campaign after : Campaign} {q : Nat}
    {calibration : Calibration} {fault : Fault}
    (called : calibrateCase settings campaign q calibration = some (after, fault)) :
    after.queueCur = campaign.queueCur := by
  rcases calibrateCase_cases called with ⟨_, _, _, _, _, rfl⟩ | ⟨_, _, _, _, _, _, rfl⟩
  · rfl
  · rfl

/-- The `n_fuzz` slot that the dry run gives to a seed. -/
def Afl.labelSeed (afl : Afl) (q : Nat) : Afl :=
  if Schedule.fast.number ≤ afl.schedule.number ∧
      afl.schedule.number ≤ Schedule.rare.number ∧ (afl.queueBuf q).execCksum ≠ 0 then
    afl.modify q fun entry =>
      { entry with nFuzzEntry := (entry.execCksum % nFuzzSize).toUInt32 }
  else afl

section

variable {settings : Settings} {campaign next : Campaign} {fuzz : FuzzOne}
  {calibration : Calibration}

theorem Campaign.dryRunSeed_cases {idx : Nat} {newCrashBits : Bool} {traceAfter : Nat → UInt8}
    (ran : campaign.dryRunSeed settings idx calibration newCrashBits traceAfter = some next) :
    ∃ after fault, calibrateCase settings campaign idx calibration = some (after, fault) ∧
      (next = { after with afl := after.afl.labelSeed idx, phase := .starting } ∨
        ∃ judged, judgeSeed settings (after.afl.labelSeed idx) idx newCrashBits fault =
            some judged ∧ after.stopSoon = false ∧
          next = { after with
            afl := { judged with traceBits := traceAfter }
            phase := .dryRun (idx + 1) }) := by
  unfold Campaign.dryRunSeed at ran
  obtain ⟨⟨after, fault⟩, called, ran⟩ := Option.bind_eq_some_iff.mp ran
  refine ⟨after, fault, called, ?_⟩
  simp only at ran
  split at ran
  · exact .inl (Option.some.inj ran).symm
  · next going =>
    obtain ⟨judged, judge, ran⟩ := Option.bind_eq_some_iff.mp ran
    exact .inr ⟨judged, judge, by simpa using going, (Option.some.inj ran).symm⟩

/-- The checksum is cleared before an entry is calibrated again. -/
def Campaign.clearCksum (campaign : Campaign) (q : Nat) : Campaign :=
  { campaign with afl := campaign.afl.modify q fun entry => { entry with execCksum := 0 } }

theorem Campaign.clearCksum_afl (q : Nat) : (campaign.clearCksum q).afl =
    campaign.afl.modify q fun entry => { entry with execCksum := 0 } := rfl

theorem Campaign.recalibrate_cases
    (ran : campaign.recalibrate settings fuzz calibration = some next) :
    ∃ after fault, calibrateCase settings (campaign.clearCksum fuzz.entry) fuzz.entry
        calibration = some (after, fault) ∧
      ((after.stopSoon = true ∨ fault ≠ settings.expected) ∧
          next = after.abandon settings fuzz true ∨
        after.stopSoon = false ∧ fault = settings.expected ∧
          next = after.enterTrimming settings fuzz) := by
  unfold Campaign.recalibrate at ran
  obtain ⟨⟨after, fault⟩, called, ran⟩ := Option.bind_eq_some_iff.mp ran
  refine ⟨after, fault, called, ?_⟩
  simp only at ran
  split at ran
  · cases ran
  · split at ran
    · next failed => exact .inl ⟨failed, (Option.some.inj ran).symm⟩
    · next went =>
      obtain ⟨going, expected⟩ := not_or.mp went
      exact .inr ⟨by simpa using going, by simpa using expected, (Option.some.inj ran).symm⟩

/-- The queue with a finding at its end, before it is calibrated. -/
def Campaign.addFinding (campaign : Campaign) (finding : Finding) : Campaign :=
  { campaign with
    afl := { (addToQueue campaign.afl finding.len).modify campaign.afl.queuedItems fun entry =>
        { entry with execCksum := finding.execCksum, nFuzzEntry := finding.nFuzzEntry } with
      nFuzz := finding.nFuzz } }

theorem Campaign.saveIfInteresting_cases {finding : Finding}
    (ran : campaign.saveIfInteresting settings finding = some next) :
    ∃ after fault, calibrateCase settings (campaign.addFinding finding) campaign.afl.queuedItems
        finding.calibration = some (after, fault) ∧
      next = { after with afl := { after.afl with traceBits := finding.traceAfter } } := by
  unfold Campaign.saveIfInteresting at ran
  obtain ⟨⟨after, fault⟩, called, ran⟩ := Option.bind_eq_some_iff.mp ran
  refine ⟨after, fault, called, ?_⟩
  simp only at ran
  split at ran
  · cases ran
  · exact (Option.some.inj ran).symm

/-! ## The way out of `fuzz_one` -/

/-- What both mutators do at their end to the entry. -/
def Campaign.leave (campaign : Campaign) (fuzz : FuzzOne) : Campaign :=
  { campaign with
    afl :=
      match fuzz.engine with
      | .original => abandonEntry campaign.afl fuzz.entry campaign.stopSoon
      | .mopt => moptAbandonEntry campaign.afl fuzz.entry }

theorem Campaign.abandon_eq (settings : Settings) (campaign : Campaign) (fuzz : FuzzOne)
    (skipped : Bool) : campaign.abandon settings fuzz skipped =
      (campaign.leave fuzz).endEngine settings fuzz skipped := rfl

theorem Campaign.abandon_afl (settings : Settings) (campaign : Campaign) (fuzz : FuzzOne)
    (skipped : Bool) : (campaign.abandon settings fuzz skipped).afl =
    match fuzz.engine with
    | .original => abandonEntry campaign.afl fuzz.entry campaign.stopSoon
    | .mopt => moptAbandonEntry campaign.afl fuzz.entry := by
  unfold Campaign.abandon
  exact Campaign.endEngine_afl settings _ fuzz skipped

@[simp] theorem Campaign.abandon_scored (skipped : Bool) :
    (campaign.abandon settings fuzz skipped).scored = campaign.scored := by
  unfold Campaign.abandon
  rw [Campaign.endEngine_scored]

/-- A shorter version of the entry replaces it. -/
def Campaign.resize (campaign : Campaign) (q : Nat) (len : UInt32) : Campaign :=
  { campaign with afl := campaign.afl.modify q fun entry => { entry with len } }

theorem Campaign.resize_afl (q : Nat) (len : UInt32) : (campaign.resize q len).afl =
    campaign.afl.modify q fun entry => { entry with len } := rfl

theorem Campaign.keepTrimmed_eq (q : Nat) (len : UInt32) (trace : Nat → UInt8) :
    campaign.keepTrimmed settings q len trace =
      (campaign.resize q len).score settings q trace := rfl

/-- What the entry is after its trimming, and with which trace in the buffer. -/
def Campaign.trimTo (campaign : Campaign) (q : Nat) (len : UInt32) (trace : Nat → UInt8) :
    Campaign :=
  { campaign with afl := { (campaign.resize q len).afl with traceBits := trace } }

theorem Campaign.endTrimming_cases (settings : Settings) (campaign : Campaign) (fuzz : FuzzOne)
    (len : UInt32) (trace : Nat → UInt8) :
    campaign.stopSoon = true ∧ campaign.endTrimming settings fuzz len trace =
        (campaign.trimTo fuzz.entry len trace).abandon settings fuzz true ∨
      campaign.stopSoon = false ∧ campaign.endTrimming settings fuzz len trace =
        { campaign with
          afl := (campaign.trimTo fuzz.entry len trace).afl.modify fuzz.entry fun entry =>
            { entry with trimDone := true }
          phase := .executing fuzz } := by
  unfold Campaign.endTrimming
  simp only
  split
  · next stopped => exact .inl ⟨stopped, rfl⟩
  · next going => exact .inr ⟨by simpa using going, rfl⟩

theorem Campaign.enter_cases {queueGet skip : Bool}
    (entered : campaign.enter settings fuzz queueGet skip = some next) :
    next = campaign.endEngine settings fuzz true ∧
        (queueGet = false ∨ campaign.maySkip settings fuzz.entry = true) ∨
      (campaign.afl.queueBuf fuzz.entry).calFailed ≠ 0 ∧
        next = { campaign with phase := .calibrating fuzz } ∨
      (campaign.afl.queueBuf fuzz.entry).calFailed = 0 ∧
        next = campaign.enterTrimming settings fuzz := by
  unfold Campaign.enter at entered
  split at entered
  · next refused =>
    exact .inl ⟨(Option.some.inj entered).symm, .inl (by simpa using refused.2)⟩
  · split at entered
    · split at entered
      · next allowed => exact .inl ⟨(Option.some.inj entered).symm, .inr allowed⟩
      · cases entered
    · split at entered
      · next failed => exact .inr (.inl ⟨failed, (Option.some.inj entered).symm⟩)
      · next fine =>
        exact .inr (.inr ⟨not_not.mp fine, (Option.some.inj entered).symm⟩)

/-! ## The steps without an execution -/

/-- What `advance` can do. -/
inductive Campaign.Advances (settings : Settings) (campaign : Campaign) : Campaign → Prop
  | seeded (phase : Phase) (here : campaign.phase = .seeding)
      (nonempty : campaign.afl.queuedItems ≠ 0) (there : phase = .starting ∨ phase = .dryRun 0) :
      Advances settings campaign { campaign with phase }
  | seedSkipped (idx : Nat) (here : campaign.phase = .dryRun idx)
      (inQueue : idx < campaign.afl.queuedItems) :
      Advances settings campaign { campaign with phase := .dryRun (idx + 1) }
  | seedsDone (idx : Nat) (here : campaign.phase = .dryRun idx)
      (done : campaign.afl.queuedItems ≤ idx) :
      Advances settings campaign
        { campaign with afl := removeDuplicates campaign.afl, phase := .starting }
  | stopped (here : campaign.phase = .loopHead) (stop : campaign.stopSoon = true) :
      Advances settings campaign { campaign with phase := .stopped }
  | culled (next : Campaign) (here : campaign.phase = .loopHead)
      (going : campaign.stopSoon = false)
      (afl : next.afl = cullQueue settings.toConfig campaign.afl)
      (scored : next.scored = campaign.scored) (stop : next.stopSoon = campaign.stopSoon)
      (current : next.queueCur = campaign.queueCur)
      (there : next.phase = .importing true ∨ next.phase = .selecting) :
      Advances settings campaign next
  | imported (here : campaign.phase = .importing false) :
      Advances settings campaign { campaign with phase := .loopHead }
  | cycled (next : Campaign) (here : campaign.phase = .importing true)
      (afl : next.afl = campaign.afl ∨
        next.afl = { campaign.afl with schedule := rotateSchedule campaign.afl.schedule })
      (scored : next.scored = campaign.scored) (stop : next.stopSoon = campaign.stopSoon)
      (current : ∀ q, next.queueCur = some q →
        campaign.queueCur = some q ∨ q < campaign.afl.queuedItems ∨ q = 0)
      (there : next.phase = .rescoring 0 ∨ next.phase = .selecting) :
      Advances settings campaign next
  | passedOver (idx : Nat) (here : campaign.phase = .rescoring idx)
      (disabled : (campaign.afl.queueBuf idx).disabled = true) :
      Advances settings campaign { campaign with phase := .rescoring (idx + 1) }
  | rescored (idx : Nat) (here : campaign.phase = .rescoring idx)
      (inQueue : idx < campaign.afl.queuedItems)
      (enabled : (campaign.afl.queueBuf idx).disabled = false) :
      Advances settings campaign
        { campaign with
          afl := updateBitmapScore settings.toConfig campaign.afl idx
          phase := .rescoring (idx + 1) }
  | allRescored (idx : Nat) (here : campaign.phase = .rescoring idx)
      (done : campaign.afl.queuedItems ≤ idx) : Advances settings campaign campaign.toSelection
  | gaveUp (fuzz : FuzzOne) (here : campaign.phase = .calibrating fuzz)
      (failed : calChances ≤ (campaign.afl.queueBuf fuzz.entry).calFailed) :
      Advances settings campaign (campaign.abandon settings fuzz true)

/-- The first entry of a cycle is in the queue unless the queue is empty. -/
theorem Campaign.firstEntry_queueCur (settings : Settings) (campaign : Campaign)
    (seekable : settings.oldSeedSelection = true → campaign.seekTo < campaign.afl.queuedItems)
    (q : Nat)
    (first : ({ campaign with runsInCurrentCycle := (0 : UInt32) - 1 }.firstEntry
      settings).queueCur = some q) :
    campaign.queueCur = some q ∨ q < campaign.afl.queuedItems ∨ q = 0 := by
  unfold Campaign.firstEntry at first
  split at first
  · next old =>
    obtain rfl := Option.some.inj first
    simp only
    split
    · exact .inr (.inl (seekable old))
    · split
      · exact .inr (.inr rfl)
      · next inside => exact .inr (.inl (Nat.lt_of_not_le inside))
  · exact .inl first

theorem Campaign.newCycle_cases (here : campaign.phase = .importing true)
    (cycled : campaign.newCycle settings = some next) : campaign.Advances settings next := by
  unfold Campaign.newCycle at cycled
  split at cycled
  · cases cycled
  · next seekable =>
    have current := Campaign.firstEntry_queueCur settings campaign (by simpa using seekable)
    simp only at cycled
    split at cycled
    · obtain rfl := Option.some.inj cycled
      apply Advances.cycled _ here
      · exact .inr (by simp)
      · simp
      · simp
      · exact current
      · exact .inl rfl
    · obtain rfl := Option.some.inj cycled
      apply Advances.cycled _ here
      · exact .inl (by simp [Campaign.toSelection])
      · simp [Campaign.toSelection]
      · simp [Campaign.toSelection]
      · exact current
      · exact .inr rfl

theorem Campaign.step_advance (stepped : campaign.step settings .advance = some next) :
    campaign.Advances settings next := by
  simp only [Campaign.step, Campaign.advance] at stepped
  split at stepped
  · next here =>
    split at stepped
    · cases stepped
    · next nonempty =>
      split at stepped
      · exact Option.some.inj stepped ▸ .seeded _ here nonempty (.inl rfl)
      · exact Option.some.inj stepped ▸ .seeded _ here nonempty (.inr rfl)
  · next idx here =>
    split at stepped
    · next inQueue =>
      split at stepped
      · exact Option.some.inj stepped ▸ .seedSkipped idx here inQueue
      · cases stepped
    · next done => exact Option.some.inj stepped ▸ .seedsDone idx here (by simpa using done)
  · next here =>
    split at stepped
    · next stop => exact Option.some.inj stepped ▸ .stopped here stop
    · next going =>
      have going : campaign.stopSoon = false := by simpa using going
      split at stepped
      · obtain rfl := Option.some.inj stepped
        exact .culled _ here going rfl rfl rfl rfl (.inl rfl)
      · obtain rfl := Option.some.inj stepped
        exact .culled _ here going rfl rfl rfl rfl (.inr rfl)
  · next newCycle here =>
    split at stepped
    · next cycle => exact Campaign.newCycle_cases (cycle ▸ here) stepped
    · next same =>
      obtain rfl : newCycle = false := by simpa using same
      exact Option.some.inj stepped ▸ .imported here
  · next idx here =>
    split at stepped
    · next inQueue =>
      obtain rfl := Option.some.inj stepped
      cases disabled : (campaign.afl.queueBuf idx).disabled with
      | true => simpa using Advances.passedOver idx here disabled
      | false => simpa using Advances.rescored idx here inQueue disabled
    · next done => exact Option.some.inj stepped ▸ .allRescored idx here (by simpa using done)
  · next fuzz here =>
    split at stepped
    · cases stepped
    · next failed =>
      exact Option.some.inj stepped ▸ .gaveUp fuzz here (by simpa using failed)
  · cases stepped

theorem Campaign.launch_cases {seekTo : Nat} (launched : campaign.launch settings seekTo = some next) :
    next.afl = cullQueue settings.toConfig campaign.afl ∧ next.scored = campaign.scored ∧
      next.stopSoon = campaign.stopSoon ∧ next.queueCur = campaign.queueCur ∧
      next.phase = (if campaign.stopSoon then .stopped else .loopHead) := by
  unfold Campaign.launch at launched
  simp only at launched
  split at launched
  · cases launched
  · obtain rfl := Option.some.inj launched
    exact ⟨rfl, rfl, rfl, rfl, rfl⟩

end

/-! ## Entries that are taken out -/

section

variable (afl : Afl) (q r : Nat)

theorem Afl.retire_queueBuf : (afl.retire q).queueBuf r =
    if r = q then { afl.queueBuf q with wasFuzzed := true } else afl.queueBuf r := by
  unfold Afl.retire
  split
  · next fuzzed =>
    split
    · next here =>
      subst here
      cases entry : afl.queueBuf r
      simp_all
    · rfl
  · simp only [Afl.modify_queueBuf]

theorem Afl.disable_queueBuf : (afl.disable q).queueBuf r =
    if r = q then { afl.queueBuf q with disabled := true } else afl.queueBuf r :=
  afl.modify_queueBuf q _ r

theorem Afl.retire_disable_queueBuf : ((afl.retire q).disable q).queueBuf r =
    if r = q then { afl.queueBuf q with wasFuzzed := true, disabled := true }
    else afl.queueBuf r := by
  rw [Afl.disable_queueBuf, Afl.retire_queueBuf, Afl.retire_queueBuf]
  by_cases here : r = q
  · simp [here]
  · simp [here]

@[simp] theorem Afl.retire_queuedItems : (afl.retire q).queuedItems = afl.queuedItems := by
  unfold Afl.retire
  split <;> rfl

@[simp] theorem Afl.retire_topRated : (afl.retire q).topRated = afl.topRated := by
  unfold Afl.retire
  split <;> rfl

@[simp] theorem Afl.retire_smallestFavored :
    (afl.retire q).smallestFavored = afl.smallestFavored := by
  unfold Afl.retire
  split <;> rfl

@[simp] theorem Afl.disable_smallestFavored :
    (afl.disable q).smallestFavored = afl.smallestFavored := rfl

@[simp] theorem Afl.retire_scoreChanged : (afl.retire q).scoreChanged = afl.scoreChanged := by
  unfold Afl.retire
  split <;> rfl

@[simp] theorem Afl.disable_queuedItems : (afl.disable q).queuedItems = afl.queuedItems := rfl
@[simp] theorem Afl.disable_topRated : (afl.disable q).topRated = afl.topRated := rfl
@[simp] theorem Afl.disable_scoreChanged : (afl.disable q).scoreChanged = afl.scoreChanged := rfl

end

/-- What survives the three things that the dry run does to a seed survives
its verdict. -/
theorem judgeSeed_induction {P : Afl → Prop} {settings : Settings} {afl judged : Afl} {q : Nat}
    {newCrashBits : Bool} {fault : Fault}
    (judge : judgeSeed settings afl q newCrashBits fault = some judged) (start : P afl)
    (limit : ∀ state, P state →
      P (state.modify q fun entry => { entry with calFailed := calChances }))
    (retire : ∀ state, P state → P (state.retire q))
    (disable : ∀ state, P state → P (state.disable q)) : P judged := by
  have out : P ((afl.retire q).disable q) := disable _ (retire _ start)
  cases fault <;> simp only [judgeSeed] at judge
  case ok =>
    split at judge
    · cases judge
    · exact Option.some.inj judge ▸ start
  case tmout =>
    split at judge
    · exact Option.some.inj judge ▸ retire _ (disable _ (limit _ start))
    · split at judge
      · exact Option.some.inj judge ▸ out
      · cases judge
  case crash =>
    split at judge
    · exact Option.some.inj judge ▸ start
    · split at judge
      · cases judge
      · split at judge
        · exact Option.some.inj judge ▸ retire _ start
        · exact Option.some.inj judge ▸ out
  case error => cases judge
  case noinst => cases judge
  case nobits => exact Option.some.inj judge ▸ start

theorem judgeSeed_queueBuf_of_ne {settings : Settings} {afl judged : Afl} {q r : Nat}
    {newCrashBits : Bool} {fault : Fault}
    (judge : judgeSeed settings afl q newCrashBits fault = some judged) (other : r ≠ q) :
    judged.queueBuf r = afl.queueBuf r := by
  apply judgeSeed_induction (P := fun state => state.queueBuf r = afl.queueBuf r) judge rfl
  · exact fun state same => (state.modify_queueBuf_of_ne q _ other).trans same
  · intro state same
    rw [Afl.retire_queueBuf, if_neg other, same]
  · intro state same
    rw [Afl.disable_queueBuf, if_neg other, same]

/-- A seed that was calibrated stays as it is. -/
theorem judgeSeed_of_calibrated {settings : Settings} {afl judged : Afl} {q : Nat}
    {newCrashBits : Bool} {fault : Fault}
    (judge : judgeSeed settings afl q newCrashBits fault = some judged)
    (calibrated : fault = .nobits ∧ settings.expected = .ok ∨ fault = settings.expected) :
    judged = afl := by
  rcases calibrated with ⟨rfl, _⟩ | rfl
  · exact (Option.some.inj judge).symm
  · unfold Settings.expected at judge
    cases crashes : settings.crashMode with
    | false => simpa [judgeSeed, crashes] using judge.symm
    | true => simpa [judgeSeed, crashes] using judge.symm

/-- There is another comparable entry with the same checksum, which is shorter,
or as long and earlier in the queue. -/
def Afl.Duplicate (afl : Afl) (q : Nat) : Prop :=
  (afl.queueBuf q).comparable = true ∧ ∃ p < afl.queuedItems,
    (afl.queueBuf p).comparable = true ∧
    (afl.queueBuf p).execCksum = (afl.queueBuf q).execCksum ∧
    ((afl.queueBuf p).len < (afl.queueBuf q).len ∨
      (afl.queueBuf p).len = (afl.queueBuf q).len ∧ p < q)

/-- What holds between the rounds of the inner loop over duplicates. -/
def Deduplicating (P : Afl → Prop) (n q : Nat) (state : Afl × Bool) : Prop :=
  state.1.queuedItems = n ∧ P state.1 ∧
    (state.2 = false → (state.1.queueBuf q).comparable = true)

section

variable {P : Afl → Prop}
  (discard : ∀ afl q, q < afl.queuedItems → afl.Duplicate q → P afl →
    P ((afl.retire q).disable q))

include discard

theorem Deduplicating.round {n q p : Nat} {state : Afl × Bool} (qInQueue : q < n)
    (pInQueue : p < n) (earlier : q < p) (inv : Deduplicating P n q state) :
    Deduplicating P n q (disableDuplicate q state p) := by
  obtain ⟨afl, done⟩ := state
  obtain ⟨items, holds, active⟩ := inv
  simp only at items holds active
  unfold disableDuplicate
  simp only
  split
  · exact ⟨items, holds, active⟩
  · next going =>
    have qComparable : (afl.queueBuf q).comparable = true := active (by simpa using going)
    split
    · exact ⟨items, holds, active⟩
    · next pComparable =>
      have pComparable : (afl.queueBuf p).comparable = true := by simpa using pComparable
      split
      · next sameCksum =>
        split
        · next shorter =>
          have duplicate : afl.Duplicate p := by
            refine ⟨pComparable, q, items ▸ qInQueue, qComparable, sameCksum.symm, ?_⟩
            exact (UInt32.lt_or_eq_of_le shorter).imp_right fun same => ⟨same, earlier⟩
          refine ⟨by simpa using items, discard afl p (items ▸ pInQueue) duplicate holds,
            fun _ => ?_⟩
          rw [Afl.retire_disable_queueBuf, if_neg (Nat.ne_of_lt earlier)]
          exact qComparable
        · next longer =>
          have duplicate : afl.Duplicate q :=
            ⟨qComparable, p, items ▸ pInQueue, pComparable, sameCksum, .inl (UInt32.not_le.mp longer)⟩
          exact ⟨by simpa using items, discard afl q (items ▸ qInQueue) duplicate holds,
            fun finished => Bool.noConfusion finished⟩
      · exact ⟨items, holds, active⟩

theorem disableDuplicatesOf_induction {n q : Nat} {afl : Afl} (below : q < n)
    (items : afl.queuedItems = n) (holds : P afl) :
    (disableDuplicatesOf afl q).queuedItems = n ∧ P (disableDuplicatesOf afl q) := by
  unfold disableDuplicatesOf
  split
  · exact ⟨items, holds⟩
  · next comparable =>
    have start : Deduplicating P n q (afl, false) :=
      ⟨items, holds, fun _ => by simpa using comparable⟩
    have loop : Deduplicating P n q ((List.range (afl.queuedItems - (q + 1))).foldl
        (fun state k => disableDuplicate q state (q + 1 + k)) (afl, false)) := by
      apply Systems.foldl_range_invariant (Deduplicating P n q) start
      intro k inRange state inv
      exact inv.round discard below (by omega) (by omega)
    exact ⟨loop.1, loop.2.1⟩

/-- What the loops over duplicates keep if it survives the loss of one
duplicate. -/
theorem removeDuplicates_induction {afl : Afl} (start : P afl) : P (removeDuplicates afl) := by
  have loop : (removeDuplicates afl).queuedItems = afl.queuedItems ∧ P (removeDuplicates afl) := by
    unfold removeDuplicates
    apply Systems.foldl_range_invariant (fun state : Afl =>
      state.queuedItems = afl.queuedItems ∧ P state) ⟨rfl, start⟩
    intro q inRange state inv
    exact disableDuplicatesOf_induction discard (by omega) inv.1 inv.2
  exact loop.2

end

/-- The loops over duplicates only take out what was a duplicate at first. -/
structure Deduplicated (before after : Afl) (r : Nat) : Prop where
  len : (after.queueBuf r).len = (before.queueBuf r).len
  cksum : (after.queueBuf r).execCksum = (before.queueBuf r).execCksum
  failed : (after.queueBuf r).calFailed = (before.queueBuf r).calFailed
  kept : (before.queueBuf r).disabled = true → (after.queueBuf r).disabled = true
  duplicate : (after.queueBuf r).disabled = true →
    (before.queueBuf r).disabled = true ∨ before.Duplicate r

theorem Deduplicated.comparable {before after : Afl} {r : Nat} (step : Deduplicated before after r)
    (comparable : (after.queueBuf r).comparable = true) :
    (before.queueBuf r).comparable = true := by
  have kept := step.kept
  simp only [QueueEntry.comparable, step.cksum, step.failed, Bool.and_eq_true,
    Bool.not_eq_true'] at comparable ⊢
  refine ⟨⟨?_, comparable.1.2⟩, comparable.2⟩
  by_contra disabled
  rw [kept (by simpa using disabled)] at comparable
  exact Bool.noConfusion comparable.1.1

theorem removeDuplicates_deduplicated (afl : Afl) (r : Nat) :
    Deduplicated afl (removeDuplicates afl) r := by
  have loop : (removeDuplicates afl).queuedItems = afl.queuedItems ∧
      ∀ r, Deduplicated afl (removeDuplicates afl) r := by
    apply removeDuplicates_induction (P := fun state =>
      state.queuedItems = afl.queuedItems ∧ ∀ r, Deduplicated afl state r)
    · intro state q inQueue duplicate ⟨items, inv⟩
      have original : afl.Duplicate q := by
        obtain ⟨comparable, p, inRange, other, sameCksum, smaller⟩ := duplicate
        refine ⟨(inv q).comparable comparable, p, items ▸ inRange, (inv p).comparable other, ?_, ?_⟩
        · rw [← (inv p).cksum, ← (inv q).cksum, sameCksum]
        · rwa [← (inv p).len, ← (inv q).len]
      refine ⟨by simpa using items, fun r => ?_⟩
      have entry := state.retire_disable_queueBuf q r
      by_cases here : r = q
      · subst here
        rw [if_pos rfl] at entry
        refine ⟨?_, ?_, ?_, fun _ => ?_, fun _ => .inr original⟩
        · rw [entry, ← (inv r).len]
        · rw [entry, ← (inv r).cksum]
        · rw [entry, ← (inv r).failed]
        · rw [entry]
      · rw [if_neg here] at entry
        obtain ⟨len, cksum, failed, kept, duplicate⟩ := inv r
        exact ⟨entry ▸ len, entry ▸ cksum, entry ▸ failed, entry ▸ kept, entry ▸ duplicate⟩
    · exact ⟨rfl, fun r => ⟨rfl, rfl, rfl, id, .inl⟩⟩
  exact loop.2 r

theorem removeDuplicates_disabled {afl : Afl} {q : Nat}
    (disabled : ((removeDuplicates afl).queueBuf q).disabled = true) :
    (afl.queueBuf q).disabled = true ∨ afl.Duplicate q :=
  (removeDuplicates_deduplicated afl q).duplicate disabled

end SbFuzz.Fuzzer
