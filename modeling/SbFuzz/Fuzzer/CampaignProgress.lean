import SbFuzz.Fuzzer.CampaignSchedulable

/-! The choice through `smallest_favored`: when it picks an entry that
`fuzz_one` takes, so that no entry is picked this way twice. -/

set_option autoImplicit false

namespace SbFuzz.Fuzzer

open SbFuzz.Systems

/-! ## What `fuzz_one` asks of an entry -/

structure Status where
  marks : Marks
  calFailed : UInt8
  fuzzLevel : UInt32

def QueueEntry.status (entry : QueueEntry) : Status where
  marks := entry.marks
  calFailed := entry.calFailed
  fuzzLevel := entry.fuzzLevel

/-- `fuzz_one` neither skips the entry if it is favored nor calibrates it. -/
def QueueEntry.Ready (entry : QueueEntry) : Prop :=
  entry.disabled = false ∧ entry.calFailed = 0 ∧ entry.fuzzLevel = 0

/-- The entry is fuzzed already or can be. -/
def QueueEntry.Good (entry : QueueEntry) : Prop := entry.wasFuzzed = true ∨ entry.Ready

/-- What an entry must be that is picked because it is favored. -/
def QueueEntry.Fit (entry : QueueEntry) : Prop :=
  entry.favored = true ∧ entry.wasFuzzed = false ∧ entry.Ready

/-- `smallest_favored` is the number of such an entry, if it is used. -/
def Afl.PicksFit (afl : Afl) : Prop :=
  afl.pendingFavored ≠ 0 → 0 ≤ afl.smallestFavored →
    ∃ q < afl.queuedItems, afl.smallestFavored = q ∧ (afl.queueBuf q).Fit

/-- Entries and the counters that choose among them are the same. -/
structure Afl.SameStatus (before after : Afl) : Prop where
  items : before.queuedItems ≤ after.queuedItems
  pending : after.pendingFavored = before.pendingFavored
  smallest : after.smallestFavored = before.smallestFavored
  status : ∀ q < before.queuedItems, (after.queueBuf q).status = (before.queueBuf q).status

section

variable {entry other : QueueEntry} (same : other.status = entry.status)

include same

theorem QueueEntry.Ready.of_same (ready : entry.Ready) : other.Ready := by
  have disabled : other.disabled = entry.disabled :=
    congrArg (fun status : Status => status.marks.disabled) same
  have failed : other.calFailed = entry.calFailed := congrArg Status.calFailed same
  have level : other.fuzzLevel = entry.fuzzLevel := congrArg Status.fuzzLevel same
  exact ⟨disabled.trans ready.1, failed.trans ready.2.1, level.trans ready.2.2⟩

theorem QueueEntry.Good.of_same (good : entry.Good) : other.Good := by
  have fuzzed : other.wasFuzzed = entry.wasFuzzed :=
    congrArg (fun status : Status => status.marks.wasFuzzed) same
  exact good.imp (fun seen => fuzzed.trans seen) fun ready => ready.of_same same

theorem QueueEntry.Fit.of_same (fit : entry.Fit) : other.Fit := by
  have favored : other.favored = entry.favored :=
    congrArg (fun status : Status => status.marks.favored) same
  have fuzzed : other.wasFuzzed = entry.wasFuzzed :=
    congrArg (fun status : Status => status.marks.wasFuzzed) same
  exact ⟨favored.trans fit.1, fuzzed.trans fit.2.1, fit.2.2.of_same same⟩

end

section

variable {before middle after afl : Afl} {config : Config} {q : Nat}

theorem Afl.SameStatus.refl : afl.SameStatus afl := ⟨le_rfl, rfl, rfl, fun _ _ => rfl⟩

theorem Afl.SameStatus.trans (first : before.SameStatus middle)
    (second : middle.SameStatus after) : before.SameStatus after :=
  ⟨first.items.trans second.items, second.pending.trans first.pending,
    second.smallest.trans first.smallest, fun q inQueue =>
      (second.status q (inQueue.trans_le first.items)).trans (first.status q inQueue)⟩

theorem Afl.SameStatus.modify (q : Nat) {change : QueueEntry → QueueEntry}
    (status : (change (afl.queueBuf q)).status = (afl.queueBuf q).status) :
    afl.SameStatus (afl.modify q change) := by
  refine ⟨le_rfl, rfl, rfl, fun r _ => ?_⟩
  rw [Afl.modify_queueBuf]
  split
  · next here => rw [here, status]
  · rfl

theorem Afl.SameStatus.withTrace (afl : Afl) (trace : Nat → UInt8) :
    afl.SameStatus { afl with traceBits := trace } := ⟨le_rfl, rfl, rfl, fun _ _ => rfl⟩

theorem Afl.SameStatus.updateBitmapScore (afl : Afl) (q : Nat) :
    afl.SameStatus (updateBitmapScore config afl q) := by
  have same := updateBitmapScore_unscored config afl q
  obtain ⟨_, _, _, pending, smallest⟩ := Afl.counters_of_unscored same
  refine ⟨(Afl.queuedItems_of_unscored same).ge, pending, smallest, fun r _ => ?_⟩
  have kept : ∀ entry : QueueEntry, entry.unscored.status = entry.status := fun _ => rfl
  rw [← kept, Afl.entry_of_unscored same r, kept]

theorem Afl.SameStatus.addToQueue (afl : Afl) (len : UInt32) :
    afl.SameStatus (addToQueue afl len) :=
  ⟨Nat.le_succ _, rfl, rfl, fun q inQueue => by rw [addToQueue_queueBuf_old len inQueue]⟩

theorem Afl.SameStatus.labelSeed : afl.SameStatus (afl.labelSeed q) := by
  unfold Afl.labelSeed
  split
  · exact .modify q rfl
  · exact .refl

theorem Afl.PicksFit.of_same (same : before.SameStatus after) (picks : before.PicksFit) :
    after.PicksFit := by
  intro pending chosen
  rw [same.pending] at pending
  rw [same.smallest] at chosen ⊢
  obtain ⟨q, inQueue, number, fit⟩ := picks pending chosen
  exact ⟨q, inQueue.trans_le same.items, number, fit.of_same (same.status q inQueue)⟩

end

section

variable {settings : Settings} {campaign : Campaign} {q : Nat}

theorem Campaign.score_sameStatus (trace : Nat → UInt8) :
    campaign.afl.SameStatus (campaign.score settings q trace).afl :=
  (Afl.SameStatus.withTrace _ trace).trans (.updateBitmapScore _ q)

theorem Campaign.clearCksum_sameStatus :
    campaign.afl.SameStatus (campaign.clearCksum q).afl := by
  rw [Campaign.clearCksum_afl]
  exact .modify q rfl

theorem Campaign.resize_sameStatus (len : UInt32) :
    campaign.afl.SameStatus (campaign.resize q len).afl := by
  rw [Campaign.resize_afl]
  exact .modify q rfl

theorem Campaign.trimTo_sameStatus (len : UInt32) (trace : Nat → UInt8) :
    campaign.afl.SameStatus (campaign.trimTo q len trace).afl :=
  (Campaign.resize_sameStatus len).trans (.withTrace _ trace)

theorem Campaign.addFinding_sameStatus (finding : Finding) :
    campaign.afl.SameStatus (campaign.addFinding finding).afl := by
  have added := Afl.SameStatus.addToQueue campaign.afl finding.len
  have filled : (addToQueue campaign.afl finding.len).SameStatus
      ((addToQueue campaign.afl finding.len).modify campaign.afl.queuedItems fun entry =>
        { entry with execCksum := finding.execCksum, nFuzzEntry := finding.nFuzzEntry }) :=
    .modify campaign.afl.queuedItems rfl
  have slot := added.trans filled
  exact ⟨slot.items, slot.pending, slot.smallest, slot.status⟩

end

/-! ## Calibration -/

/-- All entries but `q` have the same status. -/
structure Afl.SameOthers (before : Afl) (q : Nat) (after : Afl) : Prop where
  items : before.queuedItems ≤ after.queuedItems
  pending : after.pendingFavored = before.pendingFavored
  smallest : after.smallestFavored = before.smallestFavored
  status : ∀ r < before.queuedItems, r ≠ q →
    (after.queueBuf r).status = (before.queueBuf r).status

theorem Afl.SameStatus.others {before after : Afl} (same : before.SameStatus after) (q : Nat) :
    before.SameOthers q after :=
  ⟨same.items, same.pending, same.smallest, fun r inQueue _ => same.status r inQueue⟩

theorem Afl.SameOthers.trans {before middle after : Afl} {q : Nat}
    (first : before.SameOthers q middle) (second : middle.SameOthers q after) :
    before.SameOthers q after :=
  ⟨first.items.trans second.items, second.pending.trans first.pending,
    second.smallest.trans first.smallest, fun r inQueue other =>
      (second.status r (inQueue.trans_le first.items) other).trans (first.status r inQueue other)⟩

theorem Afl.SameOthers.modify (afl : Afl) (q : Nat) (change : QueueEntry → QueueEntry) :
    afl.SameOthers q (afl.modify q change) :=
  ⟨le_rfl, rfl, rfl, fun r _ other => by rw [Afl.modify_queueBuf_of_ne _ _ _ other]⟩

/-- A calibration counts as failed or clears the count. -/
theorem calibrateCase_status {settings : Settings} {campaign after : Campaign} {q : Nat}
    {calibration : Calibration} {fault : Fault}
    (called : calibrateCase settings campaign q calibration = some (after, fault))
    (inQueue : q < campaign.afl.queuedItems) :
    campaign.afl.SameOthers q after.afl ∧
    (after.afl.queueBuf q).fuzzLevel = (campaign.afl.queueBuf q).fuzzLevel ∧
    (after.afl.queueBuf q).marks = (campaign.afl.queueBuf q).marks ∧
    ((∃ execCksum trace, calibration = .aborted fault execCksum trace ∧
        (after.afl.queueBuf q).calFailed = (campaign.afl.queueBuf q).calFailed + 1) ∨
      ∃ newBits execUs execCksum trace, calibration = .completed newBits execUs execCksum trace ∧
        (after.afl.queueBuf q).calFailed = 0) := by
  have recorded := Afl.SameOthers.modify campaign.afl q fun entry => entry.calibrated calibration
  rcases calibrateCase_cases called with
    ⟨execCksum, trace, rfl, _, _, rfl⟩ | ⟨newBits, execUs, execCksum, trace, rfl, _, rfl⟩
  · refine ⟨recorded.trans ((Afl.SameStatus.withTrace _ trace).others q), ?_, ?_, .inl
      ⟨execCksum, trace, rfl, ?_⟩⟩
    all_goals simp [Campaign.recordCalibration_afl, QueueEntry.calibrated, QueueEntry.marks]
  · have scored := fun start : Campaign =>
      (Campaign.score_sameStatus trace :
        start.afl.SameStatus (start.score settings q trace).afl)
    have scored := scored
      (campaign.recordCalibration q (.completed newBits execUs execCksum trace))
    have entry := scored.status q inQueue
    have level := congrArg Status.fuzzLevel entry
    have marks := congrArg Status.marks entry
    have failed := congrArg Status.calFailed entry
    refine ⟨recorded.trans (scored.others q), level.trans ?_, marks.trans ?_, .inr
      ⟨newBits, execUs, execCksum, trace, rfl, failed.trans ?_⟩⟩
    all_goals simp [Campaign.recordCalibration_afl, QueueEntry.calibrated, QueueEntry.marks,
      QueueEntry.status]

/-! ## The invariant -/

/-- The call of `fuzz_one` that works on its entry. -/
def Phase.inside : Phase → Option FuzzOne
  | .trimming fuzz | .executing fuzz => some fuzz
  | _ => none

/-- Where a process may be after it left an entry with `stop_soon` set. -/
def Phase.late : Phase → Bool
  | .importing newCycle => !newCycle
  | .loopHead | .stopped => true
  | .picked fuzz | .calibrating fuzz | .trimming fuzz | .executing fuzz => fuzz.engine = .mopt
  | _ => false

/-- The process will not pick an entry again. -/
def Campaign.Late (campaign : Campaign) : Prop :=
  campaign.stopSoon = true ∧ campaign.phase.late = true

/-- The entry is being worked on and will have been fuzzed afterwards. -/
def Campaign.Exempt (campaign : Campaign) (q : Nat) : Prop :=
  ∃ fuzz, campaign.phase.inside = some fuzz ∧ fuzz.entry = q ∧
    (fuzz.engine = .original → (campaign.afl.queueBuf q).disabled = false)

structure Campaign.Progress (settings : Settings) (campaign : Campaign) : Prop where
  inside : ∀ fuzz, campaign.phase.inside = some fuzz →
    (campaign.afl.queueBuf fuzz.entry).calFailed = 0
  calibrating : ∀ fuzz, campaign.phase = .calibrating fuzz →
    (campaign.afl.queueBuf fuzz.entry).calFailed ≠ 0
  fresh : campaign.phase.ofSeeds = true →
    ∀ q < campaign.afl.queuedItems, (campaign.afl.queueBuf q).fuzzLevel = 0
  owners : ¬ campaign.Late → ∀ i q, campaign.afl.topRated i = some q →
    (campaign.afl.queueBuf q).Good ∨ campaign.Exempt q
  picks : ¬ campaign.Late → (campaign.phase = .starting → campaign.afl.scoreChanged = true →
    settings.nonInstrumentedMode = true) → campaign.afl.PicksFit

section

variable {settings : Settings} {campaign next middle : Campaign} {event : Event} {fuzz : FuzzOne}

theorem Campaign.endEngine_late (stop : campaign.stopSoon = true) (skipped : Bool) :
    (campaign.endEngine settings fuzz skipped).Late := by
  refine ⟨by simpa using stop, ?_⟩
  rcases campaign.endEngine_phase settings fuzz skipped with ⟨either, there, _⟩ | there | there
  · rw [there]
    rfl
  · rw [there]
    rfl
  · rw [stop] at there
    cases there.2

theorem Campaign.enterTrimming_late (late : campaign.stopSoon = true)
    (mopt : fuzz.engine = .mopt) : (campaign.enterTrimming settings fuzz).Late := by
  refine ⟨by simpa using late, ?_⟩
  rcases campaign.enterTrimming_phase settings fuzz with there | there
  · rw [there]
    simp [Phase.late, mopt]
  · rw [there]
    simp [Phase.late, mopt]

theorem Campaign.abandon_late (stop : campaign.stopSoon = true) (skipped : Bool) :
    (campaign.abandon settings fuzz skipped).Late := by
  have left : (campaign.leave fuzz).stopSoon = true := stop
  exact Campaign.endEngine_late left skipped

theorem Campaign.mopt_of_late (late : campaign.Late) (here : campaign.phase.fuzzOne = some fuzz) :
    fuzz.engine = .mopt := by
  have isLate := late.2
  cases phase : campaign.phase with
  | picked _ | calibrating _ | trimming _ | executing _ =>
      rw [phase] at here isLate
      obtain rfl := Option.some.inj here
      simpa [Phase.late] using isLate
  | _ =>
      rw [phase] at here
      cases here

theorem Campaign.advance_late (late : campaign.Late) (advanced : campaign.Advances settings next) :
    next.Late := by
  obtain ⟨stop, isLate⟩ := late
  cases advanced with
  | seeded phase here nonempty there => rw [here] at isLate; cases isLate
  | seedSkipped idx here inQueue => rw [here] at isLate; cases isLate
  | seedsDone idx here done => rw [here] at isLate; cases isLate
  | stopped here _ => exact ⟨stop, rfl⟩
  | culled _ here going afl scored _ current there => cases stop.symm.trans going
  | imported here => exact ⟨stop, rfl⟩
  | cycled _ here afl scored _ current there => rw [here] at isLate; cases isLate
  | passedOver idx here disabled => rw [here] at isLate; cases isLate
  | rescored idx here inQueue enabled => rw [here] at isLate; cases isLate
  | allRescored idx here done => rw [here] at isLate; cases isLate
  | gaveUp fuzz here failed => exact Campaign.abandon_late stop true

theorem Campaign.step_late (late : campaign.Late)
    (stepped : campaign.step settings event = some next) (goesOn : event.restarts = false) :
    next.Late := by
  have ⟨stop, isLate⟩ := late
  cases event with
  | interrupt =>
      obtain rfl := Option.some.inj stepped
      exact ⟨rfl, isLate⟩
  | seed len => rw [(Campaign.step_seed stepped).1] at isLate; cases isLate
  | dryRun calibration newCrashBits traceAfter =>
      obtain ⟨idx, here, _⟩ := Campaign.step_dryRun stepped
      rw [here] at isLate
      cases isLate
  | launch seekTo => rw [(Campaign.step_launch stepped).1] at isLate; cases isLate
  | advance => exact Campaign.advance_late late (Campaign.step_advance stepped)
  | find finding =>
      obtain ⟨_, saved⟩ := Campaign.step_find stepped
      obtain ⟨after, fault, called, rfl⟩ := Campaign.saveIfInteresting_cases saved
      have same : after.phase = (campaign.addFinding finding).phase := calibrateCase_phase called
      have kept : after.stopSoon = (campaign.addFinding finding).stopSoon :=
        calibrateCase_stopSoon called
      exact ⟨kept.trans stop, (congrArg Phase.late same).trans isLate⟩
  | run trace nFuzz =>
      obtain rfl := Campaign.step_run stepped
      exact late
  | select entry => rw [(Campaign.step_select stepped).1] at isLate; cases isLate
  | enter queueGet skip =>
      obtain ⟨fuzz, here, entered⟩ := Campaign.step_enter stepped
      have working : campaign.phase.fuzzOne = some fuzz := by rw [here]; rfl
      have mopt := Campaign.mopt_of_late late working
      rcases Campaign.enter_cases entered with ⟨rfl, _⟩ | ⟨_, rfl⟩ | ⟨_, rfl⟩
      · exact Campaign.endEngine_late stop true
      · exact ⟨stop, by simp [Phase.late, mopt]⟩
      · exact Campaign.enterTrimming_late stop mopt
  | pass =>
      obtain ⟨fuzz, _, _, rfl⟩ := Campaign.step_pass stepped
      exact Campaign.endEngine_late stop false
  | calibrate calibration =>
      obtain ⟨fuzz, here, ran⟩ := Campaign.step_calibrate stepped
      obtain ⟨after, fault, called, ending⟩ := Campaign.recalibrate_cases ran
      have kept : after.stopSoon = (campaign.clearCksum fuzz.entry).stopSoon :=
        calibrateCase_stopSoon called
      rcases ending with ⟨_, rfl⟩ | ⟨going, _, rfl⟩
      · exact Campaign.abandon_late (kept.trans stop) true
      · cases (kept.trans stop).symm.trans going
  | trimmed len trace =>
      obtain ⟨fuzz, here, rfl⟩ := Campaign.step_trimmed stepped
      exact late
  | trimEnd len trace =>
      obtain ⟨fuzz, here, rfl⟩ := Campaign.step_trimEnd stepped
      rcases Campaign.endTrimming_cases settings campaign fuzz len trace with
        ⟨_, same⟩ | ⟨going, _⟩
      · have trimmed : (campaign.trimTo fuzz.entry len trace).stopSoon = true := stop
        rw [same]
        exact Campaign.abandon_late trimmed true
      · cases stop.symm.trans going
  | abandon completed =>
      obtain ⟨fuzz, _, rfl⟩ := Campaign.step_abandon stepped
      exact Campaign.abandon_late stop _
  | restart schedule len trace => cases goesOn

/-! ## Steps inside and between calls -/

theorem QueueEntry.disabled_of_status {entry other : QueueEntry}
    (same : other.status = entry.status) : other.disabled = entry.disabled :=
  congrArg (fun status : Status => status.marks.disabled) same

theorem Phase.fuzzOne_of_inside {phase : Phase} (working : phase.inside = some fuzz) :
    phase.fuzzOne = some fuzz := by
  cases phase with
  | trimming _ | executing _ => exact working
  | _ => cases working

/-- A step that leaves the status of all entries alone. -/
theorem Campaign.Progress.carry (progress : campaign.Progress settings)
    (sound : campaign.Sound settings) (same : campaign.afl.SameStatus next.afl)
    (late : campaign.Late → next.Late)
    (phases : next.phase.inside = campaign.phase.inside ∨ campaign.phase.inside = none ∧
      ∀ fuzz, next.phase.inside = some fuzz → fuzz.entry < campaign.afl.queuedItems ∧
        (campaign.afl.queueBuf fuzz.entry).calFailed = 0)
    (calibrating : ∀ fuzz, next.phase = .calibrating fuzz →
      fuzz.entry < campaign.afl.queuedItems ∧ (campaign.afl.queueBuf fuzz.entry).calFailed ≠ 0)
    (fresh : next.phase.ofSeeds = true →
      ∀ q < next.afl.queuedItems, (next.afl.queueBuf q).fuzzLevel = 0)
    (tops : ∀ i q, next.afl.topRated i = some q → campaign.afl.topRated i = some q ∨
      (next.afl.queueBuf q).Good ∨ next.Exempt q)
    (starting : campaign.phase = .starting →
      next.phase = .starting ∧ next.afl.scoreChanged = campaign.afl.scoreChanged) :
    next.Progress settings := by
  obtain ⟨surplus, refs, _⟩ := sound.refs
  have failed : ∀ q < campaign.afl.queuedItems,
      (next.afl.queueBuf q).calFailed = (campaign.afl.queueBuf q).calFailed :=
    fun q inQueue => congrArg Status.calFailed (same.status q inQueue)
  refine ⟨fun fuzz working => ?_, fun fuzz there => ?_, fresh, fun notLate i q holds => ?_,
    fun notLate waits => ?_⟩
  · rcases phases with unchanged | ⟨_, fine⟩
    · rw [unchanged] at working
      rw [failed _ (sound.working fuzz (Phase.fuzzOne_of_inside working))]
      exact progress.inside fuzz working
    · obtain ⟨inQueue, zero⟩ := fine fuzz working
      rw [failed _ inQueue]
      exact zero
  · obtain ⟨inQueue, nonzero⟩ := calibrating fuzz there
    rw [failed _ inQueue]
    exact nonzero
  · rcases tops i q holds with old | new
    · have inQueue := (refs.inRange i q old).2
      rcases progress.owners (fun isLate => notLate (late isLate)) i q old with
        good | ⟨fuzz, working, rfl, enabled⟩
      · exact .inl (good.of_same (same.status q inQueue))
      · rcases phases with unchanged | ⟨idle, _⟩
        · refine .inr ⟨fuzz, unchanged.trans working, rfl, fun original => ?_⟩
          rw [QueueEntry.disabled_of_status (same.status fuzz.entry inQueue)]
          exact enabled original
        · rw [idle] at working
          cases working
    · exact new
  · apply (progress.picks (fun isLate => notLate (late isLate)) ?_).of_same same
    intro here changed
    obtain ⟨there, flag⟩ := starting here
    exact waits there (flag.trans changed)

/-- The entry of a call that ends here. -/
structure Campaign.Leaves (campaign middle : Campaign) (fuzz : FuzzOne) : Prop where
  working : campaign.phase.fuzzOne = some fuzz
  stop : middle.stopSoon = campaign.stopSoon
  others : campaign.afl.SameOthers fuzz.entry middle.afl
  marks : (middle.afl.queueBuf fuzz.entry).marks = (campaign.afl.queueBuf fuzz.entry).marks
  tops : ∀ i q, q ≠ fuzz.entry → middle.afl.topRated i = some q →
    campaign.afl.topRated i = some q
  original : fuzz.engine = .original → campaign.stopSoon = false →
    (∃ i, middle.afl.topRated i = some fuzz.entry) ∨
      (campaign.afl.queueBuf fuzz.entry).Fit →
    (middle.afl.queueBuf fuzz.entry).wasFuzzed = true ∨
      (middle.afl.queueBuf fuzz.entry).calFailed = 0 ∧
      (middle.afl.queueBuf fuzz.entry).disabled = false
  mopt : fuzz.engine = .mopt → campaign.stopSoon = false →
    (campaign.afl.queueBuf fuzz.entry).wasFuzzed = true ∨
      (∀ i, middle.afl.topRated i ≠ some fuzz.entry) ∧
      ¬ (campaign.afl.pendingFavored ≠ 0 ∧ campaign.afl.smallestFavored = fuzz.entry)

section

variable (leaves : campaign.Leaves middle fuzz)

include leaves

theorem Campaign.Leaves.leave_others {q : Nat} (inQueue : q < campaign.afl.queuedItems)
    (other : q ≠ fuzz.entry) : ((middle.leave fuzz).afl.queueBuf q).status =
      (campaign.afl.queueBuf q).status := by
  rw [← leaves.others.status q inQueue other]
  unfold Campaign.leave
  simp only
  split
  · unfold abandonEntry
    rw [Afl.modify_queueBuf_of_ne _ _ _ other]
    rcases middle.afl.markFuzzed_cases fuzz.entry middle.stopSoon with ⟨same, _⟩ | ⟨_, marks⟩
    · rw [same]
    · rw [marks.entries, if_neg other]
  · unfold moptAbandonEntry
    rw [Afl.modify_queueBuf_of_ne _ _ _ other]

/-- The entry has been fuzzed, if it had to be. -/
theorem Campaign.Leaves.leave_entry (going : campaign.stopSoon = false)
    (held : ∃ i, middle.afl.topRated i = some fuzz.entry) :
    ((middle.leave fuzz).afl.queueBuf fuzz.entry).wasFuzzed = true := by
  unfold Campaign.leave
  simp only
  split
  · next original =>
    have must := leaves.original original going (.inl held)
    unfold abandonEntry
    rw [Afl.modify_queueBuf_self]
    simp only
    rcases middle.afl.markFuzzed_cases fuzz.entry middle.stopSoon with ⟨same, not⟩ | ⟨_, marks⟩
    · rw [same]
      rcases must with seen | ⟨failed, enabled⟩
      · exact seen
      · by_contra unseen
        exact not ⟨leaves.stop.trans going, failed, by simpa using unseen, enabled⟩
    · rw [marks.entries, if_pos rfl]
  · next mopt =>
    unfold moptAbandonEntry
    rw [Afl.modify_queueBuf_self]
    simp only
    rcases leaves.mopt mopt going with seen | ⟨unheld, _⟩
    · exact (congrArg Marks.wasFuzzed leaves.marks).trans seen
    · obtain ⟨i, holds⟩ := held
      exact absurd holds (unheld i)

theorem Campaign.Leaves.picks (going : campaign.stopSoon = false)
    (picks : campaign.afl.PicksFit) : (middle.leave fuzz).afl.PicksFit := by
  intro pending chosen
  have items : campaign.afl.queuedItems ≤ (middle.leave fuzz).afl.queuedItems := by
    apply leaves.others.items.trans
    unfold Campaign.leave
    simp only
    split
    · simp [abandonEntry]
    · exact le_rfl
  -- the pick is still the one of the state before, and it is not the entry
  have kept : campaign.afl.pendingFavored ≠ 0 ∧
      (middle.leave fuzz).afl.smallestFavored = campaign.afl.smallestFavored ∧
      ¬ (campaign.afl.smallestFavored = fuzz.entry ∧
        (campaign.afl.queueBuf fuzz.entry).Fit) := by
    cases engine : fuzz.engine with
    | original =>
        have left : (middle.leave fuzz).afl =
            abandonEntry middle.afl fuzz.entry middle.stopSoon := by
          simp only [Campaign.leave, engine]
        rw [left] at pending chosen ⊢
        simp only [abandonEntry, Afl.modify_pendingFavored, Afl.modify_smallestFavored]
          at pending chosen ⊢
        rcases middle.afl.markFuzzed_cases fuzz.entry middle.stopSoon with
          ⟨same, not⟩ | ⟨_, marks⟩
        · rw [same] at pending chosen ⊢
          refine ⟨leaves.others.pending ▸ pending, leaves.others.smallest, fun both => not ?_⟩
          have unseen : (middle.afl.queueBuf fuzz.entry).wasFuzzed = false :=
            (congrArg Marks.wasFuzzed leaves.marks).trans both.2.2.1
          rcases leaves.original engine going (.inr both.2) with seen | ⟨failed, enabled⟩
          · cases unseen.symm.trans seen
          · exact ⟨leaves.stop.trans going, failed, unseen, enabled⟩
        · rw [marks.smallest] at chosen ⊢
          rw [marks.pending] at pending
          cases favored : (middle.afl.queueBuf fuzz.entry).favored with
          | true =>
              rw [favored, if_pos rfl] at chosen
              exact absurd chosen (by decide)
          | false =>
              rw [favored, if_neg Bool.false_ne_true, Nat.sub_zero] at pending
              refine ⟨leaves.others.pending ▸ pending, leaves.others.smallest, fun both => ?_⟩
              have marked := (congrArg Marks.favored leaves.marks).trans both.2.1
              cases favored.symm.trans marked
    | mopt =>
        have left : (middle.leave fuzz).afl = moptAbandonEntry middle.afl fuzz.entry := by
          simp only [Campaign.leave, engine]
        rw [left] at pending chosen ⊢
        have still : campaign.afl.pendingFavored ≠ 0 := leaves.others.pending ▸ pending
        refine ⟨still, leaves.others.smallest, fun both => ?_⟩
        rcases leaves.mopt engine going with seen | ⟨_, other⟩
        · cases both.2.2.1.symm.trans seen
        · exact other ⟨still, both.1⟩
  obtain ⟨still, number, other⟩ := kept
  rw [number] at chosen ⊢
  obtain ⟨q, inQueue, is, fit⟩ := picks still chosen
  have elsewhere : q ≠ fuzz.entry := by
    rintro rfl
    exact other ⟨is, fit⟩
  exact ⟨q, inQueue.trans_le items, is, fit.of_same (leaves.leave_others inQueue elsewhere)⟩

/-- A call of `fuzz_one` ends. -/
theorem Campaign.Progress.leave (progress : campaign.Progress settings)
    (sound : campaign.Sound settings) (skipped : Bool) :
    (middle.abandon settings fuzz skipped).Progress settings := by
  obtain ⟨surplus, refs, _⟩ := sound.refs
  have outside : ∀ other, (middle.abandon settings fuzz skipped).phase ≠ .calibrating other ∧
      (middle.abandon settings fuzz skipped).phase.inside ≠ some other := by
    intro other
    rcases (middle.leave fuzz).endEngine_phase settings fuzz skipped with
      ⟨either, there, _⟩ | there | there
    · rw [Campaign.abandon_eq, there]
      exact ⟨nofun, nofun⟩
    · rw [Campaign.abandon_eq, there]
      exact ⟨nofun, nofun⟩
    · rw [Campaign.abandon_eq, there.1]
      exact ⟨nofun, nofun⟩
  have going : ¬ (middle.abandon settings fuzz skipped).Late → campaign.stopSoon = false := by
    intro notLate
    by_contra stopped
    exact notLate (Campaign.abandon_late (leaves.stop.trans (by simpa using stopped)) skipped)
  have afl : (middle.abandon settings fuzz skipped).afl = (middle.leave fuzz).afl := by
    rw [Campaign.abandon_eq, Campaign.endEngine_afl]
  refine ⟨fun other working => absurd working (outside other).2,
    fun other there => absurd there (outside other).1, fun there => ?_, fun notLate i q holds => ?_,
    fun notLate _ => ?_⟩
  · rw [Campaign.abandon_eq, Campaign.endEngine_ofSeeds] at there
    cases there
  · have running := going notLate
    have held : middle.afl.topRated i = some q :=
      (Campaign.abandon_sameScores skipped).tops ▸ holds
    rw [afl]
    by_cases here : q = fuzz.entry
    · subst here
      exact .inl (.inl (leaves.leave_entry running ⟨i, held⟩))
    · have old := leaves.tops i q here held
      have inQueue := (refs.inRange i q old).2
      rcases progress.owners (fun isLate => by cases isLate.1.symm.trans running) i q old with
        good | ⟨other, working, is, _⟩
      · exact .inl (good.of_same (leaves.leave_others inQueue here))
      · obtain rfl := Option.some.inj
          (leaves.working.symm.trans (Phase.fuzzOne_of_inside working))
        exact absurd is.symm here
  · have running := going notLate
    rw [afl]
    apply leaves.picks running
    apply progress.picks (fun isLate => by cases isLate.1.symm.trans running)
    intro waiting
    have working := leaves.working
    rw [waiting] at working
    cases working

end

end

end SbFuzz.Fuzzer
