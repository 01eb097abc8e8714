import SbFuzz.Fuzzer.CampaignSteps
import SbFuzz.Fuzzer.Scoring

/-! What the steps of a campaign do to the marks of the entries and to the
counters that go with them. -/

set_option autoImplicit false

namespace SbFuzz.Fuzzer

/-! ## Marks and counters -/

structure Marks where
  wasFuzzed : Bool
  favored : Bool
  fsRedundant : Bool
  disabled : Bool

def QueueEntry.marks (entry : QueueEntry) : Marks where
  wasFuzzed := entry.wasFuzzed
  favored := entry.favored
  fsRedundant := entry.fsRedundant
  disabled := entry.disabled

structure Counters where
  queuedItems : Nat
  activeItems : Nat
  pendingNotFuzzed : Nat
  queuedFavored : Nat
  pendingFavored : Nat
  smallestFavored : Int

def Afl.counters (afl : Afl) : Counters where
  queuedItems := afl.queuedItems
  activeItems := afl.activeItems
  pendingNotFuzzed := afl.pendingNotFuzzed
  queuedFavored := afl.queuedFavored
  pendingFavored := afl.pendingFavored
  smallestFavored := afl.smallestFavored

structure Afl.SameMarks (before after : Afl) : Prop where
  counters : after.counters = before.counters
  marks : ∀ q, (after.queueBuf q).marks = (before.queueBuf q).marks

section

variable {before middle after afl : Afl} {config : Config} {q : Nat}

theorem Afl.SameMarks.refl : afl.SameMarks afl := ⟨rfl, fun _ => rfl⟩

theorem Afl.SameMarks.trans (first : before.SameMarks middle) (second : middle.SameMarks after) :
    before.SameMarks after :=
  ⟨second.counters.trans first.counters, fun q => (second.marks q).trans (first.marks q)⟩

section

variable (same : before.SameMarks after)

include same

theorem Afl.SameMarks.items : after.queuedItems = before.queuedItems :=
  congrArg Counters.queuedItems same.counters

theorem Afl.SameMarks.active : after.activeItems = before.activeItems :=
  congrArg Counters.activeItems same.counters

theorem Afl.SameMarks.unfuzzed : after.pendingNotFuzzed = before.pendingNotFuzzed :=
  congrArg Counters.pendingNotFuzzed same.counters

theorem Afl.SameMarks.queuedFavored : after.queuedFavored = before.queuedFavored :=
  congrArg Counters.queuedFavored same.counters

theorem Afl.SameMarks.pending : after.pendingFavored = before.pendingFavored :=
  congrArg Counters.pendingFavored same.counters

theorem Afl.SameMarks.smallest : after.smallestFavored = before.smallestFavored :=
  congrArg Counters.smallestFavored same.counters

theorem Afl.SameMarks.wasFuzzed (q : Nat) :
    (after.queueBuf q).wasFuzzed = (before.queueBuf q).wasFuzzed :=
  congrArg Marks.wasFuzzed (same.marks q)

theorem Afl.SameMarks.favored (q : Nat) :
    (after.queueBuf q).favored = (before.queueBuf q).favored :=
  congrArg Marks.favored (same.marks q)

theorem Afl.SameMarks.disabled (q : Nat) :
    (after.queueBuf q).disabled = (before.queueBuf q).disabled :=
  congrArg Marks.disabled (same.marks q)

end

theorem Afl.SameMarks.modify (q : Nat) {change : QueueEntry → QueueEntry}
    (marks : (change (afl.queueBuf q)).marks = (afl.queueBuf q).marks) :
    afl.SameMarks (afl.modify q change) := by
  refine ⟨rfl, fun r => ?_⟩
  rw [Afl.modify_queueBuf]
  split
  · next here => rw [here, marks]
  · rfl

theorem Afl.SameMarks.withTrace (afl : Afl) (trace : Nat → UInt8) :
    afl.SameMarks { afl with traceBits := trace } := ⟨rfl, fun _ => rfl⟩

theorem Afl.SameMarks.updateBitmapScore (afl : Afl) (q : Nat) :
    afl.SameMarks (updateBitmapScore config afl q) := by
  have same := updateBitmapScore_unscored config afl q
  obtain ⟨active, unfuzzed, queued, pending, smallest⟩ := Afl.counters_of_unscored same
  refine ⟨?_, fun r => ?_⟩
  · simp only [Afl.counters, Afl.queuedItems_of_unscored same, active, unfuzzed, queued, pending,
      smallest]
  · have kept : ∀ entry : QueueEntry, entry.unscored.marks = entry.marks := fun _ => rfl
    rw [← kept, Afl.entry_of_unscored same r, kept]

theorem Afl.SameMarks.labelSeed : afl.SameMarks (afl.labelSeed q) := by
  unfold Afl.labelSeed
  split
  · exact .modify q rfl
  · exact .refl

end

/-! ## What is left alone when entries are taken out -/

structure Afl.SameFavored (before after : Afl) : Prop where
  items : after.queuedItems = before.queuedItems
  queued : after.queuedFavored = before.queuedFavored
  pending : after.pendingFavored = before.pendingFavored
  smallest : after.smallestFavored = before.smallestFavored
  favored : ∀ q, (after.queueBuf q).favored = (before.queueBuf q).favored

section

variable {before middle after afl judged : Afl}

theorem Afl.SameFavored.refl : afl.SameFavored afl := ⟨rfl, rfl, rfl, rfl, fun _ => rfl⟩

theorem Afl.SameFavored.trans (first : before.SameFavored middle)
    (second : middle.SameFavored after) : before.SameFavored after :=
  ⟨second.items.trans first.items, second.queued.trans first.queued,
    second.pending.trans first.pending, second.smallest.trans first.smallest,
    fun q => (second.favored q).trans (first.favored q)⟩

theorem Afl.SameMarks.sameFavored (same : before.SameMarks after) : before.SameFavored after :=
  ⟨same.items, same.queuedFavored, same.pending, same.smallest, same.favored⟩

theorem Afl.SameFavored.disable (afl : Afl) (q : Nat) : afl.SameFavored (afl.disable q) := by
  refine ⟨rfl, rfl, rfl, rfl, fun r => ?_⟩
  rw [Afl.disable_queueBuf]
  split
  · next here => rw [here]
  · rfl

theorem Afl.SameFavored.retire (afl : Afl) (q : Nat) : afl.SameFavored (afl.retire q) := by
  refine ⟨?_, ?_, ?_, ?_, fun r => ?_⟩
  · simp
  · unfold Afl.retire
    split <;> rfl
  · unfold Afl.retire
    split <;> rfl
  · simp
  · rw [Afl.retire_queueBuf]
    split
    · next here => rw [here]
    · rfl

theorem Afl.SameFavored.judgeSeed {settings : Settings} {q : Nat} {newCrashBits : Bool}
    {fault : Fault} (judge : judgeSeed settings afl q newCrashBits fault = some judged) :
    afl.SameFavored judged := by
  apply judgeSeed_induction (P := fun state => afl.SameFavored state) judge .refl
  · exact fun state same => same.trans (Afl.SameMarks.modify q rfl).sameFavored
  · exact fun state same => same.trans (.retire state q)
  · exact fun state same => same.trans (.disable state q)

theorem Afl.SameFavored.removeDuplicates (afl : Afl) :
    afl.SameFavored (removeDuplicates afl) := by
  apply removeDuplicates_induction (P := fun state => afl.SameFavored state)
  · exact fun state q _ _ same => (same.trans (.retire state q)).trans (.disable _ q)
  · exact .refl

end

/-! ## The functions of a campaign -/

theorem addToQueue_queueBuf_old {afl : Afl} {q : Nat} (len : UInt32)
    (inQueue : q < afl.queuedItems) : (addToQueue afl len).queueBuf q = afl.queueBuf q := by
  simp [addToQueue, Nat.ne_of_lt inQueue]

theorem addToQueue_queueBuf_new (afl : Afl) (len : UInt32) :
    (addToQueue afl len).queueBuf afl.queuedItems = .fresh len := by
  simp [addToQueue]

section

variable {settings : Settings} {campaign next after : Campaign} {fuzz : FuzzOne} {q : Nat}
  {calibration : Calibration} {fault : Fault}

theorem Campaign.score_sameMarks (trace : Nat → UInt8) :
    campaign.afl.SameMarks (campaign.score settings q trace).afl :=
  (Afl.SameMarks.withTrace _ trace).trans (.updateBitmapScore _ q)

theorem Campaign.recordCalibration_sameMarks :
    campaign.afl.SameMarks (campaign.recordCalibration q calibration).afl := by
  rw [Campaign.recordCalibration_afl]
  exact .modify q (by simp [QueueEntry.marks])

theorem calibrateCase_sameMarks
    (called : calibrateCase settings campaign q calibration = some (after, fault)) :
    campaign.afl.SameMarks after.afl := by
  have recorded : campaign.afl.SameMarks (campaign.recordCalibration q calibration).afl :=
    Campaign.recordCalibration_sameMarks
  rcases calibrateCase_cases called with
    ⟨execCksum, trace, _, _, _, rfl⟩ | ⟨newBits, execUs, execCksum, trace, _, _, rfl⟩
  · exact recorded.trans (.withTrace _ trace)
  · exact recorded.trans (Campaign.score_sameMarks trace)

theorem Campaign.clearCksum_sameMarks : campaign.afl.SameMarks (campaign.clearCksum q).afl := by
  rw [Campaign.clearCksum_afl]
  exact .modify q rfl

theorem Campaign.resize_sameMarks (len : UInt32) :
    campaign.afl.SameMarks (campaign.resize q len).afl := by
  rw [Campaign.resize_afl]
  exact .modify q rfl

theorem Campaign.trimTo_sameMarks (len : UInt32) (trace : Nat → UInt8) :
    campaign.afl.SameMarks (campaign.trimTo q len trace).afl :=
  (Campaign.resize_sameMarks len).trans (.withTrace _ trace)

theorem Campaign.addFinding_sameMarks (finding : Finding) :
    (addToQueue campaign.afl finding.len).SameMarks (campaign.addFinding finding).afl := by
  have filled : (addToQueue campaign.afl finding.len).SameMarks
      ((addToQueue campaign.afl finding.len).modify campaign.afl.queuedItems fun entry =>
        { entry with execCksum := finding.execCksum, nFuzzEntry := finding.nFuzzEntry }) :=
    .modify campaign.afl.queuedItems rfl
  exact ⟨filled.counters, filled.marks⟩

/-- The block under `abandon_entry` is entered for `q`. -/
structure Afl.MarksFuzzed (before : Afl) (q : Nat) (after : Afl) : Prop where
  calibrated : (before.queueBuf q).calFailed = 0
  unseen : (before.queueBuf q).wasFuzzed = false
  enabled : (before.queueBuf q).disabled = false
  entries : ∀ r, after.queueBuf r =
    if r = q then { before.queueBuf q with wasFuzzed := true } else before.queueBuf r
  items : after.queuedItems = before.queuedItems
  active : after.activeItems = before.activeItems
  unfuzzed : after.pendingNotFuzzed = before.pendingNotFuzzed - 1
  queued : after.queuedFavored = before.queuedFavored
  pending : after.pendingFavored =
    before.pendingFavored - if (before.queueBuf q).favored = true then 1 else 0
  smallest : after.smallestFavored =
    if (before.queueBuf q).favored = true then -1 else before.smallestFavored

theorem Afl.markFuzzed_cases (afl : Afl) (q : Nat) (stopSoon : Bool) :
    afl.markFuzzed q stopSoon = afl ∧ ¬ (stopSoon = false ∧ (afl.queueBuf q).calFailed = 0 ∧
      (afl.queueBuf q).wasFuzzed = false ∧ (afl.queueBuf q).disabled = false) ∨
    stopSoon = false ∧ afl.MarksFuzzed q (afl.markFuzzed q stopSoon) := by
  by_cases marks : stopSoon = false ∧ (afl.queueBuf q).calFailed = 0 ∧
      (afl.queueBuf q).wasFuzzed = false ∧ (afl.queueBuf q).disabled = false
  · obtain ⟨going, calibrated, unseen, enabled⟩ := marks
    refine .inr ⟨going, calibrated, unseen, enabled, fun r => ?_, ?_, ?_, ?_, ?_, ?_, ?_⟩
    all_goals simp only [Afl.markFuzzed, going, calibrated, unseen, enabled, Bool.not_false,
      and_self, if_true, Afl.modify_queueBuf, Afl.modify_queuedItems, Afl.modify_activeItems,
      Afl.modify_queuedFavored]
    split <;> rfl
  · refine .inl ⟨?_, marks⟩
    unfold Afl.markFuzzed
    simp only
    rw [if_neg]
    simpa using marks

/-- Marking an entry as fuzzed can only clear `smallest_favored`. -/
theorem Afl.markFuzzed_smallestFavored (afl : Afl) (q : Nat) (stopSoon : Bool) :
    (afl.markFuzzed q stopSoon).smallestFavored = afl.smallestFavored ∨
      (afl.markFuzzed q stopSoon).smallestFavored = -1 := by
  rcases afl.markFuzzed_cases q stopSoon with ⟨same, _⟩ | ⟨_, marks⟩
  · exact .inl (congrArg Afl.smallestFavored same)
  · rw [marks.smallest]
    split
    · exact .inr rfl
    · exact .inl rfl

@[simp] theorem Afl.markFuzzed_queuedItems (afl : Afl) (q : Nat) (stopSoon : Bool) :
    (afl.markFuzzed q stopSoon).queuedItems = afl.queuedItems := by
  rcases afl.markFuzzed_cases q stopSoon with ⟨same, _⟩ | ⟨_, marks⟩
  · exact congrArg Afl.queuedItems same
  · exact marks.items

theorem abandonEntry_sameMarks (afl : Afl) (stopSoon : Bool) :
    (afl.markFuzzed q stopSoon).SameMarks (abandonEntry afl q stopSoon) :=
  .modify q rfl

/-! ## What a step does to the marks -/

/-- `cull_queue` runs in this step. -/
def Campaign.Culls (campaign : Campaign) : Event → Prop
  | .launch _ => campaign.phase = .starting
  | .advance => campaign.phase = .loopHead ∧ campaign.stopSoon = false
  | _ => False

theorem Campaign.step_of_culls {event : Event} (culls : campaign.Culls event)
    (stepped : campaign.step settings event = some next) :
    next.afl = cullQueue settings.toConfig campaign.afl := by
  cases event with
  | launch seekTo => exact (Campaign.launch_cases (Campaign.step_launch stepped).2).1
  | advance =>
      cases Campaign.step_advance stepped with
      | culled _ here going afl scored stop current there => exact afl
      | stopped here stop => cases stop.symm.trans culls.2
      | seeded phase here nonempty there => cases here.symm.trans culls.1
      | seedSkipped idx here inQueue => cases here.symm.trans culls.1
      | seedsDone idx here done => cases here.symm.trans culls.1
      | imported here => cases here.symm.trans culls.1
      | cycled _ here afl scored stop current there => cases here.symm.trans culls.1
      | passedOver idx here disabled => cases here.symm.trans culls.1
      | rescored idx here inQueue enabled => cases here.symm.trans culls.1
      | allRescored idx here done => cases here.symm.trans culls.1
      | gaveUp fuzz here failed => cases here.symm.trans culls.1
  | _ => cases culls

theorem Campaign.Culls.phase {event : Event} (culls : campaign.Culls event) :
    campaign.phase = .starting ∨ campaign.phase = .loopHead := by
  cases event with
  | launch seekTo => exact .inl culls
  | advance => exact .inr culls.1
  | _ => cases culls

/-- A step that changes marks or counters adds an entry, judges a seed, takes
out duplicates, culls the queue, ends a call of `fuzz_one`, or resumes. -/
inductive Campaign.MarkStep (settings : Settings) (campaign : Campaign) :
    Event → Campaign → Prop
  | quiet (event : Event) (next : Campaign) (same : campaign.afl.SameMarks next.afl) :
      MarkStep settings campaign event next
  | added (event : Event) (next : Campaign) (len : UInt32)
      (same : (addToQueue campaign.afl len).SameMarks next.afl) :
      MarkStep settings campaign event next
  | judged (calibration : Calibration) (newCrashBits : Bool) (traceAfter : Nat → UInt8)
      (next after : Campaign) (idx : Nat) (fault : Fault) (judged : Afl)
      (here : campaign.phase = .dryRun idx) (inQueue : idx < campaign.afl.queuedItems)
      (enabled : (campaign.afl.queueBuf idx).disabled = false)
      (called : calibrateCase settings campaign idx calibration = some (after, fault))
      (judge : judgeSeed settings (after.afl.labelSeed idx) idx newCrashBits fault = some judged)
      (going : after.stopSoon = false) (there : next.phase = .dryRun (idx + 1))
      (same : judged.SameMarks next.afl) :
      MarkStep settings campaign (.dryRun calibration newCrashBits traceAfter) next
  | deduplicated (next : Campaign) (idx : Nat) (here : campaign.phase = .dryRun idx)
      (done : campaign.afl.queuedItems ≤ idx)
      (afl : next.afl = removeDuplicates campaign.afl) (there : next.phase = .starting) :
      MarkStep settings campaign .advance next
  | culled (event : Event) (next : Campaign) (culls : campaign.Culls event)
      (afl : next.afl = cullQueue settings.toConfig campaign.afl) :
      MarkStep settings campaign event next
  | abandoned (event : Event) (next : Campaign) (fuzz : FuzzOne) (middle : Afl)
      (here : campaign.phase.fuzzOne = some fuzz) (original : fuzz.engine = .original)
      (before : campaign.afl.SameMarks middle)
      (after : (middle.markFuzzed fuzz.entry campaign.stopSoon).SameMarks next.afl) :
      MarkStep settings campaign event next
  | restarted (schedule : Schedule) (len : Nat → UInt32) (trace : Nat → UInt8)
      (here : campaign.phase = .stopped) :
      MarkStep settings campaign (.restart schedule len trace)
        (campaign.restart settings schedule len trace)

/-- Only the original mutator marks the entry it leaves. -/
theorem Campaign.abandon_marks {event : Event} {middle : Campaign} (skipped : Bool)
    (here : campaign.phase.fuzzOne = some fuzz) (before : campaign.afl.SameMarks middle.afl)
    (stop : middle.stopSoon = campaign.stopSoon) :
    campaign.MarkStep settings event (middle.abandon settings fuzz skipped) := by
  have left := Campaign.abandon_afl settings middle fuzz skipped
  cases engine : fuzz.engine with
  | original =>
      rw [engine] at left
      apply MarkStep.abandoned event _ fuzz middle.afl here engine before
      rw [left, stop]
      exact abandonEntry_sameMarks middle.afl campaign.stopSoon
  | mopt =>
      rw [engine] at left
      apply MarkStep.quiet event
      rw [left]
      exact before.trans (.modify fuzz.entry rfl)

theorem Campaign.advance_marks (advanced : campaign.Advances settings next) :
    campaign.MarkStep settings .advance next := by
  cases advanced with
  | seeded phase here nonempty there => exact .quiet _ _ .refl
  | seedSkipped idx here inQueue => exact .quiet _ _ .refl
  | seedsDone idx here done => exact .deduplicated _ idx here done rfl rfl
  | stopped here stop => exact .quiet _ _ .refl
  | culled _ here going afl scored stop current there => exact .culled _ _ ⟨here, going⟩ afl
  | imported here => exact .quiet _ _ .refl
  | cycled _ here afl scored stop current there =>
      rcases afl with afl | afl
      · exact .quiet _ _ (afl ▸ .refl)
      · exact .quiet _ _ (afl ▸ ⟨rfl, fun _ => rfl⟩)
  | passedOver idx here disabled => exact .quiet _ _ .refl
  | rescored idx here inQueue enabled => exact .quiet _ _ (.updateBitmapScore _ idx)
  | allRescored idx here done => exact .quiet _ _ .refl
  | gaveUp fuzz here failed =>
      exact campaign.abandon_marks true (by rw [here]; rfl) .refl rfl

theorem Campaign.step_marks {event : Event}
    (stepped : campaign.step settings event = some next) :
    campaign.MarkStep settings event next := by
  cases event with
  | interrupt => exact Option.some.inj stepped ▸ .quiet _ _ .refl
  | seed len =>
      obtain ⟨_, rfl⟩ := Campaign.step_seed stepped
      exact .added _ _ len .refl
  | dryRun calibration newCrashBits traceAfter =>
      obtain ⟨idx, here, inQueue, enabled, ran⟩ := Campaign.step_dryRun stepped
      obtain ⟨after, fault, called, ending⟩ := Campaign.dryRunSeed_cases ran
      have calibrated := calibrateCase_sameMarks called
      rcases ending with rfl | ⟨judged, judge, going, rfl⟩
      · exact .quiet _ _ (calibrated.trans .labelSeed)
      · exact .judged _ _ _ _ after idx fault judged here inQueue enabled called judge going rfl
          (.withTrace judged traceAfter)
  | launch seekTo =>
      obtain ⟨here, launched⟩ := Campaign.step_launch stepped
      exact .culled _ _ here (Campaign.launch_cases launched).1
  | advance => exact Campaign.advance_marks (Campaign.step_advance stepped)
  | find finding =>
      obtain ⟨_, saved⟩ := Campaign.step_find stepped
      obtain ⟨after, fault, called, rfl⟩ := Campaign.saveIfInteresting_cases saved
      have calibrated := (campaign.addFinding_sameMarks finding).trans
        (calibrateCase_sameMarks called)
      exact .added _ _ finding.len (calibrated.trans (.withTrace _ finding.traceAfter))
  | run trace nFuzz =>
      obtain rfl := Campaign.step_run stepped
      exact .quiet _ _ ⟨rfl, fun _ => rfl⟩
  | select entry =>
      obtain ⟨_, _, afl, _⟩ := Campaign.step_select stepped
      exact .quiet _ _ (afl ▸ .refl)
  | enter queueGet skip =>
      obtain ⟨fuzz, _, entered⟩ := Campaign.step_enter stepped
      rcases Campaign.enter_cases entered with ⟨rfl, _⟩ | ⟨_, rfl⟩ | ⟨_, rfl⟩
      · exact .quiet _ _ (by rw [Campaign.endEngine_afl]; exact .refl)
      · exact .quiet _ _ .refl
      · exact .quiet _ _ (by rw [Campaign.enterTrimming_afl]; exact .refl)
  | pass =>
      obtain ⟨fuzz, _, _, rfl⟩ := Campaign.step_pass stepped
      exact .quiet _ _ (by rw [Campaign.endEngine_afl]; exact .refl)
  | calibrate calibration =>
      obtain ⟨fuzz, here, ran⟩ := Campaign.step_calibrate stepped
      obtain ⟨after, fault, called, ending⟩ := Campaign.recalibrate_cases ran
      have calibrated := Campaign.clearCksum_sameMarks.trans (calibrateCase_sameMarks called)
      have stop : after.stopSoon = (campaign.clearCksum fuzz.entry).stopSoon :=
        calibrateCase_stopSoon called
      rcases ending with ⟨_, rfl⟩ | ⟨_, _, rfl⟩
      · exact campaign.abandon_marks true (by rw [here]; rfl) calibrated stop
      · exact .quiet _ _ (by rw [Campaign.enterTrimming_afl]; exact calibrated)
  | trimmed len trace =>
      obtain ⟨fuzz, here, rfl⟩ := Campaign.step_trimmed stepped
      rw [Campaign.keepTrimmed_eq]
      exact .quiet _ _ ((Campaign.resize_sameMarks len).trans (Campaign.score_sameMarks trace))
  | trimEnd len trace =>
      obtain ⟨fuzz, here, rfl⟩ := Campaign.step_trimEnd stepped
      have trimmed := campaign.trimTo_sameMarks (q := fuzz.entry) len trace
      rcases Campaign.endTrimming_cases settings campaign fuzz len trace with
        ⟨_, same⟩ | ⟨_, same⟩
      · rw [same]
        exact campaign.abandon_marks true (by rw [here]; rfl) trimmed rfl
      · rw [same]
        have marked : (campaign.trimTo fuzz.entry len trace).afl.SameMarks
            ((campaign.trimTo fuzz.entry len trace).afl.modify fuzz.entry fun entry =>
              { entry with trimDone := true }) := .modify fuzz.entry rfl
        exact .quiet _ _ (trimmed.trans marked)
  | abandon completed =>
      obtain ⟨fuzz, here, rfl⟩ := Campaign.step_abandon stepped
      exact campaign.abandon_marks _ (by rw [here]; rfl) .refl rfl
  | restart schedule len trace =>
      obtain ⟨here, rfl⟩ := Campaign.step_restart stepped
      exact .restarted schedule len trace here

end

end SbFuzz.Fuzzer
