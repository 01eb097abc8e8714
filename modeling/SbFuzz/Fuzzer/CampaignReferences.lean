import SbFuzz.Fuzzer.CampaignFocus
import SbFuzz.Fuzzer.Culling
import SbFuzz.Fuzzer.FastResumeScores

/-! What the steps of a campaign do to the scores, and what every campaign
keeps: references count the bytes that an entry holds up to what fast resume
made of them, and all entries that are worked on are in the queue. -/

set_option autoImplicit false

namespace SbFuzz.Fuzzer

/-! ## Changes that leave the scores alone -/

structure Afl.SameTops (before after : Afl) : Prop where
  items : before.queuedItems ≤ after.queuedItems
  tops : after.topRated = before.topRated
  refs : ∀ q, (after.queueBuf q).tcRef = (before.queueBuf q).tcRef
  minis : ∀ q, (after.queueBuf q).traceMini = (before.queueBuf q).traceMini

structure Afl.SameScores (before after : Afl) : Prop extends Afl.SameTops before after where
  changed : after.scoreChanged = before.scoreChanged

section

variable {before middle after afl : Afl} {config : Config} {surplus : Nat → Nat}

theorem Afl.SameTops.refl : afl.SameTops afl :=
  ⟨le_rfl, rfl, fun _ => rfl, fun _ => rfl⟩

theorem Afl.SameScores.refl : afl.SameScores afl := ⟨.refl, rfl⟩

theorem Afl.SameScores.trans (first : before.SameScores middle)
    (second : middle.SameScores after) : before.SameScores after :=
  ⟨⟨first.items.trans second.items, second.tops.trans first.tops,
    fun q => (second.refs q).trans (first.refs q),
    fun q => (second.minis q).trans (first.minis q)⟩, second.changed.trans first.changed⟩

theorem Afl.SameScores.modify (q : Nat) {change : QueueEntry → QueueEntry}
    (refs : (change (afl.queueBuf q)).tcRef = (afl.queueBuf q).tcRef)
    (minis : (change (afl.queueBuf q)).traceMini = (afl.queueBuf q).traceMini) :
    afl.SameScores (afl.modify q change) := by
  refine ⟨⟨le_rfl, rfl, fun r => ?_, fun r => ?_⟩, rfl⟩
  · rw [Afl.modify_queueBuf]
    split
    · next here => rw [here, refs]
    · exact rfl
  · rw [Afl.modify_queueBuf]
    split
    · next here => rw [here, minis]
    · exact rfl

theorem Afl.SameScores.retire (q : Nat) : afl.SameScores (afl.retire q) := by
  refine ⟨⟨by simp, by simp, fun r => ?_, fun r => ?_⟩, by simp⟩
  · rw [Afl.retire_queueBuf]
    split
    · next here => rw [here]
    · exact rfl
  · rw [Afl.retire_queueBuf]
    split
    · next here => rw [here]
    · exact rfl

theorem Afl.SameScores.disable (q : Nat) : afl.SameScores (afl.disable q) :=
  .modify q (rfl) (rfl)

theorem Afl.SameScores.removeDuplicates : afl.SameScores (removeDuplicates afl) := by
  apply removeDuplicates_induction (P := fun state => afl.SameScores state)
  · exact fun state q _ _ same => (same.trans (.retire q)).trans (.disable q)
  · exact .refl

theorem Afl.SameScores.judgeSeed {settings : Settings} {q : Nat} {newCrashBits : Bool}
    {fault : Fault} (judged : judgeSeed settings afl q newCrashBits fault = some after) :
    afl.SameScores after := by
  apply judgeSeed_induction (P := fun state => afl.SameScores state) judged .refl
  · exact fun state same => same.trans (.modify q (rfl) (rfl))
  · exact fun state same => same.trans (.retire q)
  · exact fun state same => same.trans (.disable q)

theorem Afl.SameScores.markFuzzed (q : Nat) (stopSoon : Bool) :
    afl.SameScores (afl.markFuzzed q stopSoon) := by
  unfold Afl.markFuzzed
  simp only
  split
  · have fuzzed : afl.SameScores (afl.modify q fun entry => { entry with wasFuzzed := true }) :=
      .modify q (rfl) (rfl)
    exact ⟨⟨fuzzed.items, fuzzed.tops, fuzzed.refs, fuzzed.minis⟩, fuzzed.changed⟩
  · exact .refl

theorem Afl.SameScores.abandonEntry (q : Nat) (stopSoon : Bool) :
    afl.SameScores (abandonEntry afl q stopSoon) :=
  (Afl.SameScores.markFuzzed q stopSoon).trans (.modify q (rfl) (rfl))

theorem Afl.SameTops.cullQueue (refs : afl.Refs config surplus) :
    afl.SameTops (cullQueue config afl) := by
  have owners : ∀ i < config.mapSize, ∀ q, afl.topRated i = some q → q < afl.queuedItems :=
    fun i _ q holds => (refs.inRange i q holds).2
  have same := (afl.coverBytes_covers config owners).same
  cases changed : afl.scoreChanged with
  | false => rw [cullQueue_of_unchanged config afl changed]; exact .refl
  | true =>
      cases plain : config.nonInstrumentedMode with
      | true => rw [cullQueue_of_nonInstrumented config afl plain]; exact .refl
      | false =>
          have tops := Afl.topRated_of_unfavored same
          have items := Afl.items_of_unfavored same
          have minis := Afl.traceMini_of_unfavored same
          have refs := Afl.tcRef_of_unfavored same
          rw [cullQueue_of_changed config afl changed plain]
          refine ⟨items.ge, tops, fun q => ?_, fun q => ?_⟩
          · simp only
            split
            · rw [QueueEntry.culled_tcRef, refs]
            · rw [refs]
          · simp only
            split
            · rw [QueueEntry.culled_traceMini, minis]
            · rw [minis]

/-- A slot behind the end of the queue has no references, so a new entry there
changes none. -/
theorem Afl.SameScores.addToQueue (refs : afl.Refs config surplus)
    (beyond : surplus afl.queuedItems = 0) (len : UInt32) :
    afl.SameScores (addToQueue afl len) := by
  have noRefs : (afl.queueBuf afl.queuedItems).tcRef = 0 := by
    have counted := refs.counted afl.queuedItems
    rw [Nat.count_of_forall_not fun i _ holds =>
      absurd (refs.inRange i _ holds).2 (Nat.lt_irrefl _), beyond] at counted
    exact counted
  have noMini : (afl.queueBuf afl.queuedItems).traceMini = none := by
    have kept := refs.mini afl.queuedItems
    cases mini : (afl.queueBuf afl.queuedItems).traceMini with
    | none => rfl
    | some bits =>
        have positive := kept.mp (by simp [mini])
        omega
  refine ⟨⟨Nat.le_succ _, rfl, fun q => ?_, fun q => ?_⟩, rfl⟩
  · simp only [Fuzzer.addToQueue, Function.update_apply]
    split
    · next here => rw [here, noRefs]; rfl
    · rfl
  · simp only [Fuzzer.addToQueue, Function.update_apply]
    split
    · next here => rw [here, noMini]; rfl
    · rfl

theorem Afl.Refs.of_same (same : before.SameTops after) (refs : before.Refs config surplus) :
    after.Refs config surplus := by
  refine ⟨fun i q holds => ?_, fun q => ?_, fun q => ?_⟩
  · rw [same.tops] at holds
    exact ⟨(refs.inRange i q holds).1, (refs.inRange i q holds).2.trans_le same.items⟩
  · rw [same.refs, same.tops]
    exact refs.counted q
  · rw [QueueEntry.MiniKept, same.refs, same.minis]
    exact refs.mini q

end

/-! ## What a step does to the scores -/

/-- The event is an execution of `q` that is scored. -/
def Campaign.Executes (campaign : Campaign) (q : Nat) (trace : Nat → UInt8) : Event → Prop
  | .dryRun (.completed _ _ _ given) _ _ => campaign.phase = .dryRun q ∧ given = trace
  | .calibrate (.completed _ _ _ given) =>
      ∃ fuzz, campaign.phase = .calibrating fuzz ∧ fuzz.entry = q ∧ given = trace
  | .trimmed _ given => ∃ fuzz, campaign.phase = .trimming fuzz ∧ fuzz.entry = q ∧ given = trace
  | .find finding =>
      campaign.afl.queuedItems = q ∧ ∃ newBits execUs execCksum,
        finding.calibration = .completed newBits execUs execCksum trace
  | _ => False

/-- The state in which the execution of the event is scored. -/
def Campaign.atScore (campaign : Campaign) (q : Nat) : Event → Campaign
  | .dryRun calibration _ _ => campaign.recordCalibration q calibration
  | .calibrate calibration => (campaign.clearCksum q).recordCalibration q calibration
  | .trimmed len _ => campaign.resize q len
  | .find finding => (campaign.addFinding finding).recordCalibration q finding.calibration
  | _ => campaign

/-- A step leaves the scores alone, scores one execution, scores one entry
again, culls the queue, or resumes. -/
inductive Campaign.ScoreStep (settings : Settings) (campaign : Campaign) :
    Event → Campaign → Prop
  | quiet (event : Event) (next : Campaign) (same : campaign.afl.SameScores next.afl)
      (scored : next.scored = campaign.scored) : ScoreStep settings campaign event next
  | executed (event : Event) (next : Campaign) (q : Nat) (trace : Nat → UInt8)
      (executes : campaign.Executes q trace event)
      (before : campaign.afl.SameScores (campaign.atScore q event).afl)
      (same : (campaign.atScore q event).scored = campaign.scored)
      (inQueue : q < (campaign.atScore q event).afl.queuedItems)
      (after : ((campaign.atScore q event).score settings q trace).afl.SameScores next.afl)
      (scored : next.scored = ((campaign.atScore q event).score settings q trace).scored) :
      ScoreStep settings campaign event next
  | rescored (next : Campaign) (idx : Nat) (here : campaign.phase = .rescoring idx)
      (inQueue : idx < campaign.afl.queuedItems)
      (enabled : (campaign.afl.queueBuf idx).disabled = false)
      (afl : next.afl = updateBitmapScore settings.toConfig campaign.afl idx)
      (scored : next.scored = campaign.scored) : ScoreStep settings campaign .advance next
  | culled (event : Event) (next : Campaign) (culls : campaign.Culls event)
      (afl : next.afl = cullQueue settings.toConfig campaign.afl)
      (scored : next.scored = campaign.scored) : ScoreStep settings campaign event next
  | restarted (schedule : Schedule) (len : Nat → UInt32) (trace : Nat → UInt8)
      (here : campaign.phase = .stopped) :
      ScoreStep settings campaign (.restart schedule len trace)
        (campaign.restart settings schedule len trace)

/-- The parts of the state that point into the queue. -/
structure Campaign.Sound (settings : Settings) (campaign : Campaign) : Prop where
  refs : ∃ surplus, campaign.afl.Refs settings.toConfig surplus ∧
    ∀ q, campaign.afl.queuedItems ≤ q → surplus q = 0
  nonempty : campaign.phase ≠ .seeding → 0 < campaign.afl.queuedItems
  smallest : campaign.afl.smallestFavored < max 1 campaign.afl.queuedItems
  current : ∀ q, campaign.queueCur = some q → q < campaign.afl.queuedItems
  working : ∀ fuzz, campaign.phase.fuzzOne = some fuzz → fuzz.entry < campaign.afl.queuedItems

section

variable {settings : Settings} {campaign next after : Campaign} {q : Nat}
  {calibration : Calibration} {fault : Fault}

theorem Campaign.recordCalibration_sameScores :
    campaign.afl.SameScores (campaign.recordCalibration q calibration).afl := by
  rw [Campaign.recordCalibration_afl]
  exact .modify q (by simp) (by simp)

theorem Afl.SameScores.labelSeed {afl : Afl} : afl.SameScores (afl.labelSeed q) := by
  unfold Afl.labelSeed
  split
  · exact .modify q (rfl) (rfl)
  · exact .refl

theorem Campaign.abandon_sameScores {fuzz : FuzzOne} (skipped : Bool) :
    campaign.afl.SameScores (campaign.abandon settings fuzz skipped).afl := by
  rw [Campaign.abandon_afl]
  split
  · exact .abandonEntry fuzz.entry campaign.stopSoon
  · exact .modify fuzz.entry (rfl) (rfl)

theorem Afl.SameScores.withTrace (afl : Afl) (trace : Nat → UInt8) :
    afl.SameScores { afl with traceBits := trace } :=
  ⟨⟨le_rfl, rfl, fun _ => rfl, fun _ => rfl⟩, rfl⟩

theorem Campaign.clearCksum_sameScores :
    campaign.afl.SameScores (campaign.clearCksum q).afl := by
  rw [Campaign.clearCksum_afl]
  exact .modify q rfl rfl

theorem Campaign.resize_sameScores (len : UInt32) :
    campaign.afl.SameScores (campaign.resize q len).afl := by
  rw [Campaign.resize_afl]
  exact .modify q rfl rfl

theorem Campaign.trimTo_sameScores (len : UInt32) (trace : Nat → UInt8) :
    campaign.afl.SameScores (campaign.trimTo q len trace).afl :=
  (Campaign.resize_sameScores len).trans (.withTrace _ trace)

theorem Campaign.addFinding_sameScores {config : Config} {surplus : Nat → Nat}
    (refs : campaign.afl.Refs config surplus) (beyond : surplus campaign.afl.queuedItems = 0)
    (finding : Finding) : campaign.afl.SameScores (campaign.addFinding finding).afl := by
  have added := Afl.SameScores.addToQueue refs beyond finding.len
  have filled : (addToQueue campaign.afl finding.len).SameScores
      ((addToQueue campaign.afl finding.len).modify campaign.afl.queuedItems fun entry =>
        { entry with execCksum := finding.execCksum, nFuzzEntry := finding.nFuzzEntry }) := by
    apply Afl.SameScores.modify <;> rfl
  have slot := added.trans filled
  exact ⟨⟨slot.items, slot.tops, slot.refs, slot.minis⟩, slot.changed⟩

/-- A calibration that goes through is an execution that is scored. -/
theorem calibrateCase_scores {start : Campaign} {event : Event}
    (called : calibrateCase settings start q calibration = some (after, fault))
    (executes : ∀ newBits execUs execCksum trace,
      calibration = .completed newBits execUs execCksum trace → campaign.Executes q trace event)
    (scoredFrom : start.recordCalibration q calibration = campaign.atScore q event)
    (before : campaign.afl.SameScores start.afl) (same : start.scored = campaign.scored)
    (inQueue : q < start.afl.queuedItems) (rest : after.afl.SameScores next.afl)
    (scored : next.scored = after.scored) : campaign.ScoreStep settings event next := by
  have recorded : campaign.afl.SameScores (start.recordCalibration q calibration).afl :=
    before.trans Campaign.recordCalibration_sameScores
  rcases calibrateCase_cases called with
    ⟨execCksum, trace, _, _, _, rfl⟩ | ⟨newBits, execUs, execCksum, trace, given, _, rfl⟩
  · exact .quiet event next ((recorded.trans (.withTrace _ trace)).trans rest) (scored.trans same)
  · have scoredThere := executes _ _ _ _ given
    rw [scoredFrom] at recorded rest scored
    exact .executed event next q trace scoredThere recorded (scoredFrom ▸ same)
      (scoredFrom ▸ inQueue) rest scored

/-- Every step is one of the four, by the event and by what `advance` does. -/
theorem Campaign.step_scores {event : Event} (sound : campaign.Sound settings)
    (stepped : campaign.step settings event = some next) :
    campaign.ScoreStep settings event next := by
  obtain ⟨surplus, refs, beyond⟩ := sound.refs
  cases event with
  | interrupt => exact Option.some.inj stepped ▸ .quiet _ _ .refl rfl
  | seed len =>
      obtain ⟨_, rfl⟩ := Campaign.step_seed stepped
      exact .quiet _ _ (.addToQueue refs (beyond _ le_rfl) len) rfl
  | dryRun calibration newCrashBits traceAfter =>
      obtain ⟨idx, here, inQueue, _, ran⟩ := Campaign.step_dryRun stepped
      obtain ⟨after, fault, called, ending⟩ := Campaign.dryRunSeed_cases ran
      apply calibrateCase_scores called _ rfl .refl rfl inQueue
      · rcases ending with rfl | ⟨judged, judge, _, rfl⟩
        · exact .labelSeed
        · exact (Afl.SameScores.labelSeed.trans (.judgeSeed judge)).trans (.withTrace _ traceAfter)
      · rcases ending with rfl | ⟨judged, judge, _, rfl⟩ <;> rfl
      · rintro newBits execUs execCksum trace rfl
        exact ⟨here, rfl⟩
  | launch seekTo =>
      obtain ⟨here, launched⟩ := Campaign.step_launch stepped
      obtain ⟨afl, scored, _⟩ := Campaign.launch_cases launched
      exact .culled _ _ here afl scored
  | advance =>
      have advanced := Campaign.step_advance stepped
      cases advanced with
      | seeded phase here nonempty there => exact .quiet _ _ .refl rfl
      | seedSkipped idx here inQueue => exact .quiet _ _ .refl rfl
      | seedsDone idx here done => exact .quiet _ _ .removeDuplicates rfl
      | stopped here stop => exact .quiet _ _ .refl rfl
      | culled _ here going afl scored stop current there =>
          exact .culled _ _ ⟨here, going⟩ afl scored
      | imported here => exact .quiet _ _ .refl rfl
      | cycled _ here afl scored stop current there =>
          rcases afl with afl | afl
          · exact .quiet _ _ (afl ▸ .refl) scored
          · exact .quiet _ _ (afl ▸ ⟨⟨le_rfl, rfl, fun _ => rfl, fun _ => rfl⟩, rfl⟩) scored
      | passedOver idx here disabled => exact .quiet _ _ .refl rfl
      | rescored idx here inQueue enabled =>
          exact .rescored _ idx here inQueue enabled rfl rfl
      | allRescored idx here done => exact .quiet _ _ .refl rfl
      | gaveUp fuzz here failed =>
          exact .quiet _ _ (Campaign.abandon_sameScores true) (Campaign.abandon_scored true)
  | find finding =>
      obtain ⟨_, saved⟩ := Campaign.step_find stepped
      obtain ⟨after, fault, called, rfl⟩ := Campaign.saveIfInteresting_cases saved
      have added := campaign.addFinding_sameScores refs (beyond _ le_rfl) finding
      apply calibrateCase_scores called _ rfl added rfl (Nat.lt_succ_self _)
      · exact .withTrace after.afl finding.traceAfter
      · rfl
      · intro newBits execUs execCksum trace given
        exact ⟨rfl, newBits, execUs, execCksum, given⟩
  | run trace nFuzz =>
      obtain rfl := Campaign.step_run stepped
      exact .quiet _ _ ⟨⟨le_rfl, rfl, fun _ => rfl, fun _ => rfl⟩, rfl⟩ rfl
  | select entry =>
      obtain ⟨_, _, afl, scored, _⟩ := Campaign.step_select stepped
      exact .quiet _ _ (afl ▸ .refl) scored
  | enter queueGet skip =>
      obtain ⟨fuzz, _, entered⟩ := Campaign.step_enter stepped
      rcases Campaign.enter_cases entered with ⟨rfl, _⟩ | ⟨_, rfl⟩ | ⟨_, rfl⟩
      · exact .quiet _ _ (by rw [Campaign.endEngine_afl]; exact .refl) (by simp)
      · exact .quiet _ _ .refl rfl
      · exact .quiet _ _ (by rw [Campaign.enterTrimming_afl]; exact .refl) (by simp)
  | pass =>
      obtain ⟨fuzz, _, _, rfl⟩ := Campaign.step_pass stepped
      exact .quiet _ _ (by rw [Campaign.endEngine_afl]; exact .refl) (by simp)
  | calibrate calibration =>
      obtain ⟨fuzz, here, ran⟩ := Campaign.step_calibrate stepped
      obtain ⟨after, fault, called, ending⟩ := Campaign.recalibrate_cases ran
      have inQueue := sound.working fuzz (by rw [here]; rfl)
      apply calibrateCase_scores called _ rfl Campaign.clearCksum_sameScores rfl inQueue
      · rcases ending with ⟨_, rfl⟩ | ⟨_, _, rfl⟩
        · exact Campaign.abandon_sameScores true
        · rw [Campaign.enterTrimming_afl]
          exact .refl
      · rcases ending with ⟨_, rfl⟩ | ⟨_, _, rfl⟩ <;> simp
      · rintro newBits execUs execCksum trace rfl
        exact ⟨fuzz, here, rfl, rfl⟩
  | trimmed len trace =>
      obtain ⟨fuzz, here, rfl⟩ := Campaign.step_trimmed stepped
      have inQueue := sound.working fuzz (by rw [here]; rfl)
      exact .executed _ _ fuzz.entry trace ⟨fuzz, here, rfl, rfl⟩
        (Campaign.resize_sameScores len) rfl inQueue .refl rfl
  | trimEnd len trace =>
      obtain ⟨fuzz, _, rfl⟩ := Campaign.step_trimEnd stepped
      have trimmed := campaign.trimTo_sameScores (q := fuzz.entry) len trace
      rcases Campaign.endTrimming_cases settings campaign fuzz len trace with
        ⟨_, same⟩ | ⟨_, same⟩
      · rw [same]
        exact .quiet _ _ (trimmed.trans (Campaign.abandon_sameScores true))
          (Campaign.abandon_scored true)
      · rw [same]
        have marked : (campaign.trimTo fuzz.entry len trace).afl.SameScores
            ((campaign.trimTo fuzz.entry len trace).afl.modify fuzz.entry fun entry =>
              { entry with trimDone := true }) := .modify fuzz.entry rfl rfl
        exact .quiet _ _ (trimmed.trans marked) rfl
  | abandon completed =>
      obtain ⟨fuzz, _, rfl⟩ := Campaign.step_abandon stepped
      exact .quiet _ _ (Campaign.abandon_sameScores _) (Campaign.abandon_scored _)
  | restart schedule len trace =>
      obtain ⟨here, rfl⟩ := Campaign.step_restart stepped
      exact .restarted schedule len trace here

/-! ## What every campaign keeps -/

/-- What a restart makes of the records of the campaign. -/
theorem Campaign.Sound.loaded (sound : campaign.Sound settings) (schedule : Schedule)
    (len : Nat → UInt32) (trace : Nat → UInt8) :
    LoadedUpTo settings.toConfig len trace campaign.afl campaign.afl.queuedItems
      (campaign.restart settings schedule len trace).afl := by
  obtain ⟨surplus, refs, _⟩ := sound.refs
  exact fastResume_loaded settings.toConfig schedule len trace fun q _ => refs.mini q

theorem Campaign.Sound.refs_step {event : Event} (sound : campaign.Sound settings)
    (stepped : campaign.step settings event = some next) :
    ∃ surplus, next.afl.Refs settings.toConfig surplus ∧
      ∀ q, next.afl.queuedItems ≤ q → surplus q = 0 := by
  obtain ⟨surplus, refs, beyond⟩ := sound.refs
  cases Campaign.step_scores sound stepped with
  | quiet _ _ same scored =>
      exact ⟨surplus, refs.of_same same.toSameTops, fun q later => beyond q (same.items.trans later)⟩
  | executed _ _ q trace executes before same inQueue after scored =>
      have traced := before.trans (.withTrace (campaign.atScore q event).afl trace)
      have won := (refs.of_same traced.toSameTops).updateBitmapScore inQueue
      have marks : (campaign.atScore q event).afl.SameMarks
          ((campaign.atScore q event).score settings q trace).afl :=
        Campaign.score_sameMarks trace
      refine ⟨surplus, won.of_same after.toSameTops, fun q later => beyond q ?_⟩
      exact before.items.trans (marks.items ▸ after.items.trans later)
  | rescored _ idx here inQueue enabled afl scored =>
      have items : next.afl.queuedItems = campaign.afl.queuedItems := by
        rw [afl]
        exact (Afl.SameMarks.updateBitmapScore campaign.afl idx).items
      exact ⟨surplus, afl ▸ refs.updateBitmapScore inQueue, fun q later => beyond q (items ▸ later)⟩
  | culled _ _ culls afl scored =>
      have same := Afl.SameTops.cullQueue refs
      exact ⟨surplus, afl ▸ refs.of_same same, fun q later =>
        beyond q (same.items.trans (afl ▸ later))⟩
  | restarted schedule len trace here =>
      have loaded := sound.loaded schedule len trace
      refine ⟨_, loaded.refs, fun q later => if_neg ?_⟩
      rw [show (campaign.restart settings schedule len trace).afl.queuedItems =
        campaign.afl.queuedItems from loaded.items] at later
      exact Nat.not_lt.mpr later

theorem Campaign.step_items {event : Event} (sound : campaign.Sound settings)
    (stepped : campaign.step settings event = some next) :
    campaign.afl.queuedItems ≤ next.afl.queuedItems := by
  cases Campaign.step_scores sound stepped with
  | quiet _ _ same scored => exact same.items
  | executed _ _ q trace executes before same inQueue after scored =>
      have marks : (campaign.atScore q event).afl.SameMarks
          ((campaign.atScore q event).score settings q trace).afl :=
        Campaign.score_sameMarks trace
      exact before.items.trans (marks.items.symm.le.trans after.items)
  | rescored _ idx here inQueue enabled afl scored =>
      rw [afl]
      exact (Afl.SameMarks.updateBitmapScore campaign.afl idx).items.ge
  | culled _ _ culls afl scored =>
      obtain ⟨surplus, refs, _⟩ := sound.refs
      exact afl ▸ (Afl.SameTops.cullQueue refs).items
  | restarted schedule len trace here =>
      exact (sound.loaded schedule len trace).items.ge

/-- Only `advance` leaves the reading of seeds, with a queue that is not empty. -/
theorem Campaign.step_of_seeding {event : Event} (here : campaign.phase = .seeding)
    (stepped : campaign.step settings event = some next) :
    next.phase = .seeding ∨ 0 < campaign.afl.queuedItems := by
  cases event with
  | interrupt => exact Option.some.inj stepped ▸ .inl here
  | seed len =>
      obtain ⟨_, rfl⟩ := Campaign.step_seed stepped
      exact .inl here
  | advance =>
      cases Campaign.step_advance stepped with
      | seeded phase _ nonempty there => exact .inr (Nat.pos_of_ne_zero nonempty)
      | seedSkipped idx other inQueue => cases here.symm.trans other
      | seedsDone idx other done => cases here.symm.trans other
      | stopped other stop => cases here.symm.trans other
      | culled _ other going afl scored stop current there =>
          cases here.symm.trans other
      | imported other => cases here.symm.trans other
      | cycled _ other afl scored stop current there =>
          cases here.symm.trans other
      | passedOver idx other disabled => cases here.symm.trans other
      | rescored idx other inQueue enabled => cases here.symm.trans other
      | allRescored idx other done => cases here.symm.trans other
      | gaveUp fuzz other failed => cases here.symm.trans other
  | _ => simp [Campaign.step, here] at stepped

theorem Campaign.Sound.smallest_step {event : Event} (sound : campaign.Sound settings)
    (stepped : campaign.step settings event = some next) :
    next.afl.smallestFavored < max 1 next.afl.queuedItems := by
  have bound := sound.smallest
  have items := Campaign.step_items sound stepped
  obtain ⟨surplus, refs, _⟩ := sound.refs
  cases Campaign.step_marks stepped with
  | quiet _ _ same =>
      rw [same.smallest, same.items]
      exact bound
  | added _ _ len same =>
      have kept : next.afl.smallestFavored = campaign.afl.smallestFavored := same.smallest
      rw [kept]
      omega
  | judged _ _ _ _ after idx fault judged here inQueue enabled called judge going there same =>
      have kept := (Afl.SameFavored.judgeSeed judge).smallest
      rw [same.smallest, kept, Afl.SameMarks.labelSeed.smallest,
        (calibrateCase_sameMarks called).smallest]
      omega
  | deduplicated _ idx here done afl there =>
      have kept := (Afl.SameFavored.removeDuplicates campaign.afl).smallest
      rw [afl, kept]
      rw [afl] at items
      omega
  | culled _ _ here afl =>
      have owners : ∀ i < settings.mapSize, ∀ q, campaign.afl.topRated i = some q →
          q < campaign.afl.queuedItems := fun i _ q holds => (refs.inRange i q holds).2
      rw [afl] at items ⊢
      exact cullQueue_smallest settings.toConfig owners bound
  | abandoned _ _ fuzz middle here original before after =>
      have kept := before.smallest
      rw [after.smallest]
      rcases middle.markFuzzed_smallestFavored fuzz.entry campaign.stopSoon with same | cleared
      · rw [same, kept]
        omega
      · omega
  | restarted schedule len trace here =>
      have loaded := sound.loaded schedule len trace
      have zero : (campaign.restart settings schedule len trace).afl.smallestFavored = 0 :=
        loaded.smallest
      rw [zero]
      omega

theorem Campaign.Sound.mayPick (sound : campaign.Sound settings)
    (here : campaign.phase = .selecting) (picked : campaign.mayPick settings q = true) :
    q < campaign.afl.queuedItems := by
  have nonempty := sound.nonempty (by rw [here]; decide)
  have bound := sound.smallest
  unfold Campaign.mayPick at picked
  split at picked
  · exact sound.current q (by simpa using picked)
  · split at picked
    · have same : (q : Int) = campaign.afl.smallestFavored := by simpa using picked
      omega
    · simpa using picked

theorem Campaign.Sound.step {event : Event} (sound : campaign.Sound settings)
    (stepped : campaign.step settings event = some next) : next.Sound settings := by
  have items := Campaign.step_items sound stepped
  refine ⟨sound.refs_step stepped, fun _ => ?_, sound.smallest_step stepped, ?_, ?_⟩
  · by_cases here : campaign.phase = .seeding
    · rcases Campaign.step_of_seeding here stepped with _ | nonempty
      · contradiction
      · exact nonempty.trans_le items
    · exact (sound.nonempty here).trans_le items
  · intro q current
    rcases Campaign.step_focus stepped with ⟨schedule, len, trace, rfl⟩ | focus
    · obtain ⟨_, rfl⟩ := Campaign.step_restart stepped
      cases current
    · apply Nat.lt_of_lt_of_le _ items
      rcases focus.current q current with same | inside | ⟨rfl, here⟩ | ⟨here, picked⟩
      · exact sound.current q same
      · exact inside
      · exact sound.nonempty (by rw [here]; decide)
      · exact sound.mayPick here picked
  · intro fuzz working
    rcases Campaign.step_focus stepped with ⟨schedule, len, trace, rfl⟩ | focus
    · obtain ⟨_, rfl⟩ := Campaign.step_restart stepped
      cases working
    · apply Nat.lt_of_lt_of_le _ items
      rcases focus.working fuzz working with ⟨before, working, same⟩ | ⟨here, picked⟩
      · exact same ▸ sound.working before working
      · exact sound.mayPick here picked

theorem campaignMachine_sound (settings : Settings) (schedule : Schedule) :
    (campaignMachine settings schedule).initial.Sound settings := by
  refine ⟨⟨fun _ => 0, ⟨?_, ?_, ?_⟩, fun _ _ => rfl⟩, ?_, ?_, ?_, ?_⟩
  all_goals simp [campaignMachine, Afl.initial, QueueEntry.MiniKept, QueueEntry.fresh,
    Phase.fuzzOne]

theorem campaign_sound {schedule : Schedule} {final : Campaign}
    (reached : (campaignMachine settings schedule).Reachable final) : final.Sound settings := by
  apply (campaignMachine settings schedule).reachable_invariant (Campaign.Sound settings) _ _ reached
  · exact campaignMachine_sound settings schedule
  · exact fun state action next sound stepped => sound.step stepped

end

end SbFuzz.Fuzzer
