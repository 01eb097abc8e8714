import SbFuzz.Fuzzer.CampaignProgress

/-! Steps that keep the choice through `smallest_favored` useful, and what this
says about campaigns: a pick is an entry that `fuzz_one` takes, a completed call
counts it as fuzzed, and it is never picked this way again. -/

set_option autoImplicit false

namespace SbFuzz.Fuzzer

open SbFuzz.Systems

/-! ## The steps at risk -/

/-- Every entry that gets or keeps a byte is one that `fuzz_one` can finish with,
or has been fuzzed, and a resumed process can make a choice. -/
structure Campaign.KeepsProgress (settings : Settings) (campaign : Campaign) (event : Event) :
    Prop where
  culled : campaign.Culls event → ∀ i q, campaign.afl.topRated i = some q →
    campaign.afl.CullsOut settings.toConfig q → (campaign.afl.queueBuf q).wasFuzzed = true
  rescored : ∀ idx i, campaign.phase = .rescoring idx → campaign.Takes settings event idx i →
    (campaign.afl.queueBuf idx).wasFuzzed = true ∨
      (campaign.afl.queueBuf idx).calFailed = 0 ∧ (campaign.afl.queueBuf idx).fuzzLevel = 0
  executed : ∀ fuzz i, campaign.phase.fuzzOne = some fuzz → fuzz.engine = .original →
    campaign.Takes settings event fuzz.entry i →
    (campaign.afl.queueBuf fuzz.entry).wasFuzzed = true ∨
      (campaign.afl.queueBuf fuzz.entry).disabled = false
  worked : ∀ fuzz completed, event = .abandon completed → campaign.phase = .executing fuzz →
    fuzz.engine = .mopt → campaign.stopSoon = false →
    (campaign.afl.queueBuf fuzz.entry).wasFuzzed = true ∨
      (∀ i, campaign.afl.topRated i ≠ some fuzz.entry) ∧
      ¬ (campaign.afl.pendingFavored ≠ 0 ∧ campaign.afl.smallestFavored = fuzz.entry)
  calibrated : ∀ fuzz execUs execCksum trace i,
    event = .calibrate (.completed false execUs execCksum trace) →
    campaign.phase = .calibrating fuzz → fuzz.engine = .mopt → campaign.stopSoon = false →
    settings.expected = .ok → settings.nonInstrumentedMode = false →
    campaign.Takes settings event fuzz.entry i →
    (campaign.afl.queueBuf fuzz.entry).wasFuzzed = true
  resumed : ∀ schedule len trace, event = .restart schedule len trace →
    (∀ i q, (campaign.restart settings schedule len trace).afl.topRated i = some q →
      (campaign.afl.queueBuf q).Good) ∧
    (settings.nonInstrumentedMode = false ∧ (∃ i < settings.mapSize, trace i ≠ 0) ∨
      (∀ q < campaign.afl.queuedItems, (campaign.afl.queueBuf q).favored = true →
        (campaign.afl.queueBuf q).wasFuzzed = true) ∨
      (campaign.afl.queueBuf 0).Fit)

/-! ## Culling -/

section

variable {config : Config} {afl : Afl} {q : Nat}
  (owners : ∀ i < config.mapSize, ∀ q, afl.topRated i = some q → q < afl.queuedItems)

include owners

/-- `cull_queue` leaves alone what `fuzz_one` asks of an entry, but for the
entries that it disables. -/
theorem cullQueue_ready (inQueue : q < afl.queuedItems) (kept : ¬ afl.CullsOut config q)
    (ready : (afl.queueBuf q).Ready) : ((cullQueue config afl).queueBuf q).Ready := by
  have enabled : ((cullQueue config afl).queueBuf q).disabled = false := by
    by_contra disabled
    rcases (cullQueue_disabled owners inQueue).mp (by simpa using disabled) with before | out
    · cases ready.1.symm.trans before
    · exact kept out
  refine ⟨enabled, ?_⟩
  cases changed : afl.scoreChanged with
  | false =>
      rw [cullQueue_of_unchanged config afl changed]
      exact ready.2
  | true =>
      cases plain : config.nonInstrumentedMode with
      | true =>
          rw [cullQueue_of_nonInstrumented config afl plain]
          exact ready.2
      | false =>
          rw [cullQueue_entry changed plain owners inQueue, QueueEntry.culled_calFailed,
            QueueEntry.culled_fuzzLevel]
          exact ready.2

theorem cullQueue_good (inQueue : q < afl.queuedItems)
    (kept : afl.CullsOut config q → (afl.queueBuf q).wasFuzzed = true)
    (good : (afl.queueBuf q).Good) : ((cullQueue config afl).queueBuf q).Good := by
  have fuzzed : (afl.queueBuf q).wasFuzzed = true → ((cullQueue config afl).queueBuf q).Good :=
    fun seen => .inl ((cullQueue_wasFuzzed owners q).trans seen)
  rcases good with seen | ready
  · exact fuzzed seen
  · by_cases out : afl.CullsOut config q
    · exact fuzzed (kept out)
    · exact .inr (cullQueue_ready owners inQueue out ready)

/-- What is chosen among entries that hold bytes can be fuzzed. -/
theorem cullQueue_picksFit (good : ∀ i q, afl.topRated i = some q → (afl.queueBuf q).Good)
    (picks : (afl.scoreChanged = true → config.nonInstrumentedMode = true) → afl.PicksFit) :
    (cullQueue config afl).PicksFit := by
  cases changed : afl.scoreChanged with
  | false =>
      rw [cullQueue_of_unchanged config afl changed]
      exact picks fun other => by cases changed.symm.trans other
  | true =>
      cases plain : config.nonInstrumentedMode with
      | true =>
          rw [cullQueue_of_nonInstrumented config afl plain]
          exact picks fun _ => plain
      | false =>
          intro pending chosen
          have items := cullQueue_queuedItems config afl owners
          rcases (cullQueue_tallied changed plain owners).2 with
            ⟨none, _⟩ | ⟨q, inside, number, favored, unseen⟩
          · omega
          · have inQueue : q < afl.queuedItems := items ▸ inside
            have marked := favored
            rw [cullQueue_entry changed plain owners inQueue, QueueEntry.culled_favored] at marked
            have isChosen : afl.Chosen config q = true := marked
            obtain ⟨i, _, holds⟩ := (afl.coverBytes_covers config owners).earned q inQueue isChosen
            have kept : ¬ afl.CullsOut config q := fun out =>
              Bool.noConfusion (isChosen.symm.trans out.2.2.2.2.2)
            refine ⟨q, inside, number, favored, unseen, ?_⟩
            rcases good i q holds with seen | ready
            · have after := (cullQueue_wasFuzzed owners q).trans seen
              cases unseen.symm.trans after
            · exact cullQueue_ready owners inQueue kept ready

end

section

variable {settings : Settings} {campaign next : Campaign} {event : Event}

/-- No entry is worked on and the process goes on. -/
structure Phase.Idle (phase : Phase) : Prop where
  inside : phase.inside = none
  calibrating : ∀ fuzz, phase ≠ .calibrating fuzz
  seeds : phase.ofSeeds = false
  starting : phase ≠ .starting

theorem Campaign.Culls.idle (culls : campaign.Culls event)
    (stepped : campaign.step settings event = some next) : next.phase.Idle := by
  cases event with
  | launch seekTo =>
      obtain ⟨_, launched⟩ := Campaign.step_launch stepped
      rw [(Campaign.launch_cases launched).2.2.2.2]
      split
      · exact ⟨rfl, nofun, rfl, nofun⟩
      · exact ⟨rfl, nofun, rfl, nofun⟩
  | advance =>
      have here := culls.1
      cases Campaign.step_advance stepped with
      | stopped _ stop => cases culls.2.symm.trans stop
      | culled _ _ going afl scored stop current there =>
          rcases there with there | there
          · rw [there]
            exact ⟨rfl, nofun, rfl, nofun⟩
          · rw [there]
            exact ⟨rfl, nofun, rfl, nofun⟩
      | seeded _ other | seedSkipped _ other | seedsDone _ other | imported other
        | cycled _ other | passedOver _ other | rescored _ other | allRescored _ other
        | gaveUp _ other => cases here.symm.trans other
  | _ => cases culls

theorem Campaign.Progress.cull (progress : campaign.Progress settings)
    (sound : campaign.Sound settings) (keeps : campaign.KeepsProgress settings event)
    (culls : campaign.Culls event) (stepped : campaign.step settings event = some next) :
    next.Progress settings := by
  obtain ⟨surplus, refs, _⟩ := sound.refs
  have owners : ∀ i < settings.mapSize, ∀ q, campaign.afl.topRated i = some q →
      q < campaign.afl.queuedItems := fun i _ q holds => (refs.inRange i q holds).2
  have afl := Campaign.step_of_culls culls stepped
  have idle := culls.idle stepped
  have notLate : ¬ campaign.Late := by
    rintro ⟨stop, late⟩
    cases event with
    | launch seekTo =>
        have here : campaign.phase = .starting := culls
        rw [here] at late
        cases late
    | advance => cases culls.2.symm.trans stop
    | _ => cases culls
  have good : ∀ i q, campaign.afl.topRated i = some q → (campaign.afl.queueBuf q).Good := by
    intro i q holds
    rcases progress.owners notLate i q holds with good | ⟨fuzz, working, _⟩
    · exact good
    · rcases culls.phase with here | here
      · rw [here] at working
        cases working
      · rw [here] at working
        cases working
  refine ⟨fun fuzz working => ?_, fun fuzz there => absurd there (idle.calibrating fuzz),
    fun there => ?_, fun _ i q holds => ?_, fun _ _ => ?_⟩
  · cases idle.inside.symm.trans working
  · cases idle.seeds.symm.trans there
  · rw [afl] at holds ⊢
    rw [(Afl.SameTops.cullQueue refs).tops] at holds
    exact .inl (cullQueue_good owners (refs.inRange i q holds).2 (keeps.culled culls i q holds)
      (good i q holds))
  · rw [afl]
    exact cullQueue_picksFit owners good fun waits => progress.picks notLate fun _ => waits

/-! ## Seeds -/

theorem Campaign.Tallies.nothing_pending (tallies : campaign.Tallies)
    (here : campaign.phase.ofSeeds = true) : campaign.afl.pendingFavored = 0 := by
  rw [tallies.tallied.pending]
  exact Nat.count_of_forall_not fun q inQueue => by simp [tallies.seeds here q inQueue]

/-- As long as seeds are tried out there is no choice to make. -/
theorem Campaign.Tallies.picksFit (tallies : campaign.Tallies)
    (here : campaign.phase.ofSeeds = true)
    (stepped : campaign.step settings event = some next) : next.afl.PicksFit := by
  have none := tallies.nothing_pending here
  have same : next.afl.pendingFavored = campaign.afl.pendingFavored := by
    cases Campaign.step_marks stepped with
    | quiet _ _ same => exact same.pending
    | added _ _ len same => exact same.pending
    | judged _ _ _ _ after idx fault judged _ inQueue enabled called judge going there same =>
        have tried := (calibrateCase_sameMarks called).trans (Afl.SameMarks.labelSeed (q := idx))
        exact ((tried.sameFavored.trans (.judgeSeed judge)).trans same.sameFavored).pending
    | deduplicated _ idx _ done afl there =>
        rw [afl]
        exact (Afl.SameFavored.removeDuplicates campaign.afl).pending
    | culled _ _ culls afl => exact absurd culls (Campaign.not_culls_of_seeds here)
    | abandoned _ _ fuzz middle working original before after =>
        cases phase : campaign.phase with
        | seeding | dryRun idx =>
            rw [phase] at working
            cases working
        | _ =>
            rw [phase] at here
            cases here
    | restarted schedule len trace stopped =>
        rw [stopped] at here
        cases here
  intro pending
  exact absurd (same.trans none) pending

theorem removeDuplicates_good {afl : Afl} {q : Nat} (good : (afl.queueBuf q).Good) :
    ((removeDuplicates afl).queueBuf q).Good := by
  apply removeDuplicates_induction (P := fun state => (state.queueBuf q).Good) _ good
  intro state r _ _ kept
  rw [Afl.retire_disable_queueBuf]
  split
  · exact .inl rfl
  · exact kept

theorem judgeSeed_fuzzLevel {afl judged : Afl} {q r : Nat} {newCrashBits : Bool} {fault : Fault}
    (judge : judgeSeed settings afl q newCrashBits fault = some judged) :
    (judged.queueBuf r).fuzzLevel = (afl.queueBuf r).fuzzLevel := by
  apply judgeSeed_induction (P := fun state =>
    (state.queueBuf r).fuzzLevel = (afl.queueBuf r).fuzzLevel) judge rfl
  · intro state same
    rw [Afl.modify_queueBuf]
    split
    · next here => exact here ▸ same
    · exact same
  · intro state same
    rw [Afl.retire_queueBuf]
    split
    · next here => exact here ▸ same
    · exact same
  · intro state same
    rw [Afl.disable_queueBuf]
    split
    · next here => exact here ▸ same
    · exact same

section

variable (progress : campaign.Progress settings) (tallies : campaign.Tallies)

include progress tallies

/-- The seed that is tried out can be fuzzed if it got a byte. -/
theorem Campaign.Progress.dryRun {calibration : Calibration} {newCrashBits : Bool}
    {traceAfter : Nat → UInt8} (sound : campaign.Sound settings)
    (stepped : campaign.step settings (.dryRun calibration newCrashBits traceAfter) = some next) :
    next.Progress settings := by
  obtain ⟨surplus, refs, _⟩ := sound.refs
  obtain ⟨idx, here, inQueue, enabled, ran⟩ := Campaign.step_dryRun stepped
  obtain ⟨after, fault, called, ending⟩ := Campaign.dryRunSeed_cases ran
  obtain ⟨others, level, marks, failed⟩ := calibrateCase_status called inQueue
  have seeds : campaign.phase.ofSeeds = true := by rw [here]; rfl
  have notLate : ¬ campaign.Late := fun late => by
    have isLate := late.2
    rw [here] at isLate
    cases isLate
  have labeled : after.afl.SameStatus (after.afl.labelSeed idx) := .labelSeed
  have tried := others.trans (labeled.others idx)
  have itemsAfter : idx < after.afl.queuedItems := inQueue.trans_le others.items
  -- what the verdict leaves of the other seeds and of a seed that was calibrated
  have verdict : (∀ r, r ≠ idx →
        (next.afl.queueBuf r).status = ((after.afl.labelSeed idx).queueBuf r).status) ∧
      (∀ r, (next.afl.queueBuf r).fuzzLevel = ((after.afl.labelSeed idx).queueBuf r).fuzzLevel) ∧
      ((fault = .nobits ∧ settings.expected = .ok ∨ fault = settings.expected) →
        (next.afl.queueBuf idx).status = ((after.afl.labelSeed idx).queueBuf idx).status) ∧
      (next.phase = .starting ∨ next.phase = .dryRun (idx + 1)) := by
    rcases ending with rfl | ⟨judged, judge, _, rfl⟩
    · exact ⟨fun _ _ => rfl, fun _ => rfl, fun _ => rfl, .inl rfl⟩
    · refine ⟨fun r other => ?_, fun r => ?_, fun went => ?_, .inr rfl⟩
      · have same := judgeSeed_queueBuf_of_ne judge other
        exact congrArg QueueEntry.status same
      · have level := judgeSeed_fuzzLevel (r := r) judge
        exact level
      · simp only [judgeSeed_of_calibrated judge went]
  obtain ⟨untouched, levels, calibrated, there⟩ := verdict
  have outside : ∀ fuzz, next.phase ≠ .calibrating fuzz ∧ next.phase.inside ≠ some fuzz := by
    intro fuzz
    rcases there with there | there
    · rw [there]
      exact ⟨nofun, nofun⟩
    · rw [there]
      exact ⟨nofun, nofun⟩
  refine ⟨fun fuzz working => absurd working (outside fuzz).2,
    fun fuzz now => absurd now (outside fuzz).1, fun _ q inside => ?_, fun _ i q holds => ?_,
    fun _ _ => tallies.picksFit seeds stepped⟩
  · have same : next.afl.queuedItems = campaign.afl.queuedItems := by
      have tried := (calibrateCase_sameMarks called).trans (Afl.SameMarks.labelSeed (q := idx))
      rcases ending with rfl | ⟨judged, judge, _, rfl⟩
      · exact tried.items
      · exact (tried.sameFavored.trans (.judgeSeed judge)).items
    rw [levels q]
    by_cases this : q = idx
    · subst this
      have kept := congrArg Status.fuzzLevel (labeled.status q itemsAfter)
      exact kept.trans (level.trans (progress.fresh seeds q inQueue))
    · have kept := congrArg Status.fuzzLevel (tried.status q (same ▸ inside) this)
      exact kept.trans (progress.fresh seeds q (same ▸ inside))
  · left
    rcases Campaign.step_topRated sound stepped rfl holds with old | takes
    · have earlier := tallies.order idx (by rw [here]; rfl) i q old
      have this : q ≠ idx := Nat.ne_of_lt earlier
      rcases progress.owners notLate i q old with good | ⟨fuzz, working, _⟩
      · apply good.of_same
        rw [untouched q this, tried.status q (refs.inRange i q old).2 this]
      · rw [here] at working
        cases working
    · rcases takes.2 with ⟨trace, executes, _⟩ | ⟨never, _⟩
      · cases calibration with
        | aborted _ _ _ => cases executes
        | completed newBits execUs execCksum given =>
            obtain rfl := Phase.dryRun.inj (here.symm.trans executes.1)
            have went : fault = .nobits ∧ settings.expected = .ok ∨ fault = settings.expected := by
              rcases calibrateCase_cases called with ⟨_, _, never, _⟩ | ⟨_, _, _, _, _, went, _⟩
              · cases never
              · exact went
            have status := (calibrated went).trans (labeled.status idx itemsAfter)
            have zero : (after.afl.queueBuf idx).calFailed = 0 := by
              rcases failed with ⟨_, _, never, _⟩ | ⟨_, _, _, _, _, zero⟩
              · cases never
              · exact zero
            have ready : (after.afl.queueBuf idx).Ready :=
              ⟨(congrArg Marks.disabled marks).trans enabled, zero,
                level.trans (progress.fresh seeds idx inQueue)⟩
            exact .inr (ready.of_same status)
      · cases never

/-- Duplicates among the seeds count as fuzzed. -/
theorem Campaign.Progress.deduplicate {idx : Nat} (here : campaign.phase = .dryRun idx)
    (stepped : campaign.step settings .advance = some next)
    (is : next = { campaign with afl := removeDuplicates campaign.afl, phase := .starting }) :
    next.Progress settings := by
  have seeds : campaign.phase.ofSeeds = true := by rw [here]; rfl
  have picks := tallies.picksFit seeds stepped
  subst is
  refine ⟨nofun, nofun, nofun, fun _ i q holds => .inl ?_, fun _ _ => picks⟩
  have old : campaign.afl.topRated i = some q := Afl.SameScores.removeDuplicates.tops ▸ holds
  have notLate : ¬ campaign.Late := fun late => by
    have isLate := late.2
    rw [here] at isLate
    cases isLate
  rcases progress.owners notLate i q old with good | ⟨fuzz, working, _⟩
  · exact removeDuplicates_good good
  · rw [here] at working
    cases working

end

/-! ## Resuming -/

theorem LoadedUpTo.status {config : Config} {len : Nat → UInt32} {trace : Nat → UInt8}
    {shutdown state : Afl} {k q : Nat} (loaded : LoadedUpTo config len trace shutdown k state)
    (earlier : q < k) : (state.queueBuf q).status = (shutdown.queueBuf q).status := by
  have kept : ∀ entry : QueueEntry, entry.unscored.status = entry.status := fun _ => rfl
  rw [← kept, loaded.loaded q earlier]
  rfl

theorem Campaign.Progress.resume {schedule : Schedule} {len : Nat → UInt32} {trace : Nat → UInt8}
    (sound : campaign.Sound settings)
    (keeps : campaign.KeepsProgress settings (.restart schedule len trace))
    (stepped : campaign.step settings (.restart schedule len trace) = some next) :
    next.Progress settings := by
  obtain ⟨_, refsAfter, _⟩ := (sound.step stepped).refs
  obtain ⟨here, rfl⟩ := Campaign.step_restart stepped
  obtain ⟨owners, choice⟩ := keeps.resumed schedule len trace rfl
  have nonempty : 0 < campaign.afl.queuedItems := sound.nonempty (by rw [here]; nofun)
  have loaded := sound.loaded schedule len trace
  refine ⟨nofun, nofun, nofun, fun _ i q holds => .inl ?_, fun _ waits pending chosen => ?_⟩
  · have earlier : q < campaign.afl.queuedItems := loaded.items ▸ (refsAfter.inRange i q holds).2
    exact (owners i q holds).of_same (loaded.status earlier)
  · rcases choice with ⟨instrumented, i, inMap, touched⟩ | fuzzed | fit
    · have taken := (loaded.held i).mpr ⟨nonempty, inMap, touched⟩
      cases changed : (campaign.restart settings schedule len trace).afl.scoreChanged with
      | false => exact absurd (loaded.quiet changed i) taken
      | true => cases instrumented.symm.trans (waits rfl changed)
    · have none : (campaign.restart settings schedule len trace).afl.pendingFavored = 0 := by
        refine loaded.pendingFavored.trans (Nat.count_of_forall_not fun q inQueue both => ?_)
        cases both.2.symm.trans (fuzzed q inQueue both.1)
      exact absurd none pending
    · have inside : 0 < (campaign.restart settings schedule len trace).afl.queuedItems :=
        nonempty.trans_eq loaded.items.symm
      exact ⟨0, inside, loaded.smallest, fit.of_same (loaded.status nonempty)⟩

/-! ## Calibrating again -/

section

variable {fuzz : FuzzOne}

theorem calibrateCase_nobits {after : Campaign} {q : Nat} {newBits : Bool}
    {execUs execCksum : UInt64} {trace : Nat → UInt8} {fault : Fault}
    (called : calibrateCase settings campaign q (.completed newBits execUs execCksum trace) =
      some (after, fault)) (other : fault ≠ settings.expected) :
    newBits = false ∧ settings.expected = .ok ∧ settings.nonInstrumentedMode = false := by
  simp only [calibrateCase] at called
  obtain ⟨_, rfl⟩ := Prod.mk.inj (Option.some.inj called)
  split at other
  · next silent => exact ⟨by simpa using silent.2.2.2, silent.2.2.1, by simpa using silent.1⟩
  · exact absurd rfl other

theorem Afl.PicksFit.of_others {before after : Afl} {q : Nat} (same : before.SameOthers q after)
    (unfit : ¬ (before.queueBuf q).Fit) (picks : before.PicksFit) : after.PicksFit := by
  intro pending chosen
  rw [same.pending] at pending
  rw [same.smallest] at chosen ⊢
  obtain ⟨r, inQueue, number, fit⟩ := picks pending chosen
  have other : r ≠ q := by
    rintro rfl
    exact unfit fit
  exact ⟨r, inQueue.trans_le same.items, number, fit.of_same (same.status r inQueue other)⟩

/-- A calibration inside `fuzz_one` gives bytes to the entry that is fuzzed only. -/
theorem Campaign.topRated_of_other {calibration : Calibration} (sound : campaign.Sound settings)
    (stepped : campaign.step settings (.calibrate calibration) = some next)
    (here : campaign.phase = .calibrating fuzz) {i q : Nat} (other : q ≠ fuzz.entry)
    (holds : next.afl.topRated i = some q) : campaign.afl.topRated i = some q := by
  rcases Campaign.step_topRated sound stepped rfl holds with old | takes
  · exact old
  · rcases takes.2 with ⟨trace, executes, _⟩ | ⟨never, _⟩
    · cases calibration with
      | aborted _ _ _ => cases executes
      | completed _ _ _ _ =>
          obtain ⟨scored, there, is, _⟩ := executes
          obtain rfl := Phase.calibrating.inj (here.symm.trans there)
          exact absurd is.symm other
    · cases never

/-- The entry went through its calibration, so it is worked on. -/
theorem Campaign.Progress.recalibrated (progress : campaign.Progress settings)
    (sound : campaign.Sound settings) {calibration : Calibration}
    (keeps : campaign.KeepsProgress settings (.calibrate calibration))
    (stepped : campaign.step settings (.calibrate calibration) = some next)
    (here : campaign.phase = .calibrating fuzz) {after : Campaign}
    (called : calibrateCase settings (campaign.clearCksum fuzz.entry) fuzz.entry calibration =
      some (after, settings.expected))
    (going : after.stopSoon = false) (is : next = after.enterTrimming settings fuzz) :
    next.Progress settings := by
  obtain ⟨surplus, refs, _⟩ := sound.refs
  have working : campaign.phase.fuzzOne = some fuzz := by rw [here]; rfl
  have inQueue := sound.working fuzz working
  have afl : next.afl = after.afl := by rw [is, Campaign.enterTrimming_afl]
  obtain ⟨others, level, marks, failed⟩ := calibrateCase_status called inQueue
  have cleared : campaign.afl.SameStatus (campaign.clearCksum fuzz.entry).afl :=
    Campaign.clearCksum_sameStatus
  have others := (cleared.others fuzz.entry).trans others
  have marks : (after.afl.queueBuf fuzz.entry).marks = (campaign.afl.queueBuf fuzz.entry).marks :=
    marks.trans (congrArg Status.marks (cleared.status fuzz.entry inQueue))
  have zero : (after.afl.queueBuf fuzz.entry).calFailed = 0 := by
    rcases failed with ⟨execCksum, trace, rfl, _⟩ | ⟨_, _, _, _, _, zero⟩
    · rcases calibrateCase_cases called with ⟨_, _, _, stops, _⟩ | ⟨_, _, _, _, never, _⟩
      · have same := calibrateCase_stopSoon called
        exact absurd (stops.resolve_right (not_not.mpr rfl)) (by simp [← same, going])
      · cases never
    · exact zero
  have nonzero := progress.calibrating fuzz here
  have inside : next.phase.inside = some fuzz := by
    rw [is]
    rcases after.enterTrimming_phase settings fuzz with there | there
    · rw [there]
      rfl
    · rw [there]
      rfl
  have late : ¬ next.Late → ¬ campaign.Late :=
    fun notLate isLate => notLate (Campaign.step_late isLate stepped rfl)
  refine ⟨fun other worked => ?_, fun other there => ?_, fun there => ?_,
    fun notLate i q holds => ?_, fun notLate _ => ?_⟩
  · obtain rfl := Option.some.inj (inside.symm.trans worked)
    rw [afl]
    exact zero
  · rw [there] at inside
    cases inside
  · rw [is, Campaign.enterTrimming_ofSeeds] at there
    cases there
  · by_cases this : q = fuzz.entry
    · subst this
      have seen : (campaign.afl.queueBuf fuzz.entry).wasFuzzed = true →
          (next.afl.queueBuf fuzz.entry).Good := fun fuzzed =>
        .inl (afl ▸ (congrArg Marks.wasFuzzed marks).trans fuzzed)
      rcases Campaign.step_topRated sound stepped rfl holds with old | takes
      · rcases progress.owners (late notLate) i fuzz.entry old with good | ⟨other, inner, _⟩
        · exact .inl (seen (good.resolve_right fun ready => nonzero ready.2.1))
        · rw [here] at inner
          cases inner
      · cases engine : fuzz.engine with
        | original =>
            rcases keeps.executed fuzz i working engine takes with fuzzed | enabled
            · exact .inl (seen fuzzed)
            · refine .inr ⟨fuzz, inside, rfl, fun _ => ?_⟩
              rw [afl]
              exact (congrArg Marks.disabled marks).trans enabled
        | mopt =>
            refine .inr ⟨fuzz, inside, rfl, fun original => ?_⟩
            cases engine.symm.trans original
    · have old := Campaign.topRated_of_other sound stepped here this holds
      rcases progress.owners (late notLate) i q old with good | ⟨other, inner, _⟩
      · rw [afl]
        exact .inl (good.of_same (others.status q (refs.inRange i q old).2 this))
      · rw [here] at inner
        cases inner
  · rw [afl]
    refine (progress.picks (late notLate) fun starting => ?_).of_others others
      fun fit => nonzero fit.2.2.2.1
    cases here.symm.trans starting

/-! ## Calls that end -/

section

variable (progress : campaign.Progress settings)

include progress

/-- An entry that is calibrated again is no choice, and holds no byte unless it
has been fuzzed. -/
theorem Campaign.Progress.calibrating_entry (here : campaign.phase = .calibrating fuzz)
    (going : campaign.stopSoon = false) :
    (∀ i, campaign.afl.topRated i = some fuzz.entry →
      (campaign.afl.queueBuf fuzz.entry).wasFuzzed = true) ∧
    ¬ (campaign.afl.queueBuf fuzz.entry).Fit ∧
    ¬ (campaign.afl.pendingFavored ≠ 0 ∧ campaign.afl.smallestFavored = fuzz.entry) := by
  have notLate : ¬ campaign.Late := fun late => by cases late.1.symm.trans going
  have nonzero := progress.calibrating fuzz here
  refine ⟨fun i holds => ?_, fun fit => nonzero fit.2.2.2.1, fun ⟨pending, chosen⟩ => ?_⟩
  · rcases progress.owners notLate i fuzz.entry holds with good | ⟨other, inner, _⟩
    · exact good.resolve_right fun ready => nonzero ready.2.1
    · rw [here] at inner
      cases inner
  · have picks := progress.picks notLate fun starting => by cases here.symm.trans starting
    obtain ⟨q, _, number, fit⟩ := picks pending (chosen ▸ Int.natCast_nonneg _)
    obtain rfl : fuzz.entry = q := Int.ofNat.inj (chosen.symm.trans number)
    exact nonzero fit.2.2.2.1

theorem Campaign.Progress.gaveUp (here : campaign.phase = .calibrating fuzz) :
    campaign.Leaves campaign fuzz := by
  refine ⟨by rw [here]; rfl, rfl, Afl.SameStatus.refl.others fuzz.entry, rfl,
    fun _ _ _ holds => holds, fun _ going must => .inl ?_, fun _ going => ?_⟩
  · obtain ⟨held, unfit, _⟩ := progress.calibrating_entry here going
    obtain ⟨i, holds⟩ := must.resolve_right unfit
    exact held i holds
  · obtain ⟨held, _, other⟩ := progress.calibrating_entry here going
    cases fuzzed : (campaign.afl.queueBuf fuzz.entry).wasFuzzed with
    | true => exact .inl rfl
    | false =>
        exact .inr ⟨fun i holds => Bool.false_ne_true (fuzzed.symm.trans (held i holds)), other⟩

theorem Campaign.Progress.abandoned {completed : Bool}
    (keeps : campaign.KeepsProgress settings (.abandon completed))
    (here : campaign.phase = .executing fuzz) : campaign.Leaves campaign fuzz := by
  have inside : campaign.phase.inside = some fuzz := by rw [here]; rfl
  refine ⟨by rw [here]; rfl, rfl, Afl.SameStatus.refl.others fuzz.entry, rfl,
    fun _ _ _ holds => holds, fun original going must => ?_,
    fun mopt going => keeps.worked fuzz completed rfl here mopt going⟩
  have notLate : ¬ campaign.Late := fun late => by cases late.1.symm.trans going
  have zero := progress.inside fuzz inside
  rcases must with ⟨i, holds⟩ | fit
  · rcases progress.owners notLate i fuzz.entry holds with
      (seen | ready) | ⟨other, inner, _, enabled⟩
    · exact .inl seen
    · exact .inr ⟨zero, ready.1⟩
    · obtain rfl := Option.some.inj (inside.symm.trans inner)
      exact .inr ⟨zero, enabled original⟩
  · exact .inr ⟨zero, fit.2.2.1⟩

omit progress in
theorem Campaign.trimEnd_leaves (sound : campaign.Sound settings) (len : UInt32)
    (trace : Nat → UInt8) (here : campaign.phase = .trimming fuzz)
    (stop : campaign.stopSoon = true) :
    campaign.Leaves (campaign.trimTo fuzz.entry len trace) fuzz := by
  have working : campaign.phase.fuzzOne = some fuzz := by rw [here]; rfl
  have same : campaign.afl.SameStatus (campaign.trimTo fuzz.entry len trace).afl :=
    Campaign.trimTo_sameStatus len trace
  refine ⟨working, rfl, same.others fuzz.entry,
    congrArg Status.marks (same.status fuzz.entry (sound.working fuzz working)),
    fun _ _ _ holds => holds, fun _ going => ?_, fun _ going => ?_⟩
  · cases stop.symm.trans going
  · cases stop.symm.trans going

/-- The calibration failed, or went through without new bits. -/
theorem Campaign.Progress.failed {calibration : Calibration} (sound : campaign.Sound settings)
    (keeps : campaign.KeepsProgress settings (.calibrate calibration))
    (stepped : campaign.step settings (.calibrate calibration) = some next)
    (here : campaign.phase = .calibrating fuzz) {after : Campaign} {fault : Fault}
    (called : calibrateCase settings (campaign.clearCksum fuzz.entry) fuzz.entry calibration =
      some (after, fault))
    (ending : after.stopSoon = true ∨ fault ≠ settings.expected)
    (is : next = after.abandon settings fuzz true) : campaign.Leaves after fuzz := by
  have working : campaign.phase.fuzzOne = some fuzz := by rw [here]; rfl
  have inQueue := sound.working fuzz working
  have stop : after.stopSoon = (campaign.clearCksum fuzz.entry).stopSoon :=
    calibrateCase_stopSoon called
  have stop : after.stopSoon = campaign.stopSoon := stop
  obtain ⟨others, _, marks, failed⟩ := calibrateCase_status called inQueue
  have cleared : campaign.afl.SameStatus (campaign.clearCksum fuzz.entry).afl :=
    Campaign.clearCksum_sameStatus
  have marks : (after.afl.queueBuf fuzz.entry).marks = (campaign.afl.queueBuf fuzz.entry).marks :=
    marks.trans (congrArg Status.marks (cleared.status fuzz.entry inQueue))
  have tops : after.afl.topRated = next.afl.topRated := by
    rw [is]
    exact (Campaign.abandon_sameScores true).tops.symm
  have fuzzed : (campaign.afl.queueBuf fuzz.entry).wasFuzzed = true →
      (after.afl.queueBuf fuzz.entry).wasFuzzed = true :=
    fun seen => (congrArg Marks.wasFuzzed marks).trans seen
  refine ⟨working, stop, (cleared.others fuzz.entry).trans others, marks,
    fun i q other holds => ?_, fun original going must => ?_, fun mopt going => ?_⟩
  · rw [tops] at holds
    exact Campaign.topRated_of_other sound stepped here other holds
  · obtain ⟨held, unfit, _⟩ := progress.calibrating_entry here going
    obtain ⟨i, holds⟩ := must.resolve_right unfit
    rw [tops] at holds
    rcases Campaign.step_topRated sound stepped rfl holds with old | takes
    · exact .inl (fuzzed (held i old))
    · rcases keeps.executed fuzz i working original takes with seen | enabled
      · exact .inl (fuzzed seen)
      · refine .inr ⟨?_, (congrArg Marks.disabled marks).trans enabled⟩
        rcases failed with ⟨_, _, rfl, _⟩ | ⟨_, _, _, _, _, zero⟩
        · rcases takes.2 with ⟨_, never, _⟩ | ⟨never, _⟩
          · cases never
          · cases never
        · exact zero
  · obtain ⟨held, _, other⟩ := progress.calibrating_entry here going
    cases seen : (campaign.afl.queueBuf fuzz.entry).wasFuzzed with
    | true => exact .inl rfl
    | false =>
        refine .inr ⟨fun i holds => ?_, other⟩
        rw [tops] at holds
        rcases Campaign.step_topRated sound stepped rfl holds with old | takes
        · cases seen.symm.trans (held i old)
        · cases calibration with
          | aborted _ _ _ =>
              rcases takes.2 with ⟨_, never, _⟩ | ⟨never, _⟩
              · cases never
              · cases never
          | completed newBits execUs execCksum trace =>
              have unexpected : fault ≠ settings.expected :=
                ending.resolve_left (by simp [stop, going])
              obtain ⟨rfl, expected, instrumented⟩ := calibrateCase_nobits called unexpected
              have must := keeps.calibrated fuzz execUs execCksum trace i rfl here mopt going
                expected instrumented takes
              cases seen.symm.trans must

end

end

/-! ## All steps -/

/-- A finding is added behind the entries that are there. -/
theorem Campaign.find_sameStatus {finding : Finding} {after : Campaign} {fault : Fault}
    (called : calibrateCase settings (campaign.addFinding finding) campaign.afl.queuedItems
      finding.calibration = some (after, fault)) :
    campaign.afl.SameStatus { after.afl with traceBits := finding.traceAfter } ∧
      after.phase = campaign.phase := by
  have added : campaign.afl.SameStatus (campaign.addFinding finding).afl :=
    Campaign.addFinding_sameStatus finding
  have inside : campaign.afl.queuedItems < (campaign.addFinding finding).afl.queuedItems :=
    Nat.lt_succ_self _
  have phase : after.phase = (campaign.addFinding finding).phase := calibrateCase_phase called
  have others := (added.others campaign.afl.queuedItems).trans (calibrateCase_status called inside).1
  exact ⟨⟨others.items, others.pending, others.smallest, fun q inQueue =>
    others.status q inQueue (Nat.ne_of_lt inQueue)⟩, phase⟩

section

variable (progress : campaign.Progress settings) (sound : campaign.Sound settings)

include progress sound

/-- A step that does not work on entries. -/
theorem Campaign.Progress.move (same : campaign.afl.SameStatus next.afl)
    (tops : next.afl.topRated = campaign.afl.topRated) (late : campaign.Late → next.Late)
    (moved : next.phase.Idle ∨ ∃ fuzz, next.phase = .picked fuzz)
    (working : campaign.phase.inside = none) (launched : campaign.phase ≠ .starting) :
    next.Progress settings := by
  have quiet : next.phase.inside = none ∧ (∀ fuzz, next.phase ≠ .calibrating fuzz) ∧
      next.phase.ofSeeds = false := by
    rcases moved with idle | ⟨fuzz, there⟩
    · exact ⟨idle.inside, idle.calibrating, idle.seeds⟩
    · rw [there]
      exact ⟨rfl, nofun, rfl⟩
  obtain ⟨outside, uncalibrated, grown⟩ := quiet
  refine progress.carry sound same late (.inl (outside.trans working.symm))
    (fun fuzz there => absurd there (uncalibrated fuzz)) (fun there => ?_)
    (fun i q holds => .inl (tops ▸ holds)) (fun starting => absurd starting launched)
  cases grown.symm.trans there

/-- The call ends before it has begun. -/
theorem Campaign.Progress.endEngine {fuzz : FuzzOne} {skipped : Bool}
    (late : campaign.Late → (campaign.endEngine settings fuzz skipped).Late)
    (here : campaign.phase = .picked fuzz) :
    (campaign.endEngine settings fuzz skipped).Progress settings := by
  refine progress.move sound (by rw [Campaign.endEngine_afl]; exact .refl)
    (by rw [Campaign.endEngine_afl]) late ?_ (by rw [here]; rfl) (by rw [here]; nofun)
  rcases campaign.endEngine_phase settings fuzz skipped with ⟨either, there, _⟩ | there | there
  · exact .inr ⟨_, there⟩
  · rw [there]
    exact .inl ⟨rfl, nofun, rfl, nofun⟩
  · rw [there.1]
    exact .inl ⟨rfl, nofun, rfl, nofun⟩

theorem Campaign.Progress.advance (tallies : campaign.Tallies)
    (keeps : campaign.KeepsProgress settings .advance)
    (stepped : campaign.step settings .advance = some next) : next.Progress settings := by
  have late : campaign.Late → next.Late := fun isLate => Campaign.step_late isLate stepped rfl
  have advanced := Campaign.step_advance stepped
  cases advanced with
  | seeded phase here nonempty there =>
      have grown := progress.fresh (by rw [here]; rfl)
      have quiet : phase.inside = none ∧ ∀ fuzz, phase ≠ .calibrating fuzz := by
        rcases there with rfl | rfl
        · exact ⟨rfl, nofun⟩
        · exact ⟨rfl, nofun⟩
      refine progress.carry sound .refl late (.inl ?_)
        (fun fuzz now => absurd now (quiet.2 fuzz)) (fun _ => grown)
        (fun i q holds => .inl holds) (fun starting => ?_)
      · rw [here]
        exact quiet.1
      · cases here.symm.trans starting
  | seedSkipped idx here inQueue =>
      have grown := progress.fresh (by rw [here]; rfl)
      refine progress.carry sound .refl late (.inl ?_) nofun (fun _ => grown)
        (fun i q holds => .inl holds) (fun starting => ?_)
      · rw [here]
        rfl
      · cases here.symm.trans starting
  | seedsDone idx here done => exact progress.deduplicate tallies here stepped rfl
  | stopped here stop =>
      exact progress.move sound .refl rfl late (.inl ⟨rfl, nofun, rfl, nofun⟩) (by rw [here]; rfl)
        (by rw [here]; nofun)
  | culled _ here going afl scored stop current there =>
      exact progress.cull sound keeps ⟨here, going⟩ stepped
  | imported here =>
      exact progress.move sound .refl rfl late (.inl ⟨rfl, nofun, rfl, nofun⟩) (by rw [here]; rfl)
        (by rw [here]; nofun)
  | cycled _ here afl scored stop current there =>
      have same : campaign.afl.SameStatus next.afl ∧
          next.afl.topRated = campaign.afl.topRated := by
        rcases afl with afl | afl
        · rw [afl]
          exact ⟨.refl, rfl⟩
        · rw [afl]
          exact ⟨⟨le_rfl, rfl, rfl, fun _ _ => rfl⟩, rfl⟩
      have idle : next.phase.Idle := by
        rcases there with there | there
        · rw [there]
          exact ⟨rfl, nofun, rfl, nofun⟩
        · rw [there]
          exact ⟨rfl, nofun, rfl, nofun⟩
      exact progress.move sound same.1 same.2 late (.inl idle) (by rw [here]; rfl)
        (by rw [here]; nofun)
  | passedOver idx here disabled =>
      exact progress.move sound .refl rfl late (.inl ⟨rfl, nofun, rfl, nofun⟩) (by rw [here]; rfl)
        (by rw [here]; nofun)
  | rescored idx here inQueue enabled =>
      have same : campaign.afl.SameStatus
          (updateBitmapScore settings.toConfig campaign.afl idx) := .updateBitmapScore _ idx
      refine progress.carry sound same late (.inl ?_) nofun nofun (fun i q holds => ?_)
        (fun starting => ?_)
      · rw [here]
        rfl
      · rcases Campaign.step_topRated sound stepped rfl holds with old | takes
        · exact .inl old
        · refine .inr (.inl ?_)
          rcases takes.2 with ⟨_, never, _⟩ | ⟨_, there, _⟩
          · cases never
          · obtain rfl := Phase.rescoring.inj (here.symm.trans there)
            have good : (campaign.afl.queueBuf idx).Good :=
              (keeps.rescored idx i here takes).imp_right fun fine => ⟨enabled, fine⟩
            exact good.of_same (same.status idx inQueue)
      · cases here.symm.trans starting
  | allRescored idx here done =>
      exact progress.move sound .refl rfl late (.inl ⟨rfl, nofun, rfl, nofun⟩) (by rw [here]; rfl)
        (by rw [here]; nofun)
  | gaveUp fuzz here failed => exact progress.leave (progress.gaveUp here) sound true

/-- Every other step leaves all entries alone, adds one, or ends a call. -/
theorem Campaign.Progress.step {event : Event} (tallies : campaign.Tallies)
    (keeps : campaign.KeepsProgress settings event)
    (stepped : campaign.step settings event = some next) : next.Progress settings := by
  have late : event.restarts = false → campaign.Late → next.Late :=
    fun goesOn isLate => Campaign.step_late isLate stepped goesOn
  cases event with
  | interrupt =>
      obtain rfl := Option.some.inj stepped
      exact progress.carry sound .refl (late rfl) (.inl rfl)
        (fun fuzz there => ⟨sound.working fuzz (by rw [there]; rfl), progress.calibrating fuzz there⟩)
        progress.fresh (fun i q holds => .inl holds) (fun here => ⟨here, rfl⟩)
  | seed len =>
      obtain ⟨here, rfl⟩ := Campaign.step_seed stepped
      refine progress.carry sound (.addToQueue _ len) (late rfl) (.inl rfl) (fun fuzz there => ?_)
        (fun _ q inQueue => ?_) (fun i q holds => .inl holds) (fun starting => ?_)
      · cases here.symm.trans there
      · rcases Nat.lt_succ_iff_lt_or_eq.mp inQueue with old | rfl
        · rw [addToQueue_queueBuf_old len old]
          exact progress.fresh (by rw [here]; rfl) q old
        · rw [addToQueue_queueBuf_new]
          rfl
      · cases here.symm.trans starting
  | dryRun calibration newCrashBits traceAfter => exact progress.dryRun tallies sound stepped
  | launch seekTo =>
      have here : campaign.phase = .starting := (Campaign.step_launch stepped).1
      exact progress.cull sound keeps here stepped
  | advance => exact progress.advance sound tallies keeps stepped
  | find finding =>
      obtain ⟨there, saved⟩ := Campaign.step_find stepped
      obtain ⟨after, fault, called, rfl⟩ := Campaign.saveIfInteresting_cases saved
      have inside : campaign.afl.queuedItems < (campaign.addFinding finding).afl.queuedItems :=
        Nat.lt_succ_self _
      obtain ⟨_, level, marks, failed⟩ := calibrateCase_status called inside
      obtain ⟨same, phase⟩ := Campaign.find_sameStatus called
      have grown : campaign.phase.ofSeeds = false ∧ campaign.phase ≠ .starting ∧
          ∀ fuzz, campaign.phase ≠ .calibrating fuzz := by
        rcases there with ⟨newCycle, here⟩ | ⟨fuzz, here⟩
        · rw [here]
          exact ⟨rfl, nofun, nofun⟩
        · rw [here]
          exact ⟨rfl, nofun, nofun⟩
      refine progress.carry sound same (late rfl) (.inl (congrArg Phase.inside phase))
        (fun fuzz calibrates => absurd (phase.symm.trans calibrates) (grown.2.2 fuzz))
        (fun seeds => ?_) (fun i q holds => ?_) (fun starting => absurd starting grown.2.1)
      · have seeds : after.phase.ofSeeds = true := seeds
        rw [phase, grown.1] at seeds
        cases seeds
      · rcases Campaign.step_topRated sound stepped rfl holds with old | takes
        · exact .inl old
        · refine .inr (.inl (.inr ?_))
          rcases takes.2 with ⟨trace, ⟨rfl, newBits, execUs, execCksum, given⟩, _⟩ | ⟨never, _⟩
          · have new : ((campaign.addFinding finding).afl.queueBuf
                campaign.afl.queuedItems).fuzzLevel = 0 ∧
                ((campaign.addFinding finding).afl.queueBuf
                  campaign.afl.queuedItems).disabled = false := by
              simp only [Campaign.addFinding, Afl.modify_queueBuf_self, addToQueue_queueBuf_new]
              exact ⟨rfl, rfl⟩
            refine ⟨(congrArg Marks.disabled marks).trans new.2, ?_, level.trans new.1⟩
            rcases failed with ⟨_, _, aborted, _⟩ | ⟨_, _, _, _, _, zero⟩
            · cases aborted.symm.trans given
            · exact zero
          · cases never
  | run trace nFuzz =>
      obtain rfl := Campaign.step_run stepped
      exact progress.carry sound ⟨le_rfl, rfl, rfl, fun _ _ => rfl⟩ (late rfl) (.inl rfl)
        (fun fuzz there => ⟨sound.working fuzz (by rw [there]; rfl), progress.calibrating fuzz there⟩)
        progress.fresh (fun i q holds => .inl holds) (fun here => ⟨here, rfl⟩)
  | select entry =>
      obtain ⟨here, _, afl, _, _, _, engine, there⟩ := Campaign.step_select stepped
      exact progress.move sound (afl ▸ .refl) (congrArg Afl.topRated afl) (late rfl)
        (.inr ⟨_, there⟩) (by rw [here]; rfl) (by rw [here]; nofun)
  | enter queueGet skip =>
      obtain ⟨fuzz, here, entered⟩ := Campaign.step_enter stepped
      rcases Campaign.enter_cases entered with ⟨rfl, _⟩ | ⟨failed, rfl⟩ | ⟨fine, rfl⟩
      · exact progress.endEngine sound (late rfl) here
      · refine progress.carry sound .refl (late rfl) (.inl ?_) (fun other there => ?_) nofun
          (fun i q holds => .inl holds) (fun starting => ?_)
        · rw [here]
          rfl
        · obtain rfl := Phase.calibrating.inj there
          exact ⟨sound.working fuzz (by rw [here]; rfl), failed⟩
        · cases here.symm.trans starting
      · have inside : ∀ other,
            (campaign.enterTrimming settings fuzz).phase.inside = some other → other = fuzz := by
          intro other working
          rcases campaign.enterTrimming_phase settings fuzz with there | there
          · rw [there] at working
            exact (Option.some.inj working).symm
          · rw [there] at working
            exact (Option.some.inj working).symm
        refine progress.carry sound (by rw [Campaign.enterTrimming_afl]; exact .refl) (late rfl)
          (.inr ⟨by rw [here]; rfl, fun other working => ?_⟩) (fun other there => ?_)
          (fun there => ?_) (fun i q holds => .inl ?_) (fun starting => ?_)
        · obtain rfl := inside other working
          exact ⟨sound.working _ (by rw [here]; rfl), fine⟩
        · rcases campaign.enterTrimming_phase settings fuzz with now | now
          · cases now.symm.trans there
          · cases now.symm.trans there
        · rw [Campaign.enterTrimming_ofSeeds] at there
          cases there
        · rwa [Campaign.enterTrimming_afl] at holds
        · cases here.symm.trans starting
  | pass =>
      obtain ⟨fuzz, here, _, rfl⟩ := Campaign.step_pass stepped
      exact progress.endEngine sound (late rfl) here
  | calibrate calibration =>
      obtain ⟨fuzz, here, ran⟩ := Campaign.step_calibrate stepped
      obtain ⟨after, fault, called, ending⟩ := Campaign.recalibrate_cases ran
      rcases ending with ⟨failed, is⟩ | ⟨going, rfl, is⟩
      · rw [is]
        exact progress.leave (progress.failed sound keeps stepped here called failed is) sound true
      · exact progress.recalibrated sound keeps stepped here called going is
  | trimmed len trace =>
      obtain ⟨fuzz, here, rfl⟩ := Campaign.step_trimmed stepped
      have working : campaign.phase.fuzzOne = some fuzz := by rw [here]; rfl
      have same : campaign.afl.SameStatus
          (campaign.keepTrimmed settings fuzz.entry len trace).afl :=
        (Campaign.resize_sameStatus len).trans (Campaign.score_sameStatus trace)
      refine progress.carry sound same (late rfl) (.inl rfl) (fun other there => ?_) (fun there => ?_)
        (fun i q holds => ?_) (fun starting => ?_)
      · cases here.symm.trans there
      · have seeds : campaign.phase.ofSeeds = true := there
        rw [here] at seeds
        cases seeds
      · rcases Campaign.step_topRated sound stepped rfl holds with old | takes
        · exact .inl old
        · right
          rcases takes.2 with ⟨_, ⟨other, there, is, _⟩, _⟩ | ⟨never, _⟩
          · obtain rfl := Phase.trimming.inj (here.symm.trans there)
            subst is
            have kept := same.status fuzz.entry (sound.working fuzz working)
            cases engine : fuzz.engine with
            | original =>
                rcases keeps.executed fuzz i working engine takes with fuzzed | enabled
                · have good : (campaign.afl.queueBuf fuzz.entry).Good := .inl fuzzed
                  exact .inl (good.of_same kept)
                · exact .inr ⟨fuzz, (congrArg Phase.inside here).trans rfl, rfl, fun _ =>
                    (QueueEntry.disabled_of_status kept).trans enabled⟩
            | mopt =>
                refine .inr ⟨fuzz, (congrArg Phase.inside here).trans rfl, rfl, fun original => ?_⟩
                cases engine.symm.trans original
          · cases never
      · cases here.symm.trans starting
  | trimEnd len trace =>
      obtain ⟨fuzz, here, rfl⟩ := Campaign.step_trimEnd stepped
      rcases Campaign.endTrimming_cases settings campaign fuzz len trace with
        ⟨stop, is⟩ | ⟨going, is⟩
      · rw [is]
        exact progress.leave (campaign.trimEnd_leaves sound len trace here stop) sound true
      · have marked : (campaign.trimTo fuzz.entry len trace).afl.SameStatus
            ((campaign.trimTo fuzz.entry len trace).afl.modify fuzz.entry fun entry =>
              { entry with trimDone := true }) := .modify fuzz.entry rfl
        have gone := late rfl
        rw [is] at gone ⊢
        refine progress.carry sound ((Campaign.trimTo_sameStatus len trace).trans marked) gone
          (.inl ?_) nofun nofun (fun i q holds => .inl holds) (fun starting => ?_)
        · rw [here]
          rfl
        · cases here.symm.trans starting
  | abandon completed =>
      obtain ⟨fuzz, here, rfl⟩ := Campaign.step_abandon stepped
      exact progress.leave (progress.abandoned keeps here) sound _
  | restart schedule len trace => exact Campaign.Progress.resume sound keeps stepped

end

end

end SbFuzz.Fuzzer
