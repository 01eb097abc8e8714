import SbFuzz.Fuzzer.CampaignMarks

/-! Which entry a campaign is at: `queue_cur` and the entry of a call of
`fuzz_one`, step by step. -/

set_option autoImplicit false

namespace SbFuzz.Fuzzer

section

variable {settings : Settings} {campaign next : Campaign}

/-- `queue_cur` and the entry of a call of `fuzz_one` after a step. -/
structure Campaign.Focus (settings : Settings) (campaign next : Campaign) : Prop where
  current : ∀ q, next.queueCur = some q → campaign.queueCur = some q ∨
    q < campaign.afl.queuedItems ∨ q = 0 ∧ campaign.phase = .importing true ∨
    campaign.phase = .selecting ∧ campaign.mayPick settings q = true
  working : ∀ fuzz, next.phase.fuzzOne = some fuzz →
    (∃ before, campaign.phase.fuzzOne = some before ∧ before.entry = fuzz.entry) ∨
    campaign.phase = .selecting ∧ campaign.mayPick settings fuzz.entry = true

theorem Campaign.Focus.of_same (cur : next.queueCur = campaign.queueCur)
    (idle : next.phase.fuzzOne = none ∨ next.phase.fuzzOne = campaign.phase.fuzzOne) :
    campaign.Focus settings next := by
  refine ⟨fun q current => .inl (cur ▸ current), fun fuzz working => .inl ⟨fuzz, ?_, rfl⟩⟩
  rcases idle with idle | same
  · rw [idle] at working
    cases working
  · exact same ▸ working

theorem Campaign.Focus.endEngine {middle : Campaign} {fuzz : FuzzOne} (skipped : Bool)
    (here : campaign.phase.fuzzOne = some fuzz) (cur : middle.queueCur = campaign.queueCur)
    (items : middle.afl.queuedItems = campaign.afl.queuedItems) :
    campaign.Focus settings (middle.endEngine settings fuzz skipped) := by
  refine ⟨fun q current => ?_, fun other working => .inl ?_⟩
  · rcases middle.endEngine_queueCur settings fuzz skipped current with same | inside
    · exact .inl (cur ▸ same)
    · exact .inr (.inl (items ▸ inside))
  · rcases middle.endEngine_phase settings fuzz skipped with ⟨either, there, _⟩ | there | there
    · rw [there] at working
      obtain rfl := Option.some.inj working
      exact ⟨fuzz, here, rfl⟩
    · rw [there] at working
      cases working
    · rw [there.1] at working
      cases working

theorem Campaign.Focus.abandon {middle : Campaign} {fuzz : FuzzOne} (skipped : Bool)
    (here : campaign.phase.fuzzOne = some fuzz) (cur : middle.queueCur = campaign.queueCur)
    (items : middle.afl.queuedItems = campaign.afl.queuedItems) :
    campaign.Focus settings (middle.abandon settings fuzz skipped) := by
  unfold Campaign.abandon
  simp only
  apply Focus.endEngine skipped here
  · exact cur
  · simp only
    split
    · simpa [abandonEntry] using items
    · exact items

theorem Campaign.advance_focus (advanced : campaign.Advances settings next) :
    campaign.Focus settings next := by
  cases advanced with
  | seeded phase here nonempty there =>
      rcases there with rfl | rfl
      · exact .of_same rfl (.inl rfl)
      · exact .of_same rfl (.inl rfl)
  | seedSkipped idx here inQueue => exact .of_same rfl (.inl rfl)
  | seedsDone idx here done => exact .of_same rfl (.inl rfl)
  | stopped here stop => exact .of_same rfl (.inl rfl)
  | culled _ here going afl scored stop current there =>
      rcases there with there | there
      · exact .of_same current (.inl (by rw [there]; rfl))
      · exact .of_same current (.inl (by rw [there]; rfl))
  | imported here => exact .of_same rfl (.inl rfl)
  | cycled _ here afl scored stop current there =>
      refine ⟨fun q chosen => ?_, fun fuzz working => ?_⟩
      · rcases current q chosen with same | inside | first
        · exact .inl same
        · exact .inr (.inl inside)
        · exact .inr (.inr (.inl ⟨first, here⟩))
      · rcases there with there | there
        · rw [there] at working
          cases working
        · rw [there] at working
          cases working
  | passedOver idx here disabled => exact .of_same rfl (.inl rfl)
  | rescored idx here inQueue enabled => exact .of_same rfl (.inl rfl)
  | allRescored idx here done => exact .of_same rfl (.inl rfl)
  | gaveUp fuzz here failed => exact .abandon true (by rw [here]; rfl) rfl rfl

theorem Campaign.enter_focus {fuzz : FuzzOne} {queueGet skip : Bool}
    (here : campaign.phase = .picked fuzz)
    (entered : campaign.enter settings fuzz queueGet skip = some next) :
    campaign.Focus settings next := by
  have working : campaign.phase.fuzzOne = some fuzz := by rw [here]; rfl
  rcases Campaign.enter_cases entered with ⟨rfl, _⟩ | ⟨_, rfl⟩ | ⟨_, rfl⟩
  · exact .endEngine true working rfl rfl
  · exact .of_same rfl (.inr working.symm)
  · apply Focus.of_same (by simp)
    rcases campaign.enterTrimming_phase settings fuzz with there | there
    · exact .inr (by rw [there, working]; rfl)
    · exact .inr (by rw [there, working]; rfl)

/-- A call of `fuzz_one` works on an entry that the loop picked, and `queue_cur`
moves inside the queue. -/
theorem Campaign.step_focus {event : Event}
    (stepped : campaign.step settings event = some next) :
    (∃ schedule len trace, event = .restart schedule len trace) ∨
      campaign.Focus settings next := by
  cases event with
  | interrupt => exact .inr (Option.some.inj stepped ▸ .of_same rfl (.inr rfl))
  | seed len =>
      obtain ⟨here, rfl⟩ := Campaign.step_seed stepped
      exact .inr (.of_same rfl (.inr rfl))
  | dryRun calibration newCrashBits traceAfter =>
      obtain ⟨idx, here, inQueue, enabled, ran⟩ := Campaign.step_dryRun stepped
      obtain ⟨after, fault, called, ending⟩ := Campaign.dryRunSeed_cases ran
      have current := calibrateCase_queueCur called
      rcases ending with rfl | ⟨judged, judge, going, rfl⟩
      · exact .inr (.of_same current (.inl rfl))
      · exact .inr (.of_same current (.inl rfl))
  | launch seekTo =>
      obtain ⟨here, launched⟩ := Campaign.step_launch stepped
      obtain ⟨_, _, _, current, there⟩ := Campaign.launch_cases launched
      refine .inr (.of_same current (.inl ?_))
      rw [there]
      split <;> rfl
  | advance => exact .inr (Campaign.advance_focus (Campaign.step_advance stepped))
  | find finding =>
      obtain ⟨_, saved⟩ := Campaign.step_find stepped
      obtain ⟨after, fault, called, rfl⟩ := Campaign.saveIfInteresting_cases saved
      have current : after.queueCur = (campaign.addFinding finding).queueCur :=
        calibrateCase_queueCur called
      have there : after.phase = (campaign.addFinding finding).phase := calibrateCase_phase called
      exact .inr (.of_same current (.inr (congrArg Phase.fuzzOne there)))
  | run trace nFuzz =>
      obtain rfl := Campaign.step_run stepped
      exact .inr (.of_same rfl (.inr rfl))
  | select entry =>
      obtain ⟨here, picked, _, _, _, current, engine, there⟩ := Campaign.step_select stepped
      refine .inr ⟨fun q chosen => ?_, fun fuzz working => ?_⟩
      · rw [current] at chosen
        obtain rfl := Option.some.inj chosen
        exact .inr (.inr (.inr ⟨here, picked⟩))
      · rw [there] at working
        obtain rfl := Option.some.inj working
        exact .inr ⟨here, picked⟩
  | enter queueGet skip =>
      obtain ⟨fuzz, here, entered⟩ := Campaign.step_enter stepped
      exact .inr (Campaign.enter_focus here entered)
  | pass =>
      obtain ⟨fuzz, here, _, rfl⟩ := Campaign.step_pass stepped
      exact .inr (.endEngine false (by rw [here]; rfl) rfl rfl)
  | calibrate calibration =>
      obtain ⟨fuzz, here, ran⟩ := Campaign.step_calibrate stepped
      obtain ⟨after, fault, called, ending⟩ := Campaign.recalibrate_cases ran
      have working : campaign.phase.fuzzOne = some fuzz := by rw [here]; rfl
      have current : after.queueCur = (campaign.clearCksum fuzz.entry).queueCur :=
        calibrateCase_queueCur called
      rcases ending with ⟨_, rfl⟩ | ⟨_, _, rfl⟩
      · exact .inr (.abandon true working current (calibrateCase_sameMarks called).items)
      · have same : (after.enterTrimming settings fuzz).queueCur = campaign.queueCur :=
          (after.enterTrimming_queueCur settings fuzz).trans current
        apply Or.inr
        apply Focus.of_same same
        rcases after.enterTrimming_phase settings fuzz with there | there
        · exact .inr (by rw [there, working]; rfl)
        · exact .inr (by rw [there, working]; rfl)
  | trimmed len trace =>
      obtain ⟨fuzz, here, rfl⟩ := Campaign.step_trimmed stepped
      exact .inr (.of_same rfl (.inr rfl))
  | trimEnd len trace =>
      obtain ⟨fuzz, here, rfl⟩ := Campaign.step_trimEnd stepped
      have working : campaign.phase.fuzzOne = some fuzz := by rw [here]; rfl
      rcases Campaign.endTrimming_cases settings campaign fuzz len trace with
        ⟨_, same⟩ | ⟨_, same⟩
      · rw [same]
        exact .inr (.abandon true working rfl rfl)
      · rw [same]
        exact .inr (.of_same rfl (.inr working.symm))
  | abandon completed =>
      obtain ⟨fuzz, here, rfl⟩ := Campaign.step_abandon stepped
      exact .inr (.abandon _ (by rw [here]; rfl) rfl rfl)
  | restart schedule len trace => exact .inl ⟨schedule, len, trace, rfl⟩

/-! ## Seeds come first -/

/-- Seeds are read or tried out. -/
def Phase.ofSeeds : Phase → Bool
  | .seeding | .dryRun _ => true
  | _ => false

theorem Campaign.endEngine_ofSeeds (settings : Settings) (campaign : Campaign) (fuzz : FuzzOne)
    (skipped : Bool) : (campaign.endEngine settings fuzz skipped).phase.ofSeeds = false := by
  rcases campaign.endEngine_phase settings fuzz skipped with ⟨either, there, _⟩ | there | there
  · rw [there]
    rfl
  · rw [there]
    rfl
  · rw [there.1]
    rfl

theorem Campaign.enterTrimming_ofSeeds (settings : Settings) (campaign : Campaign)
    (fuzz : FuzzOne) : (campaign.enterTrimming settings fuzz).phase.ofSeeds = false := by
  rcases campaign.enterTrimming_phase settings fuzz with there | there
  · rw [there]
    rfl
  · rw [there]
    rfl

theorem Campaign.advance_ofSeeds (advanced : campaign.Advances settings next)
    (there : next.phase.ofSeeds = true) : campaign.phase.ofSeeds = true := by
  cases advanced with
  | seeded phase here nonempty there => rw [here]; rfl
  | seedSkipped idx here inQueue => rw [here]; rfl
  | seedsDone idx here done => rw [here]; rfl
  | stopped here stop => cases there
  | culled _ here going afl scored stop current later =>
      rcases later with later | later
      · rw [later] at there
        cases there
      · rw [later] at there
        cases there
  | imported here => cases there
  | cycled _ here afl scored stop current later =>
      rcases later with later | later
      · rw [later] at there
        cases there
      · rw [later] at there
        cases there
  | passedOver idx here disabled => cases there
  | rescored idx here inQueue enabled => cases there
  | allRescored idx here done => cases there
  | gaveUp fuzz here failed =>
      unfold Campaign.abandon at there
      rw [Campaign.endEngine_ofSeeds] at there
      cases there

/-- No step goes back to the seeds. -/
theorem Campaign.step_ofSeeds {event : Event}
    (stepped : campaign.step settings event = some next)
    (there : next.phase.ofSeeds = true) : campaign.phase.ofSeeds = true := by
  cases event with
  | interrupt =>
      obtain rfl := Option.some.inj stepped
      exact there
  | seed len =>
      obtain ⟨here, rfl⟩ := Campaign.step_seed stepped
      exact there
  | dryRun calibration newCrashBits traceAfter =>
      obtain ⟨idx, here, _⟩ := Campaign.step_dryRun stepped
      rw [here]
      rfl
  | launch seekTo =>
      obtain ⟨here, launched⟩ := Campaign.step_launch stepped
      rw [(Campaign.launch_cases launched).2.2.2.2] at there
      split at there <;> cases there
  | advance => exact Campaign.advance_ofSeeds (Campaign.step_advance stepped) there
  | find finding =>
      obtain ⟨_, saved⟩ := Campaign.step_find stepped
      obtain ⟨after, fault, called, rfl⟩ := Campaign.saveIfInteresting_cases saved
      have same : after.phase = (campaign.addFinding finding).phase := calibrateCase_phase called
      have kept : after.phase.ofSeeds = true := there
      rwa [same] at kept
  | run trace nFuzz =>
      obtain rfl := Campaign.step_run stepped
      exact there
  | select entry =>
      obtain ⟨_, _, _, _, _, _, engine, picked⟩ := Campaign.step_select stepped
      rw [picked] at there
      cases there
  | enter queueGet skip =>
      obtain ⟨fuzz, _, entered⟩ := Campaign.step_enter stepped
      rcases Campaign.enter_cases entered with ⟨rfl, _⟩ | ⟨_, rfl⟩ | ⟨_, rfl⟩
      · rw [Campaign.endEngine_ofSeeds] at there
        cases there
      · cases there
      · rw [Campaign.enterTrimming_ofSeeds] at there
        cases there
  | pass =>
      obtain ⟨fuzz, _, _, rfl⟩ := Campaign.step_pass stepped
      rw [Campaign.endEngine_ofSeeds] at there
      cases there
  | calibrate calibration =>
      obtain ⟨fuzz, _, ran⟩ := Campaign.step_calibrate stepped
      obtain ⟨after, fault, _, ending⟩ := Campaign.recalibrate_cases ran
      rcases ending with ⟨_, rfl⟩ | ⟨_, _, rfl⟩
      · unfold Campaign.abandon at there
        rw [Campaign.endEngine_ofSeeds] at there
        cases there
      · rw [Campaign.enterTrimming_ofSeeds] at there
        cases there
  | trimmed len trace =>
      obtain ⟨fuzz, here, rfl⟩ := Campaign.step_trimmed stepped
      exact there
  | trimEnd len trace =>
      obtain ⟨fuzz, _, rfl⟩ := Campaign.step_trimEnd stepped
      rcases Campaign.endTrimming_cases settings campaign fuzz len trace with
        ⟨_, same⟩ | ⟨_, same⟩
      · rw [same] at there
        unfold Campaign.abandon at there
        rw [Campaign.endEngine_ofSeeds] at there
        cases there
      · rw [same] at there
        cases there
  | abandon completed =>
      obtain ⟨fuzz, _, rfl⟩ := Campaign.step_abandon stepped
      unfold Campaign.abandon at there
      rw [Campaign.endEngine_ofSeeds] at there
      cases there
  | restart schedule len trace =>
      obtain ⟨_, rfl⟩ := Campaign.step_restart stepped
      cases there

end

end SbFuzz.Fuzzer
