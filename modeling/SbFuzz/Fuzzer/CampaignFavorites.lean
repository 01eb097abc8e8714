import SbFuzz.Fuzzer.CampaignPicks

/-! Progress of the choice through `smallest_favored`: every entry picked this
way is one that `fuzz_one` works on, a call that completes takes it out of
`pending_favored`, and it is never picked this way again. -/

set_option autoImplicit false

namespace SbFuzz.Fuzzer

open SbFuzz.Systems

section

variable {settings : Settings} {campaign next : Campaign} {event : Event} {fuzz : FuzzOne}

/-! ## Entries stay fuzzed -/

theorem Campaign.abandon_inside (skipped : Bool) :
    (campaign.abandon settings fuzz skipped).phase.inside = none := by
  rcases (campaign.leave fuzz).endEngine_phase settings fuzz skipped with
    ⟨either, there, _⟩ | there | there
  · rw [Campaign.abandon_eq, there]
    rfl
  · rw [Campaign.abandon_eq, there]
    rfl
  · rw [Campaign.abandon_eq, there.1]
    rfl

/-- As long as `fuzz_one` works on an entry nothing that it looks at changes. -/
theorem Campaign.step_inside (working : campaign.phase.inside = some fuzz)
    (stepped : campaign.step settings event = some next) :
    campaign.afl.SameStatus next.afl ∧ next.phase.inside = some fuzz ∨
      next.phase.inside = none := by
  cases event with
  | interrupt =>
      obtain rfl := Option.some.inj stepped
      exact .inl ⟨.refl, working⟩
  | seed len =>
      rw [(Campaign.step_seed stepped).1] at working
      cases working
  | dryRun calibration newCrashBits traceAfter =>
      obtain ⟨idx, here, _⟩ := Campaign.step_dryRun stepped
      rw [here] at working
      cases working
  | launch seekTo =>
      rw [(Campaign.step_launch stepped).1] at working
      cases working
  | advance =>
      cases Campaign.step_advance stepped with
      | seeded _ here | seedSkipped _ here | seedsDone _ here | stopped here | culled _ here
        | imported here | cycled _ here | passedOver _ here | rescored _ here
        | allRescored _ here | gaveUp _ here =>
          rw [here] at working
          cases working
  | find finding =>
      obtain ⟨_, saved⟩ := Campaign.step_find stepped
      obtain ⟨after, fault, called, rfl⟩ := Campaign.saveIfInteresting_cases saved
      obtain ⟨same, phase⟩ := Campaign.find_sameStatus called
      exact .inl ⟨same, (congrArg Phase.inside phase).trans working⟩
  | run trace nFuzz =>
      obtain rfl := Campaign.step_run stepped
      exact .inl ⟨⟨le_rfl, rfl, rfl, fun _ _ => rfl⟩, working⟩
  | select entry =>
      rw [(Campaign.step_select stepped).1] at working
      cases working
  | enter queueGet skip =>
      obtain ⟨other, here, _⟩ := Campaign.step_enter stepped
      rw [here] at working
      cases working
  | pass =>
      obtain ⟨other, here, _⟩ := Campaign.step_pass stepped
      rw [here] at working
      cases working
  | calibrate calibration =>
      obtain ⟨other, here, _⟩ := Campaign.step_calibrate stepped
      rw [here] at working
      cases working
  | trimmed len trace =>
      obtain ⟨other, here, rfl⟩ := Campaign.step_trimmed stepped
      exact .inl ⟨(Campaign.resize_sameStatus len).trans (Campaign.score_sameStatus trace), working⟩
  | trimEnd len trace =>
      obtain ⟨other, here, rfl⟩ := Campaign.step_trimEnd stepped
      rw [here] at working
      obtain rfl := Option.some.inj working
      rcases Campaign.endTrimming_cases settings campaign other len trace with
        ⟨_, is⟩ | ⟨_, is⟩
      · rw [is]
        exact .inr (Campaign.abandon_inside true)
      · rw [is]
        have marked : (campaign.trimTo other.entry len trace).afl.SameStatus
            ((campaign.trimTo other.entry len trace).afl.modify other.entry fun entry =>
              { entry with trimDone := true }) := .modify other.entry rfl
        exact .inl ⟨(Campaign.trimTo_sameStatus len trace).trans marked, rfl⟩
  | abandon completed =>
      obtain ⟨other, here, rfl⟩ := Campaign.step_abandon stepped
      exact .inr (Campaign.abandon_inside _)
  | restart schedule len trace =>
      rw [(Campaign.step_restart stepped).1] at working
      cases working

/-- The events of a call of `fuzz_one` on `q`, from the choice of the entry to
the end of the original mutator, in a process that is not about to stop. -/
inductive Campaign.Completes (settings : Settings) (schedule : Schedule) (campaign : Campaign)
    (q : Nat) : List Event → Campaign → Prop
  | call (calls : List Event) (picked entered worked after : Campaign) (completed : Bool)
      (select : campaign.step settings (.select q) = some picked)
      (enter : picked.step settings (.enter true false) = some entered)
      (inside : (campaignMachine settings schedule).Admitted
        (fun state _ => state.phase.inside = entered.phase.inside) entered calls)
      (ran : (campaignMachine settings schedule).runFrom entered calls = some worked)
      (going : worked.stopSoon = false)
      (abandon : worked.step settings (.abandon completed) = some after) :
      Completes settings schedule campaign q
        (.select q :: .enter true false :: (calls ++ [.abandon completed])) after

end

section

variable {settings : Settings} {schedule : Schedule} {campaign : Campaign}

/-- The status of all entries is the same throughout a call. -/
theorem Campaign.inside_run {start final : Campaign} {fuzz : FuzzOne} {calls : List Event}
    (working : start.phase.inside = some fuzz)
    (inside : (campaignMachine settings schedule).Admitted
      (fun state _ => state.phase.inside = some fuzz) start calls)
    (ran : (campaignMachine settings schedule).runFrom start calls = some final) :
    start.afl.SameStatus final.afl ∧ final.phase.inside = some fuzz ∨
      final.phase.inside = none := by
  apply (campaignMachine settings schedule).runFrom_invariant_of_admitted (fun state =>
    start.afl.SameStatus state.afl ∧ state.phase.inside = some fuzz ∨ state.phase.inside = none)
    _ (.inl ⟨.refl, working⟩) inside ran
  intro state event next kept admits stepped
  rcases kept with ⟨same, here⟩ | left
  · rcases Campaign.step_inside here stepped with ⟨step, there⟩ | there
    · exact .inl ⟨same.trans step, there⟩
    · exact .inr there
  · cases left.symm.trans admits

/-- The state in which the loop picks `q` because it is favored, with nothing
in the way of `fuzz_one`. -/
structure Campaign.Picks (settings : Settings) (campaign : Campaign) (q : Nat) : Prop where
  here : campaign.phase = .selecting
  inQueue : q < campaign.afl.queuedItems
  number : campaign.afl.smallestFavored = q
  pending : campaign.afl.pendingFavored ≠ 0
  fit : (campaign.afl.queueBuf q).Fit

theorem Campaign.picks_of_fit (here : campaign.phase = .selecting)
    (picks : campaign.picksSmallest settings = true) (fit : campaign.afl.PicksFit) :
    ∃ q, campaign.Picks settings q := by
  simp only [Campaign.picksSmallest, Bool.and_eq_true, decide_eq_true_eq] at picks
  obtain ⟨⟨_, pending⟩, chosen⟩ := picks
  have pending : campaign.afl.pendingFavored ≠ 0 := by simpa using pending
  obtain ⟨q, inQueue, number, fit⟩ := fit pending chosen
  exact ⟨q, here, inQueue, number, pending, fit⟩

/-- `fuzz_one` does not turn the entry away. -/
theorem Campaign.Picks.entered {q : Nat} (picks : campaign.Picks settings q)
    (limited : settings.limitTimeSig ≤ 0) {picked entered : Campaign} {skip : Bool}
    (select : campaign.step settings (.select q) = some picked)
    (enter : picked.step settings (.enter true skip) = some entered) :
    entered.phase.inside = some { entry := q, engine := .original, skipped := false } ∧
      entered.afl = campaign.afl := by
  obtain ⟨here, inQueue, number, pending, favored, _, _, zero, level⟩ := picks
  simp only [Campaign.step, here, Campaign.select, if_pos limited] at select
  split at select
  · obtain rfl := Option.some.inj select
    have stays : ∀ start : Campaign, start.afl = campaign.afl →
        start.maySkip settings q = false := by
      intro start same
      simp [Campaign.maySkip, same, pending, favored, level]
    simp only [Campaign.step, Campaign.enter] at enter
    split at enter
    · next refused => cases refused.2
    · split at enter
      · split at enter
        · next allowed => cases (stays _ rfl).symm.trans allowed
        · cases enter
      · split at enter
        · next failed => exact absurd zero failed
        · obtain rfl := Option.some.inj enter
          refine ⟨?_, by rw [Campaign.enterTrimming_afl]⟩
          unfold Campaign.enterTrimming
          split
          · rfl
          · rfl
  · cases select

/-- A completed call takes the entry out of `pending_favored`. -/
theorem Campaign.Picks.completed {q : Nat} (picks : campaign.Picks settings q)
    (limited : settings.limitTimeSig ≤ 0) {calls : List Event} {after : Campaign}
    (completes : campaign.Completes settings schedule q calls after) :
    after.afl.pendingFavored + 1 = campaign.afl.pendingFavored ∧
      after.afl.smallestFavored = -1 ∧ (after.afl.queueBuf q).wasFuzzed = true := by
  obtain ⟨_, picked, entered, worked, _, completed, select, enter, inside, ran, going, abandon⟩ :=
    completes
  obtain ⟨working, start⟩ := picks.entered limited select enter
  obtain ⟨fuzz, here, rfl⟩ := Campaign.step_abandon abandon
  rw [working] at inside
  rcases Campaign.inside_run working inside ran with ⟨same, there⟩ | left
  · rw [here] at there
    obtain rfl := Option.some.inj there
    rw [start] at same
    obtain ⟨favored, unseen, enabled, zero, _⟩ := picks.fit.of_same (same.status q picks.inQueue)
    have pending := same.pending
    rw [Campaign.abandon_afl]
    simp only [abandonEntry, Afl.markFuzzed, going, zero, unseen, enabled, favored, Bool.not_false,
      Afl.modify_pendingFavored, Afl.modify_smallestFavored, Afl.modify_queueBuf_self,
      and_self, and_true, if_true, pending]
    exact Nat.sub_add_cancel (Nat.pos_of_ne_zero picks.pending)
  · rw [here] at left
    cases left

theorem Campaign.Completes.run {q : Nat} {calls : List Event} {after : Campaign}
    (completes : campaign.Completes settings schedule q calls after) :
    (campaignMachine settings schedule).runFrom campaign calls = some after := by
  obtain ⟨_, picked, entered, worked, _, completed, select, enter, _, ran, _, abandon⟩ := completes
  have first : (campaignMachine settings schedule).step campaign (.select q) = some picked := select
  have second : (campaignMachine settings schedule).step picked (.enter true false) =
    some entered := enter
  have last : (campaignMachine settings schedule).step worked (.abandon completed) =
    some after := abandon
  rw [Machine.runFrom_cons, first, Option.bind_some, Machine.runFrom_cons, second,
    Option.bind_some, Machine.runFrom_append, ran, Option.bind_some, Machine.runFrom_cons, last,
    Option.bind_some, Machine.runFrom_nil]

/-! ## Campaigns -/

/-- What the steps of an admitted run keep. -/
def Campaign.Progresses (settings : Settings) (campaign : Campaign) : Prop :=
  campaign.Sound settings ∧ campaign.Tallies ∧ campaign.Progress settings

theorem Campaign.Progresses.run {start final : Campaign} {events : List Event}
    (kept : start.Progresses settings)
    (admitted : (campaignMachine settings schedule).Admitted (Campaign.KeepsProgress settings)
      start events)
    (ran : (campaignMachine settings schedule).runFrom start events = some final) :
    final.Progresses settings := by
  apply (campaignMachine settings schedule).runFrom_invariant_of_admitted
    (Campaign.Progresses settings) _ kept admitted ran
  intro campaign event next ⟨sound, tallies, progress⟩ keeps stepped
  exact ⟨sound.step stepped, tallies.step sound stepped,
    progress.step sound tallies keeps stepped⟩

theorem Campaign.Progresses.picks (kept : campaign.Progresses settings)
    (here : campaign.phase = .selecting) (picks : campaign.picksSmallest settings = true) :
    ∃ q, campaign.Picks settings q := by
  have notLate : ¬ campaign.Late := fun late => by
    have isLate := late.2
    rw [here] at isLate
    cases isLate
  refine Campaign.picks_of_fit here picks (kept.2.2.picks notLate fun starting => ?_)
  cases here.symm.trans starting

end

/-- No call is going on and nothing is scored again. -/
def Phase.between : Phase → Bool
  | .seeding | .dryRun _ | .starting | .loopHead | .importing _ | .selecting | .stopped => true
  | _ => false

end SbFuzz.Fuzzer
