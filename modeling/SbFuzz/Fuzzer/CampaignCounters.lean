import SbFuzz.Fuzzer.CampaignReferences

/-! `active_items` and `pending_not_fuzzed` over whole campaigns. -/

set_option autoImplicit false

namespace SbFuzz.Fuzzer

open SbFuzz.Systems

/-! ## The counters and the marks -/

/-- `active_items` counts the entries that are enabled, `pending_not_fuzzed`
those that are not fuzzed either. -/
structure Afl.Counted (afl : Afl) : Prop where
  active : afl.activeItems =
    Nat.count (fun q => (afl.queueBuf q).disabled = false) afl.queuedItems
  unfuzzed : afl.pendingNotFuzzed = Nat.count (fun q =>
    (afl.queueBuf q).disabled = false ∧ (afl.queueBuf q).wasFuzzed = false) afl.queuedItems

/-- What holds while seeds are read and tried out: only entries that were taken
out pass for fuzzed. -/
def Afl.FuzzedDisabled (afl : Afl) : Prop :=
  ∀ q, (afl.queueBuf q).wasFuzzed = true → (afl.queueBuf q).disabled = true

section

variable {before after afl judged : Afl} {config : Config} {q : Nat}

theorem Afl.Counted.of_same (same : before.SameMarks after) (counted : before.Counted) :
    after.Counted := by
  constructor
  · simp only [same.active, same.items, same.disabled]
    exact counted.active
  · simp only [same.unfuzzed, same.items, same.disabled, same.wasFuzzed]
    exact counted.unfuzzed

theorem Afl.FuzzedDisabled.of_same (same : before.SameMarks after)
    (fuzzed : before.FuzzedDisabled) : after.FuzzedDisabled := by
  intro q
  rw [same.wasFuzzed, same.disabled]
  exact fuzzed q

theorem Afl.Counted.add (counted : afl.Counted) (len : UInt32) :
    (addToQueue afl len).Counted := by
  have new := addToQueue_queueBuf_new afl len
  have old := fun q (inQueue : q < afl.queuedItems) => addToQueue_queueBuf_old len inQueue
  have items : (addToQueue afl len).queuedItems = afl.queuedItems + 1 := rfl
  constructor
  · rw [items, Nat.count_succ, count_congr fun q inQueue => by rw [old q inQueue], new,
      ← counted.active]
    rfl
  · rw [items, Nat.count_succ, count_congr fun q inQueue => by rw [old q inQueue], new,
      ← counted.unfuzzed]
    rfl

theorem Afl.FuzzedDisabled.add (fuzzed : afl.FuzzedDisabled) (len : UInt32) :
    (addToQueue afl len).FuzzedDisabled := by
  intro q
  simp only [addToQueue, Function.update_apply]
  split
  · exact fun never => Bool.noConfusion never
  · exact fuzzed q

/-- An entry that counted leaves both counters. -/
theorem Afl.Counted.takeOut (counted : afl.Counted) (inQueue : q < afl.queuedItems)
    (enabled : (afl.queueBuf q).disabled = false) (unseen : (afl.queueBuf q).wasFuzzed = false)
    (items : after.queuedItems = afl.queuedItems)
    (active : after.activeItems = afl.activeItems - 1)
    (unfuzzed : after.pendingNotFuzzed = afl.pendingNotFuzzed - 1)
    (gone : (after.queueBuf q).disabled = true)
    (others : ∀ r, r ≠ q → after.queueBuf r = afl.queueBuf r) : after.Counted := by
  have countedActive := counted.active
  have countedUnfuzzed := counted.unfuzzed
  constructor
  · rw [active, items]
    have left := count_eq_add_one (p := fun r => (afl.queueBuf r).disabled = false)
      (q := fun r => (after.queueBuf r).disabled = false) inQueue
      (fun r other => by rw [others r other]) enabled (by simp [gone])
    omega
  · rw [unfuzzed, items]
    have left := count_eq_add_one
      (p := fun r => (afl.queueBuf r).disabled = false ∧ (afl.queueBuf r).wasFuzzed = false)
      (q := fun r => (after.queueBuf r).disabled = false ∧ (after.queueBuf r).wasFuzzed = false)
      inQueue (fun r other => by rw [others r other]) ⟨enabled, unseen⟩ (by simp [gone])
    omega

/-- `retire` and `disable` in either order take out an entry that counted. -/
theorem Afl.Counted.retire_disable (counted : afl.Counted) (inQueue : q < afl.queuedItems)
    (enabled : (afl.queueBuf q).disabled = false) (unseen : (afl.queueBuf q).wasFuzzed = false) :
    ((afl.retire q).disable q).Counted := by
  apply counted.takeOut inQueue enabled unseen (by simp)
  · simp [Afl.retire, Afl.disable, unseen]
  · simp [Afl.retire, Afl.disable, unseen]
  · rw [Afl.retire_disable_queueBuf, if_pos rfl]
  · intro r other
    rw [Afl.retire_disable_queueBuf, if_neg other]

theorem Afl.FuzzedDisabled.retire_disable (fuzzed : afl.FuzzedDisabled) :
    ((afl.retire q).disable q).FuzzedDisabled := by
  intro r
  rw [Afl.retire_disable_queueBuf]
  split
  · exact fun _ => rfl
  · exact fuzzed r

theorem Afl.Counted.disable_retire (counted : afl.Counted) (inQueue : q < afl.queuedItems)
    (enabled : (afl.queueBuf q).disabled = false) (unseen : (afl.queueBuf q).wasFuzzed = false) :
    ((afl.disable q).retire q).Counted := by
  apply counted.takeOut inQueue enabled unseen (by simp)
  · simp [Afl.retire, Afl.disable, unseen]
  · simp [Afl.retire, Afl.disable, unseen]
  · rw [Afl.retire_queueBuf, if_pos rfl, Afl.disable_queueBuf, if_pos rfl]
  · intro r other
    rw [Afl.retire_queueBuf, if_neg other, Afl.disable_queueBuf, if_neg other]

theorem Afl.FuzzedDisabled.disable_retire (fuzzed : afl.FuzzedDisabled) :
    ((afl.disable q).retire q).FuzzedDisabled := by
  intro r
  rw [Afl.retire_queueBuf, Afl.disable_queueBuf, Afl.disable_queueBuf]
  split
  · exact fun _ => by rw [if_pos rfl]
  · next other => exact fuzzed r

/-! ## The functions that take entries out -/

/-- The `break` of the dry run that leaves a crashing seed enabled. -/
def Settings.keepsCrashing (settings : Settings) (newCrashBits : Bool) : Bool :=
  !settings.crashMode && !settings.exitOnSeedIssues && settings.crashingSeedsAsNewCrash &&
    !settings.nonInstrumentedMode && !newCrashBits

theorem judgeSeed_counted {settings : Settings} {newCrashBits : Bool} {fault : Fault}
    (judge : judgeSeed settings afl q newCrashBits fault = some judged)
    (taken : fault = .crash → settings.keepsCrashing newCrashBits = false)
    (counted : afl.Counted) (fuzzed : afl.FuzzedDisabled) (inQueue : q < afl.queuedItems)
    (enabled : (afl.queueBuf q).disabled = false) : judged.Counted ∧ judged.FuzzedDisabled := by
  have unseen : (afl.queueBuf q).wasFuzzed = false := by
    cases seen : (afl.queueBuf q).wasFuzzed with
    | false => rfl
    | true => exact absurd (fuzzed q seen) (by simp [enabled])
  have out := And.intro (counted.retire_disable inQueue enabled unseen)
    (fuzzed.retire_disable (q := q))
  cases fault <;> simp only [judgeSeed] at judge
  case ok =>
    split at judge
    · cases judge
    · exact Option.some.inj judge ▸ ⟨counted, fuzzed⟩
  case tmout =>
    split at judge
    · obtain rfl := Option.some.inj judge
      have same : afl.SameMarks (afl.modify q fun entry => { entry with calFailed := calChances }) :=
        .modify q rfl
      exact ⟨(counted.of_same same).disable_retire (by simpa using inQueue) (by simpa using enabled)
        (by simpa using unseen), (fuzzed.of_same same).disable_retire⟩
    · split at judge
      · exact Option.some.inj judge ▸ out
      · cases judge
  case crash =>
    split at judge
    · exact Option.some.inj judge ▸ ⟨counted, fuzzed⟩
    · next plain =>
      split at judge
      · cases judge
      · next going =>
        split at judge
        · next kept =>
          have never := taken rfl
          simp_all [Settings.keepsCrashing]
        · exact Option.some.inj judge ▸ out
  case error => cases judge
  case noinst => cases judge
  case nobits => exact Option.some.inj judge ▸ ⟨counted, fuzzed⟩

theorem removeDuplicates_counted (counted : afl.Counted) (fuzzed : afl.FuzzedDisabled) :
    (removeDuplicates afl).Counted := by
  have both : (removeDuplicates afl).Counted ∧ (removeDuplicates afl).FuzzedDisabled := by
    apply removeDuplicates_induction (P := fun state => state.Counted ∧ state.FuzzedDisabled)
    · intro state q inQueue duplicate inv
      have enabled : (state.queueBuf q).disabled = false := by
        have comparable := duplicate.1
        simp only [QueueEntry.comparable, Bool.and_eq_true, Bool.not_eq_true'] at comparable
        exact comparable.1.1
      have unseen : (state.queueBuf q).wasFuzzed = false := by
        cases seen : (state.queueBuf q).wasFuzzed with
        | false => rfl
        | true => exact absurd (inv.2 q seen) (by simp [enabled])
      exact ⟨inv.1.retire_disable inQueue enabled unseen, inv.2.retire_disable⟩
    · exact ⟨counted, fuzzed⟩
  exact both.1

/-- `cull_queue` disables the entry, which it does without a look at the
counters. -/
def Afl.CullsOut (config : Config) (afl : Afl) (q : Nat) : Prop :=
  afl.scoreChanged = true ∧ config.nonInstrumentedMode = false ∧
    config.disableRedundant = true ∧ (afl.queueBuf q).disabled = false ∧
    (afl.queueBuf q).fsRedundant = false ∧ afl.Chosen config q = false

theorem cullQueue_disabled
    (owners : ∀ i < config.mapSize, ∀ q, afl.topRated i = some q → q < afl.queuedItems)
    (inQueue : q < afl.queuedItems) : ((cullQueue config afl).queueBuf q).disabled = true ↔
      (afl.queueBuf q).disabled = true ∨ afl.CullsOut config q := by
  cases changed : afl.scoreChanged with
  | false => simp [cullQueue_of_unchanged config afl changed, Afl.CullsOut, changed]
  | true =>
      cases plain : config.nonInstrumentedMode with
      | true => simp [cullQueue_of_nonInstrumented config afl plain, Afl.CullsOut, plain]
      | false =>
          rw [cullQueue_entry changed plain owners inQueue]
          unfold QueueEntry.culled
          cases disabled : (afl.queueBuf q).disabled with
          | true => simp [disabled]
          | false =>
              simp [disabled, Afl.CullsOut, changed, plain]
              tauto

theorem cullQueue_counters
    (owners : ∀ i < config.mapSize, ∀ q, afl.topRated i = some q → q < afl.queuedItems) :
    (cullQueue config afl).activeItems = afl.activeItems ∧
      (cullQueue config afl).pendingNotFuzzed = afl.pendingNotFuzzed := by
  have same := (afl.coverBytes_covers config owners).same
  have active : (afl.coverBytes config).afl.unfavored.activeItems = afl.unfavored.activeItems := by
    rw [same]
  have unfuzzed : (afl.coverBytes config).afl.unfavored.pendingNotFuzzed =
      afl.unfavored.pendingNotFuzzed := by
    rw [same]
  cases changed : afl.scoreChanged with
  | false => rw [cullQueue_of_unchanged config afl changed]; exact ⟨rfl, rfl⟩
  | true =>
      cases plain : config.nonInstrumentedMode with
      | true => rw [cullQueue_of_nonInstrumented config afl plain]; exact ⟨rfl, rfl⟩
      | false =>
          rw [cullQueue_of_changed config afl changed plain]
          exact ⟨active, unfuzzed⟩

theorem cullQueue_wasFuzzed
    (owners : ∀ i < config.mapSize, ∀ q, afl.topRated i = some q → q < afl.queuedItems) (q : Nat) :
    ((cullQueue config afl).queueBuf q).wasFuzzed = (afl.queueBuf q).wasFuzzed := by
  have same := Afl.wasFuzzed_of_unfavored (afl.coverBytes_covers config owners).same q
  cases changed : afl.scoreChanged with
  | false => rw [cullQueue_of_unchanged config afl changed]
  | true =>
      cases plain : config.nonInstrumentedMode with
      | true => rw [cullQueue_of_nonInstrumented config afl plain]
      | false =>
          rw [cullQueue_of_changed config afl changed plain]
          simp only
          split
          · rw [QueueEntry.culled_wasFuzzed, same]
          · exact same

theorem Afl.Counted.markFuzzed (counted : afl.Counted) (inQueue : q < afl.queuedItems)
    (stopSoon : Bool) : (afl.markFuzzed q stopSoon).Counted := by
  rcases afl.markFuzzed_cases q stopSoon with ⟨same, _⟩ | ⟨_, marks⟩
  · rwa [same]
  · have countedUnfuzzed := counted.unfuzzed
    have disabled : ∀ r, ((afl.markFuzzed q stopSoon).queueBuf r).disabled =
        (afl.queueBuf r).disabled := by
      intro r
      rw [marks.entries]
      split
      · next here => rw [here]
      · rfl
    constructor
    · simp only [marks.active, marks.items, disabled]
      exact counted.active
    · rw [marks.unfuzzed, marks.items]
      have left := count_eq_add_one
        (p := fun r => (afl.queueBuf r).disabled = false ∧ (afl.queueBuf r).wasFuzzed = false)
        (q := fun r => ((afl.markFuzzed q stopSoon).queueBuf r).disabled = false ∧
          ((afl.markFuzzed q stopSoon).queueBuf r).wasFuzzed = false)
        inQueue (fun r other => by rw [marks.entries, if_neg other]) ⟨marks.enabled, marks.unseen⟩
        (by simp [marks.entries])
      omega

/-- The loader counts the entries of the state that was saved. -/
theorem LoadedUpTo.counted {len : Nat → UInt32} {trace : Nat → UInt8} {resumed : Afl}
    (loaded : LoadedUpTo config len trace afl afl.queuedItems resumed) : resumed.Counted := by
  have marks : ∀ q < afl.queuedItems, (resumed.queueBuf q).disabled = (afl.queueBuf q).disabled ∧
      (resumed.queueBuf q).wasFuzzed = (afl.queueBuf q).wasFuzzed :=
    fun q inQueue => ⟨loaded.disabled inQueue, loaded.wasFuzzed inQueue⟩
  have active := loaded.active
  have unfuzzed := loaded.pendingNotFuzzed
  constructor
  · rw [loaded.items, count_congr fun q inQueue => by rw [(marks q inQueue).1]]
    have split := count_add_count_not (fun q => (afl.queueBuf q).disabled = true) afl.queuedItems
    simp only [Bool.not_eq_true] at split
    omega
  · rw [loaded.items, count_congr fun q inQueue => by
      rw [(marks q inQueue).1, (marks q inQueue).2]]
    have split := count_add_count_not (fun q => (afl.queueBuf q).wasFuzzed = true ∨
      (afl.queueBuf q).disabled = true) afl.queuedItems
    have same : Nat.count (fun q => (afl.queueBuf q).disabled = false ∧
        (afl.queueBuf q).wasFuzzed = false) afl.queuedItems = Nat.count (fun q =>
        ¬ ((afl.queueBuf q).wasFuzzed = true ∨ (afl.queueBuf q).disabled = true))
        afl.queuedItems :=
      count_congr fun q _ => by simp [and_comm]
    omega

/-- Unless it disables an entry, `cull_queue` keeps both counters right. -/
theorem Afl.Counted.cull (counted : afl.Counted)
    (owners : ∀ i < config.mapSize, ∀ q, afl.topRated i = some q → q < afl.queuedItems)
    (keeps : ∀ q < afl.queuedItems, ¬ afl.CullsOut config q) : (cullQueue config afl).Counted := by
  have items := cullQueue_queuedItems config afl owners
  have fuzzed := cullQueue_wasFuzzed owners
  have disabled : ∀ q < afl.queuedItems,
      ((cullQueue config afl).queueBuf q).disabled = (afl.queueBuf q).disabled := by
    intro q inQueue
    rw [Bool.eq_iff_iff, cullQueue_disabled owners inQueue, or_iff_left (keeps q inQueue)]
  have counters := cullQueue_counters owners
  constructor
  · rw [counters.1, items, counted.active]
    exact count_congr fun q inQueue => by rw [disabled q inQueue]
  · rw [counters.2, items, counted.unfuzzed]
    exact count_congr fun q inQueue => by rw [disabled q inQueue, fuzzed]

end

/-! ## Whole campaigns -/

section

variable {settings : Settings} {campaign next : Campaign}

structure Campaign.Counts (campaign : Campaign) : Prop where
  counted : campaign.afl.Counted
  seeds : campaign.phase.ofSeeds = true → campaign.afl.FuzzedDisabled

/-- The two steps that lose count are not taken: a crashing seed that is kept as
it brings no new crash, and a redundant entry that is disabled. -/
structure Campaign.KeepsCount (settings : Settings) (campaign : Campaign) (event : Event) :
    Prop where
  seed : ∀ execCksum trace newCrashBits traceAfter,
    event = .dryRun (.aborted .crash execCksum trace) newCrashBits traceAfter →
    campaign.stopSoon = true ∨ settings.keepsCrashing newCrashBits = false
  culled : campaign.Culls event →
    ∀ q < campaign.afl.queuedItems, ¬ campaign.afl.CullsOut settings.toConfig q

theorem Campaign.Counts.step {event : Event} (counts : campaign.Counts)
    (sound : campaign.Sound settings) (keeps : campaign.KeepsCount settings event)
    (stepped : campaign.step settings event = some next) : next.Counts := by
  have seeds := Campaign.step_ofSeeds stepped
  obtain ⟨surplus, refs, _⟩ := sound.refs
  cases Campaign.step_marks stepped with
  | quiet _ _ same =>
      exact ⟨counts.counted.of_same same, fun there => (counts.seeds (seeds there)).of_same same⟩
  | added _ _ len same =>
      exact ⟨(counts.counted.add len).of_same same,
        fun there => ((counts.seeds (seeds there)).add len).of_same same⟩
  | judged calibration newCrashBits traceAfter _ after idx fault judged here inQueue enabled called
      judge going there same =>
      have fuzzed := counts.seeds (by rw [here]; rfl)
      have tried := (calibrateCase_sameMarks called).trans
        (Afl.SameMarks.labelSeed (q := idx))
      have stop := calibrateCase_stopSoon called
      have kept : fault = .crash → settings.keepsCrashing newCrashBits = false := by
        rintro rfl
        rcases calibrateCase_cases called with
          ⟨execCksum, trace, rfl, _⟩ | ⟨_, _, _, _, _, expected, _⟩
        · rcases keeps.seed execCksum trace newCrashBits traceAfter rfl with stopped | kept
          · rw [stop, stopped] at going
            cases going
          · exact kept
        · have crashes : settings.crashMode = true := by
            rcases expected with ⟨never, _⟩ | same
            · cases never
            · by_contra plain
              simp [Settings.expected, plain] at same
          simp [Settings.keepsCrashing, crashes]
      obtain ⟨counted, disabled⟩ := judgeSeed_counted judge kept (counts.counted.of_same tried)
        (fuzzed.of_same tried) (by rwa [tried.items]) (by rwa [tried.disabled])
      exact ⟨counted.of_same same, fun _ => disabled.of_same same⟩
  | deduplicated _ idx here done afl there =>
      have fuzzed := counts.seeds (by rw [here]; rfl)
      refine ⟨afl ▸ removeDuplicates_counted counts.counted fuzzed, fun later => ?_⟩
      rw [there] at later
      cases later
  | culled _ _ culls afl =>
      have owners : ∀ i < settings.mapSize, ∀ q, campaign.afl.topRated i = some q →
          q < campaign.afl.queuedItems := fun i _ q holds => (refs.inRange i q holds).2
      refine ⟨?_, fun there => ?_⟩
      · rw [afl]
        exact counts.counted.cull owners (keeps.culled culls)
      · have here := culls.phase
        have never := seeds there
        rcases here with here | here
        · rw [here] at never
          cases never
        · rw [here] at never
          cases never
  | abandoned _ _ fuzz middle here original before after =>
      have inQueue := sound.working fuzz here
      have marked := (counts.counted.of_same before).markFuzzed (by rwa [before.items])
        campaign.stopSoon
      refine ⟨marked.of_same after, fun there => ?_⟩
      have never := seeds there
      cases phase : campaign.phase <;> simp_all [Phase.fuzzOne, Phase.ofSeeds]
  | restarted schedule len trace here =>
      have loaded := sound.loaded schedule len trace
      exact ⟨loaded.counted, fun there => Bool.noConfusion there⟩

end

/-- In every campaign that keeps count, `active_items` is the number of enabled
entries and `pending_not_fuzzed` the number of those that are not fuzzed. -/
theorem campaign_counts (settings : Settings) (schedule : Schedule) {events : List Event}
    {final : Campaign}
    (admitted : (campaignMachine settings schedule).Admitted (Campaign.KeepsCount settings)
      (campaignMachine settings schedule).initial events)
    (ran : (campaignMachine settings schedule).run events = some final) :
    final.afl.activeItems =
      Nat.count (fun q => (final.afl.queueBuf q).disabled = false) final.afl.queuedItems ∧
    final.afl.pendingNotFuzzed = Nat.count (fun q =>
      (final.afl.queueBuf q).disabled = false ∧ (final.afl.queueBuf q).wasFuzzed = false)
      final.afl.queuedItems := by
  have kept : final.Sound settings ∧ final.Counts := by
    apply (campaignMachine settings schedule).runFrom_invariant_of_admitted
      (fun campaign => campaign.Sound settings ∧ campaign.Counts) _ _ admitted ran
    · intro campaign event next inv keeps stepped
      exact ⟨inv.1.step stepped, inv.2.step inv.1 keeps stepped⟩
    · refine ⟨campaignMachine_sound settings schedule, ⟨?_, ?_⟩, fun _ q fuzzed => ?_⟩
      · simp [campaignMachine, Afl.initial]
      · simp [campaignMachine, Afl.initial]
      · exact Bool.noConfusion fuzzed
  exact ⟨kept.2.counted.active, kept.2.counted.unfuzzed⟩

/-- Two seeds that touch the same byte; the second one is slower. -/
def twoSeedsRun : List Event :=
  [.seed 4, .seed 4, .advance,
    .dryRun (.completed true 5 7 fun i => if i = 0 then 1 else 0) false (fun _ => 0),
    .dryRun (.completed true 6 9 fun i => if i = 0 then 1 else 0) false (fun _ => 0),
    .advance, .launch 0]

theorem campaign_counts_twoSeeds :
    ∃ final, (campaignMachine (.plain 8 rfl) .explore).run twoSeedsRun = some final ∧
      final.afl.activeItems =
        Nat.count (fun q => (final.afl.queueBuf q).disabled = false) final.afl.queuedItems := by
  have admitted : (campaignMachine (.plain 8 rfl) .explore).Admitted
      (Campaign.KeepsCount (.plain 8 rfl)) (campaignMachine (.plain 8 rfl) .explore).initial
      twoSeedsRun := by
    apply Systems.Machine.admitted_of_forall
    intro campaign event member
    refine ⟨fun execCksum trace newCrashBits traceAfter same => ?_, fun _ q _ out => ?_⟩
    · subst same
      simp [twoSeedsRun] at member
    · exact nomatch out.2.2.1
  have outcome : ((campaignMachine (.plain 8 rfl) .explore).run twoSeedsRun).isSome = true := by
    decide +kernel
  obtain ⟨final, ran⟩ := Option.isSome_iff_exists.mp outcome
  exact ⟨final, ran, (campaign_counts (.plain 8 rfl) .explore admitted ran).1⟩

theorem disableRedundant_losesCount :
    ¬ ∀ (settings : Settings) (schedule : Schedule) (final : Campaign),
      (campaignMachine settings schedule).Reachable final →
      final.afl.activeItems = Nat.count (fun q => (final.afl.queueBuf q).disabled = false)
        final.afl.queuedItems := by
  intro holds
  let settings : Settings := { Settings.plain 8 rfl with disableRedundant := true }
  have outcome : ((campaignMachine settings .explore).run twoSeedsRun).map
      (fun final => (final.afl.activeItems, Nat.count (fun q =>
        (final.afl.queueBuf q).disabled = false) final.afl.queuedItems)) = some (2, 1) := by
    decide +kernel
  obtain ⟨final, ran, seen⟩ := Option.map_eq_some_iff.mp outcome
  obtain ⟨active, counted⟩ := Prod.mk.inj seen
  have same := holds settings .explore final ⟨twoSeedsRun, ran⟩
  exact absurd (active.symm.trans (same.trans counted)) (by decide)

end SbFuzz.Fuzzer
