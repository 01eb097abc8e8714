import SbFuzz.Fuzzer.CampaignCounters

/-! Favored entries over whole campaigns: the counters that go with them, and
when the bytes that have a top-rated entry are covered by entries that can be
scheduled. -/

set_option autoImplicit false

namespace SbFuzz.Fuzzer

open SbFuzz.Systems

/-! ## Counters -/

section

variable {before after afl : Afl} {config : Config} {q : Nat}

theorem Afl.Tallied.of_same (same : before.SameMarks after) (tallied : before.Tallied) :
    after.Tallied := by
  constructor
  · simp only [same.queuedFavored, same.items, same.favored]
    exact tallied.queued
  · simp only [same.pending, same.items, same.favored, same.wasFuzzed]
    exact tallied.pending

/-- While nothing is favored, entries may be taken out. -/
theorem Afl.Tallied.of_none (same : before.SameFavored after) (tallied : before.Tallied)
    (none : ∀ q < before.queuedItems, (before.queueBuf q).favored = false) : after.Tallied := by
  have noneAfter : ∀ q < after.queuedItems, (after.queueBuf q).favored = false :=
    fun q inQueue => (same.favored q).trans (none q (same.items ▸ inQueue))
  have queued : before.queuedFavored = 0 := by
    rw [tallied.queued]
    exact Nat.count_of_forall_not fun q inQueue => by simp [none q inQueue]
  have pending : before.pendingFavored = 0 := by
    rw [tallied.pending]
    exact Nat.count_of_forall_not fun q inQueue => by simp [none q inQueue]
  constructor
  · rw [same.queued, queued]
    exact (Nat.count_of_forall_not fun q inQueue => by simp [noneAfter q inQueue]).symm
  · rw [same.pending, pending]
    exact (Nat.count_of_forall_not fun q inQueue => by simp [noneAfter q inQueue]).symm

theorem Afl.Tallied.add (tallied : afl.Tallied) (len : UInt32) : (addToQueue afl len).Tallied := by
  have items : (addToQueue afl len).queuedItems = afl.queuedItems + 1 := rfl
  have old := fun q (inQueue : q < afl.queuedItems) => addToQueue_queueBuf_old len inQueue
  have new := addToQueue_queueBuf_new afl len
  constructor
  · rw [items, Nat.count_succ, count_congr fun q inQueue => by rw [old q inQueue], new,
      ← tallied.queued]
    rfl
  · rw [items, Nat.count_succ, count_congr fun q inQueue => by rw [old q inQueue], new,
      ← tallied.pending]
    rfl

/-- A favored entry that is fuzzed is no longer pending. -/
theorem Afl.Tallied.markFuzzed (tallied : afl.Tallied) (inQueue : q < afl.queuedItems)
    (stopSoon : Bool) : (afl.markFuzzed q stopSoon).Tallied := by
  rcases afl.markFuzzed_cases q stopSoon with ⟨same, _⟩ | ⟨_, marks⟩
  · rwa [same]
  · have favored : ∀ r, ((afl.markFuzzed q stopSoon).queueBuf r).favored =
        (afl.queueBuf r).favored := by
      intro r
      rw [marks.entries]
      split
      · next here => rw [here]
      · rfl
    have others : ∀ r, r ≠ q → ((afl.queueBuf r).favored = true ∧
        (afl.queueBuf r).wasFuzzed = false ↔
        ((afl.markFuzzed q stopSoon).queueBuf r).favored = true ∧
        ((afl.markFuzzed q stopSoon).queueBuf r).wasFuzzed = false) :=
      fun r other => by rw [marks.entries, if_neg other]
    constructor
    · simp only [marks.queued, marks.items, favored]
      exact tallied.queued
    · have changed := count_add_indicator inQueue others
      have now : ((afl.markFuzzed q stopSoon).queueBuf q).wasFuzzed = true := by
        rw [marks.entries, if_pos rfl]
      have before := tallied.pending
      simp only [now, marks.unseen, Bool.true_eq_false, and_false, and_true, if_false,
        add_zero] at changed
      rw [marks.pending, marks.items]
      omega

theorem cullQueue_keepsTallied (tallied : afl.Tallied)
    (owners : ∀ i < config.mapSize, ∀ q, afl.topRated i = some q → q < afl.queuedItems) :
    (cullQueue config afl).Tallied := by
  cases changed : afl.scoreChanged with
  | false => rwa [cullQueue_of_unchanged config afl changed]
  | true =>
      cases plain : config.nonInstrumentedMode with
      | true => rwa [cullQueue_of_nonInstrumented config afl plain]
      | false => exact (cullQueue_tallied changed plain owners).1

theorem LoadedUpTo.tallied {len : Nat → UInt32} {trace : Nat → UInt8} {resumed : Afl}
    (loaded : LoadedUpTo config len trace afl afl.queuedItems resumed) : resumed.Tallied := by
  constructor
  · rw [loaded.queuedFavored, loaded.items]
    exact count_congr fun q inQueue => by rw [loaded.favored inQueue]
  · rw [loaded.pendingFavored, loaded.items]
    exact count_congr fun q inQueue => by rw [loaded.favored inQueue, loaded.wasFuzzed inQueue]

end

/-! ## Who loses what -/

/-- The process ends and another one goes on. -/
def Event.restarts : Event → Bool
  | .restart .. => true
  | _ => false

/-- `q` wins byte `i` in this step. -/
def Campaign.Takes (settings : Settings) (campaign : Campaign) (event : Event) (q i : Nat) : Prop :=
  i < settings.mapSize ∧
    ((∃ trace, campaign.Executes q trace event ∧
        Afl.Wins settings.toConfig { (campaign.atScore q event).afl with traceBits := trace } q i) ∨
      event = .advance ∧ campaign.phase = .rescoring q ∧
        campaign.afl.Wins settings.toConfig q i)

/-- The dry run gives up `q`, or `q` is a duplicate there, or `cull_queue`
disables it. -/
inductive Campaign.TakesOut (settings : Settings) (campaign : Campaign) (q : Nat) : Event → Prop
  | seed (fault : Fault) (execCksum : UInt64) (trace : Nat → UInt8) (newCrashBits : Bool)
      (traceAfter : Nat → UInt8) (here : campaign.phase = .dryRun q) :
      TakesOut settings campaign q (.dryRun (.aborted fault execCksum trace) newCrashBits traceAfter)
  | duplicate (idx : Nat) (here : campaign.phase = .dryRun idx)
      (done : campaign.afl.queuedItems ≤ idx) (duplicate : campaign.afl.Duplicate q) : TakesOut settings campaign q .advance
  | redundant (event : Event) (culls : campaign.Culls event)
      (redundant : campaign.afl.CullsOut settings.toConfig q) : TakesOut settings campaign q event

/-- How many seeds were tried out. -/
def Phase.seedsDone : Phase → Option Nat
  | .seeding => some 0
  | .dryRun idx => some idx
  | _ => none

theorem Phase.ofSeeds_of_seedsDone {phase : Phase} {n : Nat} (done : phase.seedsDone = some n) :
    phase.ofSeeds = true := by
  cases phase <;> first | rfl | cases done

section

variable {settings : Settings} {campaign next : Campaign} {event : Event}

theorem Campaign.step_favored (stepped : campaign.step settings event = some next)
    (calm : ¬ campaign.Culls event) (goesOn : event.restarts = false) {q : Nat} (inQueue : q < campaign.afl.queuedItems) :
    (next.afl.queueBuf q).favored = (campaign.afl.queueBuf q).favored := by
  cases Campaign.step_marks stepped with
  | quiet _ _ same => exact same.favored q
  | added _ _ len same => rw [same.favored, addToQueue_queueBuf_old len inQueue]
  | judged _ _ _ _ after idx fault judged here inQueue enabled called judge going there same =>
      have kept := Afl.SameFavored.judgeSeed judge
      rw [same.favored, kept.favored, Afl.SameMarks.labelSeed.favored,
        (calibrateCase_sameMarks called).favored]
  | deduplicated _ idx here done afl there =>
      rw [afl, (Afl.SameFavored.removeDuplicates campaign.afl).favored]
  | culled _ _ culls afl => exact absurd culls calm
  | abandoned _ _ fuzz middle here original before after =>
      rw [after.favored, ← before.favored]
      rcases middle.markFuzzed_cases fuzz.entry campaign.stopSoon with ⟨same, _⟩ | ⟨_, marks⟩
      · rw [same]
      · rw [marks.entries]
        split
        · next marked => rw [marked]
        · rfl
  | restarted schedule len trace here => cases goesOn

section

variable (sound : campaign.Sound settings) (stepped : campaign.step settings event = some next)

include sound stepped

theorem Campaign.step_topRated (goesOn : event.restarts = false) {i q : Nat}
    (holds : next.afl.topRated i = some q) :
    campaign.afl.topRated i = some q ∨ campaign.Takes settings event q i := by
  cases Campaign.step_scores sound stepped with
  | quiet _ _ same scored => exact .inl (same.tops ▸ holds)
  | executed _ _ r trace executes before same inQueue after scored =>
      rw [after.tops] at holds
      simp only [Campaign.score] at holds
      have tops := updateBitmapScore_topRated settings.toConfig
        { (campaign.atScore r event).afl with traceBits := trace } r i
      by_cases wins : i < settings.mapSize ∧ Afl.Wins settings.toConfig
          { (campaign.atScore r event).afl with traceBits := trace } r i
      · rw [tops.1 wins] at holds
        obtain rfl := Option.some.inj holds
        exact .inr ⟨wins.1, .inl ⟨trace, executes, wins.2⟩⟩
      · rw [tops.2 wins] at holds
        exact .inl (before.tops ▸ holds)
  | rescored _ idx here inQueue enabled afl scored =>
      rw [afl] at holds
      have tops := updateBitmapScore_topRated settings.toConfig campaign.afl idx i
      by_cases wins : i < settings.mapSize ∧ campaign.afl.Wins settings.toConfig idx i
      · rw [tops.1 wins] at holds
        obtain rfl := Option.some.inj holds
        exact .inr ⟨wins.1, .inr ⟨rfl, here, wins.2⟩⟩
      · rw [tops.2 wins] at holds
        exact .inl holds
  | culled _ _ culls afl scored =>
      obtain ⟨surplus, refs, _⟩ := sound.refs
      rw [afl, (Afl.SameTops.cullQueue refs).tops] at holds
      exact .inl holds
  | restarted schedule len trace here => cases goesOn

/-- As long as `score_changed` is not set no entry has won a byte. -/
theorem Campaign.step_unchanged (calm : ¬ campaign.Culls event) (goesOn : event.restarts = false)
    (quiet : next.afl.scoreChanged = false) :
    campaign.afl.scoreChanged = false ∧ campaign.afl.SameTops next.afl := by
  cases Campaign.step_scores sound stepped with
  | quiet _ _ same scored => exact ⟨same.changed ▸ quiet, same.toSameTops⟩
  | executed _ _ q trace executes before same inQueue after scored =>
      rw [after.changed] at quiet
      have nothing := updateBitmapScore_scoreChanged quiet
      have unchanged : ((campaign.atScore q event).score settings q trace).afl =
          { (campaign.atScore q event).afl with traceBits := trace } := nothing
      have traced := before.trans (.withTrace (campaign.atScore q event).afl trace)
      rw [unchanged] at quiet after
      exact ⟨traced.changed ▸ quiet, (traced.trans after).toSameTops⟩
  | rescored _ idx here inQueue enabled afl scored =>
      rw [afl] at quiet ⊢
      have nothing := updateBitmapScore_scoreChanged quiet
      rw [nothing] at quiet ⊢
      exact ⟨quiet, .refl⟩
  | culled _ _ culls afl scored => exact absurd culls calm
  | restarted schedule len trace here => cases goesOn

theorem Campaign.step_disabled (goesOn : event.restarts = false) {q : Nat}
    (inQueue : q < next.afl.queuedItems) (disabled : (next.afl.queueBuf q).disabled = true) :
    q < campaign.afl.queuedItems ∧ (campaign.afl.queueBuf q).disabled = true ∨
      campaign.TakesOut settings q event := by
  obtain ⟨surplus, refs, _⟩ := sound.refs
  cases Campaign.step_marks stepped with
  | quiet _ _ same => exact .inl ⟨same.items ▸ inQueue, same.disabled q ▸ disabled⟩
  | added _ _ len same =>
      rw [same.items] at inQueue
      rw [same.disabled] at disabled
      rcases Nat.lt_succ_iff_lt_or_eq.mp inQueue with old | rfl
      · rw [addToQueue_queueBuf_old len old] at disabled
        exact .inl ⟨old, disabled⟩
      · rw [addToQueue_queueBuf_new] at disabled
        cases disabled
  | judged calibration newCrashBits traceAfter _ after idx fault judged here inRange enabled called
      judge going there same =>
      have tried := (calibrateCase_sameMarks called).trans (Afl.SameMarks.labelSeed (q := idx))
      have items := (Afl.SameFavored.judgeSeed judge).items
      rw [same.items, items, tried.items] at inQueue
      rw [same.disabled] at disabled
      rcases calibrateCase_cases called with
        ⟨execCksum, trace, rfl, _⟩ | ⟨_, _, _, _, _, calibrated, _⟩
      · by_cases given : q = idx
        · exact .inr (.seed fault execCksum trace newCrashBits traceAfter (given ▸ here))
        · rw [judgeSeed_queueBuf_of_ne judge given, tried.disabled] at disabled
          exact .inl ⟨inQueue, disabled⟩
      · rw [judgeSeed_of_calibrated judge calibrated, tried.disabled] at disabled
        exact .inl ⟨inQueue, disabled⟩
  | deduplicated _ idx here done afl there =>
      rw [afl] at inQueue disabled
      rw [(Afl.SameFavored.removeDuplicates campaign.afl).items] at inQueue
      rcases removeDuplicates_disabled disabled with before | duplicate
      · exact .inl ⟨inQueue, before⟩
      · exact .inr (.duplicate idx here done duplicate)
  | culled _ _ culls afl =>
      have owners : ∀ i < settings.mapSize, ∀ q, campaign.afl.topRated i = some q →
          q < campaign.afl.queuedItems := fun i _ q holds => (refs.inRange i q holds).2
      rw [afl] at inQueue disabled
      rw [cullQueue_queuedItems _ _ owners] at inQueue
      rcases (cullQueue_disabled owners inQueue).mp disabled with before | redundant
      · exact .inl ⟨inQueue, before⟩
      · exact .inr (.redundant event culls redundant)
  | abandoned _ _ fuzz middle here original before after =>
      rw [after.items, Afl.markFuzzed_queuedItems, before.items] at inQueue
      rw [after.disabled] at disabled
      refine .inl ⟨inQueue, ?_⟩
      rw [← before.disabled]
      rcases middle.markFuzzed_cases fuzz.entry campaign.stopSoon with ⟨same, _⟩ | ⟨_, marks⟩
      · rwa [same] at disabled
      · rw [marks.entries] at disabled
        split at disabled
        · next marked => rwa [marked]
        · exact disabled
  | restarted schedule len trace here => cases goesOn

end

/-- Seeds that were not tried out yet have not been executed. -/
theorem Campaign.step_seedsDone (stepped : campaign.step settings event = some next) {n : Nat}
    (there : next.phase.seedsDone = some n) :
    ∃ m ≤ n, campaign.phase.seedsDone = some m ∧ ∀ q i, campaign.Takes settings event q i → q < n := by
  have here := Campaign.step_ofSeeds stepped (Phase.ofSeeds_of_seedsDone there)
  cases event with
  | interrupt =>
      obtain rfl := Option.some.inj stepped
      exact ⟨n, le_rfl, there, fun q i takes => absurd takes.2 (by simp [Campaign.Executes])⟩
  | seed len =>
      obtain ⟨_, rfl⟩ := Campaign.step_seed stepped
      exact ⟨n, le_rfl, there, fun q i takes => absurd takes.2 (by simp [Campaign.Executes])⟩
  | dryRun calibration newCrashBits traceAfter =>
      obtain ⟨idx, now, inQueue, enabled, ran⟩ := Campaign.step_dryRun stepped
      obtain ⟨after, fault, called, ending⟩ := Campaign.dryRunSeed_cases ran
      rcases ending with rfl | ⟨judged, judge, going, rfl⟩
      · cases there
      · obtain rfl := Option.some.inj there
        refine ⟨idx, Nat.le_succ idx, by rw [now]; rfl, fun q i takes => ?_⟩
        rcases takes.2 with ⟨trace, executes, _⟩ | ⟨never, _⟩
        · cases calibration with
          | aborted fault execCksum given => cases executes
          | completed newBits execUs execCksum given =>
              obtain rfl := Phase.dryRun.inj (now.symm.trans executes.1)
              exact Nat.lt_succ_self idx
        · cases never
  | advance =>
      have quiet : ∀ q i, campaign.phase.ofSeeds = true →
          ¬ campaign.Takes settings .advance q i := by
        rintro q i seeds ⟨_, ⟨trace, never, _⟩ | ⟨_, later, _⟩⟩
        · cases never
        · rw [later] at seeds
          cases seeds
      have none := fun q i => quiet q i here
      cases Campaign.step_advance stepped with
      | seeded phase now nonempty later =>
          rcases later with rfl | rfl
          · cases there
          · obtain rfl := Option.some.inj there
            exact ⟨0, le_rfl, by rw [now]; rfl, fun q i takes => absurd takes (none q i)⟩
      | seedSkipped idx now inQueue =>
          obtain rfl := Option.some.inj there
          exact ⟨idx, Nat.le_succ idx, by rw [now]; rfl,
            fun q i takes => absurd takes (none q i)⟩
      | seedsDone idx now done => cases there
      | stopped now stop => cases there
      | culled _ now going afl scored stop current later =>
          rw [now] at here
          cases here
      | imported now => cases there
      | cycled _ now afl scored stop current later =>
          rw [now] at here
          cases here
      | passedOver idx now disabled => cases there
      | rescored idx now inQueue enabled => cases there
      | allRescored idx now done => cases there
      | gaveUp fuzz now failed =>
          rw [now] at here
          cases here
  | launch seekTo =>
      rw [(Campaign.step_launch stepped).1] at here
      cases here
  | find finding =>
      rcases (Campaign.step_find stepped).1 with ⟨newCycle, now⟩ | ⟨fuzz, now⟩
      · rw [now] at here
        cases here
      · rw [now] at here
        cases here
  | run trace nFuzz =>
      obtain rfl := Campaign.step_run stepped
      exact ⟨n, le_rfl, there, fun q i takes => absurd takes.2 (by simp [Campaign.Executes])⟩
  | select entry =>
      rw [(Campaign.step_select stepped).1] at here
      cases here
  | enter queueGet skip =>
      obtain ⟨fuzz, now, _⟩ := Campaign.step_enter stepped
      rw [now] at here
      cases here
  | pass =>
      obtain ⟨fuzz, now, _⟩ := Campaign.step_pass stepped
      rw [now] at here
      cases here
  | calibrate calibration =>
      obtain ⟨fuzz, now, _⟩ := Campaign.step_calibrate stepped
      rw [now] at here
      cases here
  | trimmed len trace =>
      obtain ⟨fuzz, now, _⟩ := Campaign.step_trimmed stepped
      rw [now] at here
      cases here
  | trimEnd len trace =>
      obtain ⟨fuzz, now, _⟩ := Campaign.step_trimEnd stepped
      rw [now] at here
      cases here
  | abandon completed =>
      obtain ⟨fuzz, now, _⟩ := Campaign.step_abandon stepped
      rw [now] at here
      cases here
  | restart schedule len trace =>
      rw [(Campaign.step_restart stepped).1] at here
      cases here

end

/-! ## What campaigns keep of the cover -/

/-- Byte `i` is covered: its top-rated entry is favored, or its bit is in the
minimised trace of another favored entry. -/
def Afl.Covered (afl : Afl) (i q : Nat) : Prop :=
  ∃ r < afl.queuedItems, (afl.queueBuf r).favored = true ∧ (r = q ∨ (afl.queueBuf r).Traces i)

/-- The counters agree with the marks, nothing is favored before the first cull,
and no seed holds a byte before its turn. -/
structure Campaign.Tallies (campaign : Campaign) : Prop where
  tallied : campaign.afl.Tallied
  seeds : campaign.phase.ofSeeds = true →
    ∀ q < campaign.afl.queuedItems, (campaign.afl.queueBuf q).favored = false
  order : ∀ n, campaign.phase.seedsDone = some n → ∀ i q, campaign.afl.topRated i = some q → q < n

structure Campaign.Favors (settings : Settings) (campaign : Campaign) : Prop where
  disabled : ∀ q < campaign.afl.queuedItems, (campaign.afl.queueBuf q).disabled = true →
    (campaign.afl.queueBuf q).favored = false
  owners : ∀ i q, campaign.afl.topRated i = some q →
    (campaign.afl.queueBuf q).disabled = false ∧ settings.nonInstrumentedMode = false
  covered : campaign.afl.scoreChanged = false → ∀ i q, campaign.afl.topRated i = some q →
    campaign.afl.Covered i q

/-- No entry that holds a byte is disabled, and no entry that is disabled gets
a byte. Without instrumentation there is no byte to get. -/
structure Campaign.KeepsOwners (settings : Settings) (campaign : Campaign) (event : Event) :
    Prop where
  duplicates : ∀ idx, event = .advance → campaign.phase = .dryRun idx →
    campaign.afl.queuedItems ≤ idx → ∀ i q, campaign.afl.topRated i = some q →
    ¬ campaign.afl.Duplicate q
  culled : campaign.Culls event → ∀ i q, campaign.afl.topRated i = some q →
    ¬ campaign.afl.CullsOut settings.toConfig q
  taken : ∀ q i, campaign.Takes settings event q i → settings.nonInstrumentedMode = false ∧
    (q < campaign.afl.queuedItems → (campaign.afl.queueBuf q).disabled = false)
  resumed : ∀ schedule len trace, event = .restart schedule len trace → ∀ i q,
    (campaign.restart settings schedule len trace).afl.topRated i = some q →
    settings.nonInstrumentedMode = false ∧ (campaign.afl.queueBuf q).disabled = false

section

variable {settings : Settings} {campaign next : Campaign} {event : Event}

theorem Campaign.Tallies.tallied_step (tallies : campaign.Tallies)
    (sound : campaign.Sound settings) (stepped : campaign.step settings event = some next) :
    next.afl.Tallied := by
  obtain ⟨surplus, refs, _⟩ := sound.refs
  cases Campaign.step_marks stepped with
  | quiet _ _ same => exact tallies.tallied.of_same same
  | added _ _ len same => exact (tallies.tallied.add len).of_same same
  | judged _ _ _ _ after idx fault judged here inQueue enabled called judge going there same =>
      have tried := (calibrateCase_sameMarks called).trans (Afl.SameMarks.labelSeed (q := idx))
      have all := (tried.sameFavored.trans (.judgeSeed judge)).trans same.sameFavored
      exact tallies.tallied.of_none all (tallies.seeds (by rw [here]; rfl))
  | deduplicated _ idx here done afl there =>
      exact tallies.tallied.of_none (afl ▸ .removeDuplicates campaign.afl)
        (tallies.seeds (by rw [here]; rfl))
  | culled _ _ culls afl =>
      exact afl ▸ cullQueue_keepsTallied tallies.tallied
        fun i _ q holds => (refs.inRange i q holds).2
  | abandoned _ _ fuzz middle here original before after =>
      have inQueue := sound.working fuzz here
      have marked := (tallies.tallied.of_same before).markFuzzed (before.items ▸ inQueue)
        campaign.stopSoon
      exact marked.of_same after
  | restarted schedule len trace here =>
      exact (sound.loaded schedule len trace).tallied

/-- An entry behind the old end of the queue is new. -/
theorem Campaign.step_new (stepped : campaign.step settings event = some next)
    (goesOn : event.restarts = false) (sound : campaign.Sound settings) {q : Nat}
    (beyond : campaign.afl.queuedItems ≤ q) (inQueue : q < next.afl.queuedItems) :
    (next.afl.queueBuf q).favored = false := by
  obtain ⟨surplus, refs, _⟩ := sound.refs
  cases Campaign.step_marks stepped with
  | quiet _ _ same => exact absurd (same.items ▸ inQueue) (Nat.not_lt.mpr beyond)
  | added _ _ len same =>
      rw [same.items] at inQueue
      obtain rfl : q = campaign.afl.queuedItems :=
        Nat.le_antisymm (Nat.lt_succ_iff.mp inQueue) beyond
      rw [same.favored, addToQueue_queueBuf_new]
      rfl
  | judged _ _ _ _ after idx fault judged here _ enabled called judge going there same =>
      have tried := (calibrateCase_sameMarks called).trans (Afl.SameMarks.labelSeed (q := idx))
      have all := (tried.sameFavored.trans (.judgeSeed judge)).trans same.sameFavored
      exact absurd (all.items ▸ inQueue) (Nat.not_lt.mpr beyond)
  | deduplicated _ idx here done afl there =>
      rw [afl, (Afl.SameFavored.removeDuplicates campaign.afl).items] at inQueue
      exact absurd inQueue (Nat.not_lt.mpr beyond)
  | culled _ _ culls afl =>
      rw [afl, cullQueue_queuedItems _ _ fun i _ q holds => (refs.inRange i q holds).2] at inQueue
      exact absurd inQueue (Nat.not_lt.mpr beyond)
  | abandoned _ _ fuzz middle here original before after =>
      rw [after.items, Afl.markFuzzed_queuedItems, before.items] at inQueue
      exact absurd inQueue (Nat.not_lt.mpr beyond)
  | restarted schedule len trace here => cases goesOn

/-- Right after `cull_queue` only enabled entries are favored. -/
theorem cullQueue_keepsDisabled {config : Config} {afl : Afl}
    (inRange : ∀ i q, afl.topRated i = some q → i < config.mapSize ∧ q < afl.queuedItems)
    (enabled : ∀ i q, afl.topRated i = some q → (afl.queueBuf q).disabled = false)
    (before : ∀ q < afl.queuedItems, (afl.queueBuf q).disabled = true →
      (afl.queueBuf q).favored = false)
    {q : Nat} (inQueue : q < afl.queuedItems)
    (disabled : ((cullQueue config afl).queueBuf q).disabled = true) :
    ((cullQueue config afl).queueBuf q).favored = false := by
  have owners : ∀ i < config.mapSize, ∀ q, afl.topRated i = some q → q < afl.queuedItems :=
    fun i _ q holds => (inRange i q holds).2
  cases changed : afl.scoreChanged with
  | false =>
      rw [cullQueue_of_unchanged config afl changed] at disabled ⊢
      exact before q inQueue disabled
  | true =>
      cases plain : config.nonInstrumentedMode with
      | true =>
          rw [cullQueue_of_nonInstrumented config afl plain] at disabled ⊢
          exact before q inQueue disabled
      | false =>
          have entry := cullQueue_entry changed plain owners inQueue
          rw [entry, QueueEntry.culled_favored]
          simp only
          by_contra chosen
          have chosen : afl.Chosen config q = true := by simpa using chosen
          obtain ⟨i, _, holds⟩ := (afl.coverBytes_covers config owners).earned q inQueue chosen
          rcases (cullQueue_disabled owners inQueue).mp disabled with already | redundant
          · rw [enabled i q holds] at already
            cases already
          · rw [redundant.2.2.2.2.2] at chosen
            cases chosen

theorem cullQueue_covered {config : Config} {afl : Afl}
    (inRange : ∀ i q, afl.topRated i = some q → i < config.mapSize ∧ q < afl.queuedItems)
    (plain : config.nonInstrumentedMode = false)
    (before : afl.scoreChanged = false → ∀ i q, afl.topRated i = some q → afl.Covered i q)
    {i q : Nat} (holds : afl.topRated i = some q) : (cullQueue config afl).Covered i q := by
  have owners : ∀ i < config.mapSize, ∀ q, afl.topRated i = some q → q < afl.queuedItems :=
    fun i _ q holds => (inRange i q holds).2
  cases changed : afl.scoreChanged with
  | false =>
      rw [cullQueue_of_unchanged config afl changed]
      exact before changed i q holds
  | true =>
      have covers := afl.coverBytes_covers config owners
      have items := cullQueue_queuedItems config afl owners
      rcases covers.chosen i (inRange i q holds).1 q holds with favored | covered
      · have inQueue := (inRange i q holds).2
        refine ⟨q, items ▸ inQueue, ?_, .inl rfl⟩
        rw [cullQueue_entry changed plain owners inQueue, QueueEntry.culled_favored]
        exact favored
      · obtain ⟨r, inQueue, favored, traces⟩ := covered.culled changed plain owners
        exact ⟨r, inQueue, favored, .inr traces⟩

theorem Campaign.Culls.not_takes {q i : Nat} (culls : campaign.Culls event) :
    ¬ campaign.Takes settings event q i := by
  rintro ⟨_, ⟨trace, executes, _⟩ | ⟨rfl, later, _⟩⟩
  · cases event with
    | launch seekTo => cases executes
    | advance => cases executes
    | _ => cases culls
  · cases culls.1.symm.trans later

/-- Who holds a byte after a step holds an enabled entry. -/
theorem Campaign.Favors.owners_step (favors : campaign.Favors settings)
    (tallies : campaign.Tallies) (sound : campaign.Sound settings) (keeps : campaign.KeepsOwners settings event)
    (stepped : campaign.step settings event = some next) (i q : Nat)
    (holds : next.afl.topRated i = some q) :
    (next.afl.queueBuf q).disabled = false ∧ settings.nonInstrumentedMode = false := by
  obtain ⟨_, refsAfter, _⟩ := (sound.step stepped).refs
  have inQueue := (refsAfter.inRange i q holds).2
  cases goesOn : event.restarts with
  | true =>
      cases event with
      | restart schedule len trace =>
          obtain ⟨_, rfl⟩ := Campaign.step_restart stepped
          obtain ⟨plain, enabled⟩ := keeps.resumed schedule len trace rfl i q holds
          have loaded := sound.loaded schedule len trace
          exact ⟨(loaded.disabled (loaded.items ▸ inQueue)).trans enabled, plain⟩
      | _ => cases goesOn
  | false =>
      have holder := Campaign.step_topRated sound stepped goesOn holds
      have enabledBefore : q < campaign.afl.queuedItems →
          (campaign.afl.queueBuf q).disabled = false := by
        rcases holder with old | takes
        · exact fun _ => (favors.owners i q old).1
        · exact (keeps.taken q i takes).2
      have instrumented : settings.nonInstrumentedMode = false := by
        rcases holder with old | takes
        · exact (favors.owners i q old).2
        · exact (keeps.taken q i takes).1
      refine ⟨?_, instrumented⟩
      by_contra disabled
      rcases Campaign.step_disabled sound stepped goesOn inQueue (by simpa using disabled) with
        ⟨earlier, already⟩ | out
      · rw [enabledBefore earlier] at already
        cases already
      · have held : ∀ i, campaign.afl.topRated i = some q ∨ campaign.Takes settings event q i →
            False := by
          cases out with
          | seed fault execCksum trace newCrashBits traceAfter here =>
              rintro i (old | takes)
              · exact absurd (tallies.order q (by rw [here]; rfl) i q old) (Nat.lt_irrefl q)
              · rcases takes.2 with ⟨_, never, _⟩ | ⟨never, _⟩
                · cases never
                · cases never
          | duplicate idx here done duplicate =>
              rintro i (old | takes)
              · exact keeps.duplicates idx rfl here done i q old duplicate
              · rcases takes.2 with ⟨_, never, _⟩ | ⟨_, later, _⟩
                · cases never
                · cases here.symm.trans later
          | redundant _ culls redundant =>
              rintro i (old | takes)
              · exact keeps.culled culls i q old redundant
              · exact Campaign.Culls.not_takes culls takes
        exact held i holder

theorem Campaign.Favors.covered_step (favors : campaign.Favors settings)
    (sound : campaign.Sound settings) (stepped : campaign.step settings event = some next)
    (quiet : next.afl.scoreChanged = false) (i q : Nat)
    (holds : next.afl.topRated i = some q) : next.afl.Covered i q := by
  obtain ⟨surplus, refs, _⟩ := sound.refs
  cases goesOn : event.restarts with
  | true =>
      cases event with
      | restart schedule len trace =>
          obtain ⟨_, rfl⟩ := Campaign.step_restart stepped
          have loaded := sound.loaded schedule len trace
          have untaken : (campaign.restart settings schedule len trace).afl.topRated i = none :=
            loaded.quiet quiet i
          rw [untaken] at holds
          cases holds
      | _ => cases goesOn
  | false =>
      by_cases culls : campaign.Culls event
      · have afl := Campaign.step_of_culls culls stepped
        rw [afl] at holds ⊢
        rw [(Afl.SameTops.cullQueue refs).tops] at holds
        have plain := (favors.owners i q holds).2
        exact cullQueue_covered refs.inRange plain favors.covered holds
      · obtain ⟨quietBefore, same⟩ := Campaign.step_unchanged sound stepped culls goesOn quiet
        rw [same.tops] at holds
        obtain ⟨r, inQueue, favored, covers⟩ := favors.covered quietBefore i q holds
        refine ⟨r, inQueue.trans_le same.items, ?_, covers.imp_right fun traces => ?_⟩
        · rw [Campaign.step_favored stepped culls goesOn inQueue, favored]
        · obtain ⟨mini, made, has⟩ := traces
          exact ⟨mini, (same.minis r).trans made, has⟩

theorem Campaign.not_culls_of_seeds (seeds : campaign.phase.ofSeeds = true) :
    ¬ campaign.Culls event := by
  intro culls
  rcases culls.phase with here | here
  · rw [here] at seeds
    cases seeds
  · rw [here] at seeds
    cases seeds

theorem Campaign.goesOn_of_seeds (stepped : campaign.step settings event = some next)
    (seeds : campaign.phase.ofSeeds = true) : event.restarts = false := by
  cases event with
  | restart schedule len trace =>
      rw [(Campaign.step_restart stepped).1] at seeds
      cases seeds
  | _ => rfl

theorem Campaign.Tallies.seeds_step (tallies : campaign.Tallies)
    (sound : campaign.Sound settings) (stepped : campaign.step settings event = some next)
    (there : next.phase.ofSeeds = true) {q : Nat} (inQueue : q < next.afl.queuedItems) :
    (next.afl.queueBuf q).favored = false := by
  have here := Campaign.step_ofSeeds stepped there
  have goesOn := Campaign.goesOn_of_seeds stepped here
  rcases Nat.lt_or_ge q campaign.afl.queuedItems with old | beyond
  · rw [Campaign.step_favored stepped (Campaign.not_culls_of_seeds here) goesOn old]
    exact tallies.seeds here q old
  · exact Campaign.step_new stepped goesOn sound beyond inQueue

theorem Campaign.Favors.disabled_step (favors : campaign.Favors settings)
    (tallies : campaign.Tallies) (sound : campaign.Sound settings) (stepped : campaign.step settings event = some next)
    {q : Nat} (inQueue : q < next.afl.queuedItems)
    (disabled : (next.afl.queueBuf q).disabled = true) :
    (next.afl.queueBuf q).favored = false := by
  obtain ⟨surplus, refs, _⟩ := sound.refs
  cases goesOn : event.restarts with
  | true =>
      cases event with
      | restart schedule len trace =>
          obtain ⟨_, rfl⟩ := Campaign.step_restart stepped
          have loaded := sound.loaded schedule len trace
          have earlier : q < campaign.afl.queuedItems := loaded.items ▸ inQueue
          have saved := favors.disabled q earlier ((loaded.disabled earlier).symm.trans disabled)
          exact (loaded.favored earlier).trans saved
      | _ => cases goesOn
  | false =>
      by_cases culls : campaign.Culls event
      · have afl := Campaign.step_of_culls culls stepped
        rw [afl] at inQueue disabled ⊢
        rw [cullQueue_queuedItems _ _ fun i _ q holds => (refs.inRange i q holds).2] at inQueue
        exact cullQueue_keepsDisabled refs.inRange (fun i q holds => (favors.owners i q holds).1)
          favors.disabled inQueue disabled
      · rcases Nat.lt_or_ge q campaign.afl.queuedItems with old | beyond
        · rw [Campaign.step_favored stepped culls goesOn old]
          rcases Campaign.step_disabled sound stepped goesOn inQueue disabled with
            ⟨_, already⟩ | out
          · exact favors.disabled q old already
          · cases out with
            | seed fault execCksum trace newCrashBits traceAfter here =>
                exact tallies.seeds (by rw [here]; rfl) q old
            | duplicate idx here done duplicate =>
                exact tallies.seeds (by rw [here]; rfl) q old
            | redundant _ now redundant => exact absurd now culls
        · exact Campaign.step_new stepped goesOn sound beyond inQueue

theorem Campaign.Tallies.order_step (tallies : campaign.Tallies)
    (sound : campaign.Sound settings) (stepped : campaign.step settings event = some next)
    {n : Nat} (there : next.phase.seedsDone = some n) {i q : Nat}
    (holds : next.afl.topRated i = some q) : q < n := by
  obtain ⟨m, below, here, takes⟩ := Campaign.step_seedsDone stepped there
  have goesOn := Campaign.goesOn_of_seeds stepped (Phase.ofSeeds_of_seedsDone here)
  rcases Campaign.step_topRated sound stepped goesOn holds with old | taken
  · exact (tallies.order m here i q old).trans_le below
  · exact takes q i taken

theorem Campaign.Tallies.step (tallies : campaign.Tallies) (sound : campaign.Sound settings)
    (stepped : campaign.step settings event = some next) : next.Tallies :=
  ⟨tallies.tallied_step sound stepped, fun there _ inQueue =>
    tallies.seeds_step sound stepped there inQueue,
    fun _ there _ _ holds => tallies.order_step sound stepped there holds⟩

theorem Campaign.Favors.step (favors : campaign.Favors settings) (tallies : campaign.Tallies)
    (sound : campaign.Sound settings) (keeps : campaign.KeepsOwners settings event)
    (stepped : campaign.step settings event = some next) : next.Favors settings :=
  ⟨fun _ inQueue disabled => favors.disabled_step tallies sound stepped inQueue disabled,
    favors.owners_step tallies sound keeps stepped, favors.covered_step sound stepped⟩

end

end SbFuzz.Fuzzer
