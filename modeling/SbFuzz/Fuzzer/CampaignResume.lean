import SbFuzz.Fuzzer.CampaignReferences

/-! What fast resume keeps of the scores of the campaign that it resumes. -/

set_option autoImplicit false

namespace SbFuzz.Fuzzer

section

variable {settings : Settings} {campaign : Campaign} {config : Config} {surplus : Nat → Nat}
  {afl : Afl}

/-- Entries without references have no minimised trace that could cover a byte. -/
theorem Afl.Refs.not_covered (refs : afl.Refs config surplus)
    (unreferenced : ∀ q < afl.queuedItems, (afl.queueBuf q).tcRef = 0) (i : Nat) :
    ¬ afl.CoveredByFavored i := by
  rintro ⟨q, inQueue, _, mini, made, _⟩
  have positive := (refs.mini q).mp (by rw [made]; rfl)
  rw [unreferenced q inQueue] at positive
  exact absurd positive (Nat.lt_irrefl 0)

theorem Afl.Refs.not_held (refs : afl.Refs config surplus)
    (unreferenced : ∀ q < afl.queuedItems, (afl.queueBuf q).tcRef = 0) (i : Nat) :
    afl.topRated i = none := by
  cases holder : afl.topRated i with
  | none => rfl
  | some q =>
      have positive := refs.tcRef_pos holder
      rw [unreferenced q (refs.inRange i q holder).2] at positive
      exact absurd positive (Nat.lt_irrefl 0)

/-- The references that come with the records are on top of those that the
loader counts. -/
theorem Campaign.Sound.restart_tcRef (sound : campaign.Sound settings) (schedule : Schedule)
    (len : Nat → UInt32) (trace : Nat → UInt8) {q : Nat} (inQueue : q < campaign.afl.queuedItems) :
    ((campaign.restart settings schedule len trace).afl.queueBuf q).tcRef =
      (campaign.afl.queueBuf q).tcRef + Nat.count (fun i =>
        (campaign.restart settings schedule len trace).afl.topRated i = some q)
        settings.mapSize := by
  have loaded := sound.loaded schedule len trace
  have counted := loaded.refs.counted q
  rw [if_pos inQueue] at counted
  exact counted

theorem Campaign.Sound.restart_items (sound : campaign.Sound settings) (schedule : Schedule)
    (len : Nat → UInt32) (trace : Nat → UInt8) :
    (campaign.restart settings schedule len trace).afl.queuedItems = campaign.afl.queuedItems := by
  exact (sound.loaded schedule len trace).items

theorem Campaign.Sound.restart (sound : campaign.Sound settings) (stopped : campaign.phase = .stopped)
    (schedule : Schedule) (len : Nat → UInt32) (trace : Nat → UInt8) :
    (campaign.restart settings schedule len trace).Sound settings := by
  have stepped : campaign.step settings (.restart schedule len trace) =
      some (campaign.restart settings schedule len trace) := by
    simp only [Campaign.step, stopped]
  exact sound.step stepped

/-- Nothing becomes favored where nothing is referenced. -/
theorem Afl.Refs.cull_not_covered (refs : afl.Refs config surplus)
    (unreferenced : ∀ q < afl.queuedItems, (afl.queueBuf q).tcRef = 0) (i : Nat) :
    ¬ (cullQueue config afl).CoveredByFavored i := by
  have same := Afl.SameTops.cullQueue refs
  have items := cullQueue_queuedItems config afl fun i _ q holds => (refs.inRange i q holds).2
  apply (refs.of_same same).not_covered
  intro q inQueue
  rw [same.refs]
  exact unreferenced q (items ▸ inQueue)

theorem Campaign.Sound.restart_topRated (sound : campaign.Sound settings) (schedule : Schedule)
    (len : Nat → UInt32) (trace : Nat → UInt8) (i : Nat) :
    (campaign.restart settings schedule len trace).afl.topRated i ≠ none ↔
      0 < campaign.afl.queuedItems ∧ i < settings.mapSize ∧ trace i ≠ 0 := by
  exact (sound.loaded schedule len trace).held i

end

/-- What the scores of a resumed campaign should have kept. -/
structure Campaign.KeepsScores (settings : Settings) (campaign resumed : Campaign) : Prop where
  counted : ∀ q < campaign.afl.queuedItems, (resumed.afl.queueBuf q).tcRef =
    Nat.count (fun i => resumed.afl.topRated i = some q) settings.mapSize
  tops : ∀ i, resumed.afl.topRated i ≠ none ↔ campaign.afl.topRated i ≠ none
  favored : ∀ i, (cullQueue settings.toConfig resumed.afl).CoveredByFavored i ↔
    campaign.afl.CoveredByFavored i

/-- Fast resume keeps the references, the top-rated bytes and the bytes that
favored entries cover just if there was nothing to keep. -/
theorem restart_keepsScores_iff (settings : Settings) (schedule : Schedule) {campaign : Campaign}
    (reached : (campaignMachine settings schedule).Reachable campaign)
    (stopped : campaign.phase = .stopped) (resumeSchedule : Schedule) (len : Nat → UInt32)
    (trace : Nat → UInt8) :
    campaign.KeepsScores settings (campaign.restart settings resumeSchedule len trace) ↔
    (∀ q < campaign.afl.queuedItems, (campaign.afl.queueBuf q).tcRef = 0) ∧
      ∀ i < settings.mapSize, trace i = 0 := by
  have sound := campaign_sound reached
  have nonempty := sound.nonempty (by rw [stopped]; decide)
  obtain ⟨surplus, refs, _⟩ := sound.refs
  have counted := fun q (inQueue : q < campaign.afl.queuedItems) =>
    sound.restart_tcRef resumeSchedule len trace inQueue
  have held := sound.restart_topRated resumeSchedule len trace
  constructor
  · rintro ⟨tallied, sameTops, _⟩
    have unreferenced : ∀ q < campaign.afl.queuedItems, (campaign.afl.queueBuf q).tcRef = 0 := by
      intro q inQueue
      have both := (counted q inQueue).symm.trans (tallied q inQueue)
      omega
    refine ⟨unreferenced, fun i inMap => ?_⟩
    by_contra touched
    have taken := (sameTops i).mp ((held i).mpr ⟨nonempty, inMap, touched⟩)
    exact taken (refs.not_held unreferenced i)
  · rintro ⟨unreferenced, empty⟩
    have untaken : ∀ i, (campaign.restart settings resumeSchedule len trace).afl.topRated i =
        none := by
      intro i
      by_contra taken
      obtain ⟨_, inMap, touched⟩ := (held i).mp taken
      exact touched (empty i inMap)
    have uncounted : ∀ q, Nat.count (fun i =>
        (campaign.restart settings resumeSchedule len trace).afl.topRated i = some q)
        settings.mapSize = 0 :=
      fun q => Nat.count_of_forall_not fun i _ holds => by
        rw [untaken i] at holds
        cases holds
    have afresh : ∀ q < campaign.afl.queuedItems,
        ((campaign.restart settings resumeSchedule len trace).afl.queueBuf q).tcRef = 0 := by
      intro q inQueue
      rw [counted q inQueue, unreferenced q inQueue, uncounted]
    obtain ⟨resumedSurplus, resumedRefs, _⟩ := (sound.restart stopped resumeSchedule len trace).refs
    have items := sound.restart_items resumeSchedule len trace
    refine ⟨fun q inQueue => ?_, fun i => ?_, fun i => ?_⟩
    · rw [afresh q inQueue, uncounted]
    · simp only [untaken i, refs.not_held unreferenced i]
    · have never := resumedRefs.cull_not_covered (items ▸ afresh) i
      have before := refs.not_covered unreferenced i
      exact ⟨fun covered => absurd covered never, fun covered => absurd covered before⟩

/-- A process that stops with one entry, which was executed with this trace. -/
def oneEntryRun (trace : Nat → UInt8) : List Event :=
  [.seed 4, .advance, .dryRun (.completed true 5 7 trace) false fun _ => 0, .advance, .launch 0,
    .interrupt, .advance]

theorem restart_keepsScores_iff_noByte :
    ∃ campaign, (campaignMachine (.plain 8 rfl) .explore).run (oneEntryRun fun _ => 0) =
        some campaign ∧
      campaign.KeepsScores (.plain 8 rfl)
        (campaign.restart (.plain 8 rfl) .explore (fun _ => 4) fun _ => 0) := by
  let run := oneEntryRun fun _ => 0
  have outcome : ((campaignMachine (.plain 8 rfl) .explore).run run).map
      (fun campaign => (campaign.phase, campaign.afl.queuedItems,
        (campaign.afl.queueBuf 0).tcRef)) = some (.stopped, 1, 0) := by decide +kernel
  obtain ⟨campaign, ran, seen⟩ := Option.map_eq_some_iff.mp outcome
  simp only [Prod.mk.injEq] at seen
  obtain ⟨stopped, items, unreferenced⟩ := seen
  refine ⟨campaign, ran, (restart_keepsScores_iff (.plain 8 rfl) .explore ⟨run, ran⟩ stopped
    .explore (fun _ => 4) fun _ => 0).mpr ⟨fun q inQueue => ?_, fun _ _ => rfl⟩⟩
  obtain rfl : q = 0 := by omega
  exact unreferenced

theorem restart_miscounts :
    ¬ ∀ (settings : Settings) (schedule : Schedule) (campaign : Campaign),
      (campaignMachine settings schedule).Reachable campaign → campaign.phase = .stopped →
      ∀ (resumeSchedule : Schedule) (len : Nat → UInt32) (trace : Nat → UInt8),
      ∀ q < campaign.afl.queuedItems,
        ((campaign.restart settings resumeSchedule len trace).afl.queueBuf q).tcRef =
          Nat.count (fun i => (campaign.restart settings resumeSchedule len trace).afl.topRated i =
            some q) settings.mapSize := by
  intro holds
  let settings : Settings := .plain 8 rfl
  let run := oneEntryRun fun i => if i = 2 then 1 else 0
  have outcome : ((campaignMachine settings .explore).run run).map
      (fun campaign => (campaign.phase, campaign.afl.queuedItems,
        ((campaign.restart settings .explore (fun _ => 4) fun _ => 0).afl.queueBuf 0).tcRef,
        Nat.count (fun i => (campaign.restart settings .explore (fun _ => 4)
          fun _ => 0).afl.topRated i = some 0) 8)) = some (.stopped, 1, 1, 0) := by
    decide +kernel
  obtain ⟨campaign, ran, seen⟩ := Option.map_eq_some_iff.mp outcome
  simp only [Prod.mk.injEq] at seen
  obtain ⟨stopped, items, referenced, held⟩ := seen
  have same := holds settings .explore campaign ⟨run, ran⟩ stopped .explore (fun _ => 4)
    (fun _ => 0) 0 (by omega)
  exact absurd (referenced.symm.trans (same.trans held)) (by decide)

end SbFuzz.Fuzzer
