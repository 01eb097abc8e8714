import SbFuzz.Fuzzer.CampaignReferences

/-! Entries hold bytes of their own traces as long as no score is taken from
the trace of another execution. -/

set_option autoImplicit false

namespace SbFuzz.Fuzzer

/-! ## Entries hold bytes of their own traces -/

structure Campaign.OwnScores (settings : Settings) (campaign : Campaign) : Prop where
  refs : campaign.afl.Refs settings.toConfig fun _ => 0
  own : ∀ i q, campaign.afl.topRated i = some q →
    ∃ trace, (campaign.scored q).head? = some trace ∧ trace i ≠ 0
  minis : ∀ q mini, (campaign.afl.queueBuf q).traceMini = some mini →
    ∃ trace ∈ campaign.scored q, mini = minimizeBits settings.toConfig trace

/-- A trace hits every byte that the entry holds. -/
def Campaign.HitsHeld (campaign : Campaign) (q : Nat) (trace : Nat → UInt8) : Prop :=
  ∀ i, campaign.afl.topRated i = some q → trace i ≠ 0

theorem minimizeBits_congr {config : Config} {left right : Nat → UInt8}
    (same : ∀ i < config.mapSize, left i ≠ 0 ↔ right i ≠ 0) :
    minimizeBits config left = minimizeBits config right := by
  unfold minimizeBits
  apply List.foldl_ext
  intro bits i member
  have touched := same i (List.mem_range.mp member)
  simp only [touched]

section

variable {settings : Settings} {campaign next : Campaign}

theorem Campaign.OwnScores.of_same (own : campaign.OwnScores settings)
    (same : campaign.afl.SameTops next.afl) (scored : next.scored = campaign.scored) :
    next.OwnScores settings := by
  refine ⟨own.refs.of_same same, fun i q holds => ?_, fun q mini made => ?_⟩
  · rw [scored]
    rw [same.tops] at holds
    exact own.own i q holds
  · rw [scored]
    rw [same.minis] at made
    exact own.minis q mini made

theorem Campaign.OwnScores.score {q : Nat} {trace : Nat → UInt8}
    (own : campaign.OwnScores settings) (inQueue : q < campaign.afl.queuedItems)
    (hits : campaign.HitsHeld q trace) : (campaign.score settings q trace).OwnScores settings := by
  have same : campaign.afl.SameTops { campaign.afl with traceBits := trace } :=
    (Afl.SameScores.withTrace campaign.afl trace).toSameTops
  refine ⟨(own.refs.of_same same).updateBitmapScore inQueue, fun i r holds => ?_,
    fun r mini made => ?_⟩
  · simp only [Campaign.score] at holds ⊢
    have tops := updateBitmapScore_topRated settings.toConfig
      { campaign.afl with traceBits := trace } q i
    by_cases wins : i < settings.mapSize ∧
        Afl.Wins settings.toConfig { campaign.afl with traceBits := trace } q i
    · rw [tops.1 wins] at holds
      obtain rfl := Option.some.inj holds
      exact ⟨trace, by simp, wins.2.1⟩
    · rw [tops.2 wins] at holds
      by_cases here : r = q
      · subst here
        exact ⟨trace, by simp, hits i holds⟩
      · rw [Function.update_of_ne here]
        exact own.own i r holds
  · simp only [Campaign.score] at made ⊢
    rcases updateBitmapScore_traceMini made with before | ⟨rfl, new⟩
    · obtain ⟨old, member, made⟩ := own.minis r mini before
      refine ⟨old, ?_, made⟩
      by_cases here : r = q
      · subst here
        simp [member]
      · rwa [Function.update_of_ne here]
    · exact ⟨trace, by simp, new⟩

/-- What the entry wins it wins with its own last trace. -/
def Campaign.RescoresOwn (settings : Settings) (campaign : Campaign) (q : Nat) : Prop :=
  (∃ i < settings.mapSize, campaign.afl.Wins settings.toConfig q i) →
    ∃ trace, (campaign.scored q).head? = some trace ∧
      ∀ i < settings.mapSize, trace i ≠ 0 ↔ campaign.afl.traceBits i ≠ 0

theorem Campaign.OwnScores.rescore {q : Nat} (own : campaign.OwnScores settings)
    (inQueue : q < campaign.afl.queuedItems) (rescores : campaign.RescoresOwn settings q)
    (after : next.afl = updateBitmapScore settings.toConfig campaign.afl q)
    (scored : next.scored = campaign.scored) : next.OwnScores settings := by
  by_cases some_ : ∃ i < settings.mapSize, campaign.afl.Wins settings.toConfig q i
  · obtain ⟨trace, last, agrees⟩ := rescores some_
    refine ⟨after ▸ own.refs.updateBitmapScore inQueue, fun i r holds => ?_, fun r mini made => ?_⟩
    · rw [after] at holds
      rw [scored]
      have tops := updateBitmapScore_topRated settings.toConfig campaign.afl q i
      by_cases wins : i < settings.mapSize ∧ campaign.afl.Wins settings.toConfig q i
      · rw [tops.1 wins] at holds
        obtain rfl := Option.some.inj holds
        exact ⟨trace, last, (agrees i wins.1).mpr wins.2.1⟩
      · rw [tops.2 wins] at holds
        exact own.own i r holds
    · rw [after] at made
      rw [scored]
      rcases updateBitmapScore_traceMini made with before | ⟨rfl, new⟩
      · exact own.minis r mini before
      · exact ⟨trace, List.mem_of_mem_head? last, new.trans (minimizeBits_congr agrees).symm⟩
  · have unchanged : updateBitmapScore settings.toConfig campaign.afl q = campaign.afl := by
      apply updateBitmapScore_of_no_wins
      exact fun i inMap wins => some_ ⟨i, inMap, wins⟩
    apply own.of_same _ scored
    rw [after, unchanged]
    exact .refl

/-! ## Whole campaigns -/

/-- Where a step may take scores from: from executions that still hit the
bytes that their entry holds, and from a trace buffer that agrees with the
last execution of the entry that is scored again. Fast resume may not bring
references, nor a trace. -/
structure Campaign.ScoresOwn (settings : Settings) (campaign : Campaign) (event : Event) :
    Prop where
  executed : ∀ q trace, campaign.Executes q trace event → campaign.HitsHeld q trace
  rescored : ∀ idx, event = .advance → campaign.phase = .rescoring idx →
    idx < campaign.afl.queuedItems → (campaign.afl.queueBuf idx).disabled = false →
    campaign.RescoresOwn settings idx
  restarted : ∀ schedule len trace, event = .restart schedule len trace →
    (∀ q < campaign.afl.queuedItems, (campaign.afl.queueBuf q).tcRef = 0) ∧
      ∀ i < settings.mapSize, trace i = 0

theorem Campaign.OwnScores.restart {schedule : Schedule} {len : Nat → UInt32}
    {trace : Nat → UInt8} (own : campaign.OwnScores settings)
    (unreferenced : ∀ q < campaign.afl.queuedItems, (campaign.afl.queueBuf q).tcRef = 0)
    (empty : ∀ i < settings.mapSize, trace i = 0) :
    (campaign.restart settings schedule len trace).OwnScores settings := by
  have loaded := fastResume_loaded settings.toConfig schedule len trace
    fun q (_ : q < campaign.afl.queuedItems) => own.refs.mini q
  have untaken : ∀ i, (campaign.restart settings schedule len trace).afl.topRated i = none := by
    intro i
    by_contra taken
    obtain ⟨_, inMap, touched⟩ := (loaded.held i).mp taken
    exact touched (empty i inMap)
  have counted : ∀ q,
      ((campaign.restart settings schedule len trace).afl.queueBuf q).tcRef = 0 := by
    intro q
    have counted := loaded.refs.counted q
    rw [Nat.count_of_forall_not fun i _ holds => by
      rw [show (fastResume settings.toConfig schedule len trace campaign.afl).topRated i = none
        from untaken i] at holds
      cases holds] at counted
    refine counted.trans ?_
    split
    · next inQueue => simp [unreferenced q inQueue]
    · rfl
  refine ⟨⟨loaded.refs.inRange, fun q => ?_, loaded.refs.mini⟩, fun i q holds => ?_,
    fun q mini made => ?_⟩
  · rw [counted, Nat.count_of_forall_not fun i _ holds => by
      rw [untaken i] at holds
      cases holds]
  · rw [untaken i] at holds
    cases holds
  · have kept := (loaded.refs.mini q).mp (by
      rw [show (fastResume settings.toConfig schedule len trace campaign.afl).queueBuf q =
        (campaign.restart settings schedule len trace).afl.queueBuf q from rfl, made]
      rfl)
    exact absurd (counted q) (Nat.pos_iff_ne_zero.mp kept)

theorem Campaign.OwnScores.step {event : Event} (own : campaign.OwnScores settings)
    (sound : campaign.Sound settings) (scores : campaign.ScoresOwn settings event)
    (stepped : campaign.step settings event = some next) : next.OwnScores settings := by
  cases Campaign.step_scores sound stepped with
  | quiet _ _ same scored => exact own.of_same same.toSameTops scored
  | executed _ _ q trace executes before same inQueue after scored =>
      have hits : (campaign.atScore q event).HitsHeld q trace := by
        intro i holds
        rw [before.tops] at holds
        exact scores.executed q trace executes i holds
      have middle := (own.of_same before.toSameTops same).score inQueue hits
      exact middle.of_same after.toSameTops scored
  | rescored _ idx here inQueue enabled afl scored =>
      exact own.rescore inQueue (scores.rescored idx rfl here inQueue enabled) afl scored
  | culled _ _ culls afl scored =>
      exact own.of_same (afl ▸ .cullQueue own.refs) scored
  | restarted schedule len trace here =>
      obtain ⟨unreferenced, empty⟩ := scores.restarted schedule len trace rfl
      exact own.restart unreferenced empty

end

def touches (bytes : List Nat) (i : Nat) : UInt8 := if i ∈ bytes then 1 else 0

end SbFuzz.Fuzzer
