import SbFuzz.Fuzzer.SaveIfInteresting

/-! One call of `save_if_interesting` counts an execution once, except where a
timeout jumps back to the label `save_to_queue`: the `switch` then counts it again. -/

set_option autoImplicit false

namespace SbFuzz.Fuzzer.SaveIfInteresting

variable {sizes : MapSizes} {env : Env sizes} {options : Options}

/-! ## What a call may count -/

/-- At most one entry is new, and no counter has grown by more than one. -/
structure AtMostOnce (before after : State sizes) : Prop where
  queue : ∃ added, after.queue = before.queue ++ added ∧ added.length ≤ 1
  totalCrashes : after.counters.totalCrashes ≤ before.counters.totalCrashes + 1
  savedCrashes : after.counters.savedCrashes ≤ before.counters.savedCrashes + 1
  totalTmouts : after.counters.totalTmouts ≤ before.counters.totalTmouts + 1
  savedTmouts : after.counters.savedTmouts ≤ before.counters.savedTmouts + 1
  savedHangs : after.counters.savedHangs ≤ before.counters.savedHangs + 1

/-- Nothing is new in the queue, the timeouts are counted exactly, and no other counter has
grown by more than one. -/
structure SwitchCounts (timeouts : Nat) (before after : State sizes) : Prop where
  queue : after.queue = before.queue
  totalCrashes : after.counters.totalCrashes ≤ before.counters.totalCrashes + 1
  savedCrashes : after.counters.savedCrashes ≤ before.counters.savedCrashes + 1
  totalTmouts : after.counters.totalTmouts = before.counters.totalTmouts + timeouts
  savedTmouts : after.counters.savedTmouts ≤ before.counters.savedTmouts + 1
  savedHangs : after.counters.savedHangs ≤ before.counters.savedHangs + 1

theorem SwitchCounts.refl (afl : State sizes) : SwitchCounts 0 afl afl :=
  ⟨rfl, Nat.le_succ _, Nat.le_succ _, rfl, Nat.le_succ _, Nat.le_succ _⟩

/-- The maps do not count. -/
theorem SwitchCounts.of_maps {timeouts : Nat} {before after : State sizes} (maps : AflState sizes)
    (counts : SwitchCounts timeouts { before with maps } after) : SwitchCounts timeouts before after :=
  ⟨counts.queue, counts.totalCrashes, counts.savedCrashes, counts.totalTmouts, counts.savedTmouts,
    counts.savedHangs⟩

/-- Around a `switch`, an entry may be added before it or after it. -/
theorem SwitchCounts.atMostOnce {timeouts : Nat} {before start left after : State sizes}
    {added : List Entry} (counts : SwitchCounts timeouts start left) (once : timeouts ≤ 1)
    (starts : start.counters = before.counters) (ends : after.counters = left.counters)
    (queue : after.queue = before.queue ++ added) (single : added.length ≤ 1) :
    AtMostOnce before after where
  queue := ⟨added, queue, single⟩
  totalCrashes := starts ▸ ends ▸ counts.totalCrashes
  savedCrashes := starts ▸ ends ▸ counts.savedCrashes
  totalTmouts := starts ▸ ends ▸ counts.totalTmouts.trans_le (Nat.add_le_add_left once _)
  savedTmouts := starts ▸ ends ▸ counts.savedTmouts
  savedHangs := starts ▸ ends ▸ counts.savedHangs

theorem SwitchCounts.atMostOnce_of_left {timeouts : Nat} {before left : State sizes}
    (counts : SwitchCounts timeouts before left) (once : timeouts ≤ 1) : AtMostOnce before left :=
  counts.atMostOnce once rfl rfl (counts.queue.trans (List.append_nil _).symm) (Nat.zero_le 1)

theorem AtMostOnce.refl (afl : State sizes) : AtMostOnce afl afl :=
  (SwitchCounts.refl afl).atMostOnce_of_left (Nat.zero_le 1)

theorem AtMostOnce.of_same {before start after : State sizes} (once : AtMostOnce start after)
    (queue : start.queue = before.queue) (counters : start.counters = before.counters) :
    AtMostOnce before after where
  queue := queue ▸ once.queue
  totalCrashes := counters ▸ once.totalCrashes
  savedCrashes := counters ▸ once.savedCrashes
  totalTmouts := counters ▸ once.totalTmouts
  savedTmouts := counters ▸ once.savedTmouts
  savedHangs := counters ▸ once.savedHangs

/-! ## The switch -/

theorem isUnique_snd (options : Options) (virginMap : VirginMap) (classified : Bool) (afl : State sizes) :
    ∃ maps, (isUnique options virginMap classified afl).2 = { afl with maps } := by
  unfold isUnique
  split
  · exact ⟨afl.maps, rfl⟩
  · exact ⟨_, rfl⟩

/-- A trace that is not classified yet is classified first. -/
theorem isUnique_fst (virginMap : VirginMap) (classified : Bool) (afl : State sizes) :
    (isUnique options virginMap classified afl).1 ↔
      options.nonInstrumentedMode ∨
        (hasNewBits (simplifyTrace (if classified then afl.maps else classifyCounts afl.maps))
          virginMap).1 ≠ 0 := by
  unfold isUnique
  split
  · next mode => simp [mode]
  · next mode => simp [mode]

theorem keepAsCrash_counts (afl : State sizes) (locals : Locals) :
    SwitchCounts 0 afl (keepAsCrash options afl locals).afl := by
  unfold keepAsCrash
  extract_lets counted unique
  obtain ⟨maps, same⟩ := isUnique_snd options .crash locals.classified counted
  have found : unique.2 = { counted with maps } := same
  split
  · exact ⟨rfl, Nat.le_refl _, Nat.le_succ _, rfl, Nat.le_succ _, Nat.le_succ _⟩
  · rw [found]
    split
    · exact ⟨rfl, Nat.le_refl _, Nat.le_succ _, rfl, Nat.le_succ _, Nat.le_succ _⟩
    · exact ⟨rfl, Nat.le_refl _, Nat.le_refl _, rfl, Nat.le_succ _, Nat.le_succ _⟩

theorem saveHang_counts (afl : State sizes) (locals : Locals) :
    SwitchCounts 0 afl (saveHang afl locals).afl :=
  ⟨rfl, Nat.le_succ _, Nat.le_succ _, rfl, Nat.le_succ _, Nat.le_refl _⟩

/-- The state that the `switch` leaves. -/
def Switched.afl : Switched sizes → State sizes
  | .left outcome => outcome.afl
  | .saveToQueue afl _ => afl

theorem confirmHang_counts (afl : State sizes) (locals : Locals) :
    SwitchCounts 0 afl (confirmHang env options afl locals).afl := by
  unfold confirmHang
  split
  · extract_lets run rerun
    split
    · exact (keepAsCrash_counts rerun.1 rerun.2).of_maps rerun.1.maps
    · split
      · split
        · exact ⟨rfl, Nat.le_succ _, Nat.le_succ _, rfl, Nat.le_refl _, Nat.le_succ _⟩
        · exact (SwitchCounts.refl rerun.1).of_maps rerun.1.maps
      · exact (saveHang_counts rerun.1 rerun.2).of_maps rerun.1.maps
  · exact saveHang_counts afl locals

theorem timedOut_counts (afl : State sizes) (locals : Locals) :
    SwitchCounts 1 afl (timedOut env options afl locals).afl := by
  unfold timedOut
  extract_lets counted unique marked
  have count {after : State sizes} (counts : SwitchCounts 0 counted after) :
      SwitchCounts 1 afl after :=
    ⟨counts.queue, counts.totalCrashes, counts.savedCrashes, counts.totalTmouts, counts.savedTmouts,
      counts.savedHangs⟩
  obtain ⟨maps, same⟩ := isUnique_snd options .tmout locals.classified counted
  have found : unique.2 = { counted with maps } := same
  split
  · exact count (.refl counted)
  · rw [found]
    split
    · exact count ((SwitchCounts.refl _).of_maps maps)
    · exact count ((confirmHang_counts _ _).of_maps maps)

/-- The `switch` counts a timeout, and nothing twice. -/
theorem switchFault_counts (env : Env sizes) (options : Options) (fault : Fault) (afl : State sizes)
    (locals : Locals) :
    SwitchCounts (if fault = .tmout then 1 else 0) afl (switchFault env options fault afl locals).afl := by
  cases fault with
  | tmout => exact timedOut_counts afl locals
  | crash => exact keepAsCrash_counts afl locals
  | ok => exact .refl afl
  | error => exact .refl afl
  | noinst => exact .refl afl
  | nobits => exact .refl afl

/-! ## The jump back -/

/-- The execution with `hang_tmout` is neither the same timeout nor taken as a crash. -/
def Rerun.Refutes (run : Rerun sizes) : Prop :=
  run.stopSoon ∨ (run.fault ≠ .tmout ∧ run.fault ≠ .crash)

/-- A unique timeout within the limits that the execution with `hang_tmout` does not confirm and
that is kept. -/
structure JumpsBack (env : Env sizes) (options : Options) (fault : Fault) (afl : State sizes)
    (locals : Locals) : Prop where
  timeout : fault = .tmout
  room : afl.counters.savedHangs < keepUniqueHang
  unique : (isUnique options .tmout locals.classified afl).1
  stricter : options.execTmout < options.hangTmout
  refuted : (env.rerun locals.added).Refutes
  kept : options.keepTimeouts

theorem confirmHang_jumps {afl : State sizes} {locals : Locals}
    (stricter : options.execTmout < options.hangTmout) (refuted : (env.rerun locals.added).Refutes)
    (kept : options.keepTimeouts) :
    confirmHang env options afl locals =
      .saveToQueue (rerunTarget env afl locals).1.incSavedTmouts (rerunTarget env afl locals).2 := by
  unfold confirmHang
  rcases refuted with stopped | ⟨other, survives⟩
  · simp [stricter, stopped, kept]
  · simp [stricter, other, survives, kept]

theorem confirmHang_stays {afl : State sizes} {locals : Locals}
    (stays : ¬(options.execTmout < options.hangTmout ∧ (env.rerun locals.added).Refutes ∧
      options.keepTimeouts)) :
    ∃ outcome, confirmHang env options afl locals = .left outcome := by
  unfold confirmHang
  split
  · next stricter =>
    extract_lets run rerun
    split
    · exact ⟨_, rfl⟩
    · next survives =>
      split
      · next refuted =>
        have refutes : run.Refutes := by
          simp only [Bool.and_eq_true, Bool.not_eq_true', decide_eq_true_eq, not_and] at survives
          simp only [Bool.or_eq_true, decide_eq_true_eq] at refuted
          cases stopped : run.stopSoon with
          | true => exact .inl stopped
          | false =>
            exact .inr ⟨refuted.resolve_left (Bool.eq_false_iff.mp stopped), survives stopped⟩
        have discarded : ¬options.keepTimeouts := fun kept => stays ⟨stricter, refutes, kept⟩
        rw [if_neg discarded]
        exact ⟨_, rfl⟩
      · exact ⟨_, rfl⟩
  · exact ⟨_, rfl⟩

theorem isUnique_incTotalTmouts (virginMap : VirginMap) (classified : Bool) (afl : State sizes) :
    (isUnique options virginMap classified afl.incTotalTmouts).1 =
      (isUnique options virginMap classified afl).1 := by
  unfold isUnique
  split <;> rfl

theorem timedOut_stays {afl : State sizes} {locals : Locals}
    (stays : ¬JumpsBack env options .tmout afl locals) :
    ∃ outcome, timedOut env options afl locals = .left outcome := by
  unfold timedOut
  extract_lets counted unique marked
  split
  · exact ⟨_, rfl⟩
  · next room =>
    split
    · exact ⟨_, rfl⟩
    · next found =>
      apply confirmHang_stays
      rintro ⟨stricter, refuted, kept⟩
      have unseen : unique.1 = true := by simpa using found
      exact stays ⟨rfl, Nat.lt_of_not_le room, isUnique_incTotalTmouts _ _ afl ▸ unseen, stricter,
        refuted, kept⟩

theorem switchFault_jumps {fault : Fault} {afl : State sizes} {locals : Locals}
    (jumps : JumpsBack env options fault afl locals) :
    ∃ next jumped, switchFault env options fault afl locals = .saveToQueue next jumped ∧
      jumped.added = locals.added := by
  obtain ⟨rfl, room, unique, stricter, refuted, kept⟩ := jumps
  have counted : ¬keepUniqueHang ≤ afl.incTotalTmouts.counters.savedHangs := Nat.not_le_of_lt room
  have found : (isUnique options .tmout locals.classified afl.incTotalTmouts).1 = true :=
    (isUnique_incTotalTmouts _ _ afl).trans unique
  simp only [switchFault, timedOut, if_neg counted, found, Bool.not_true, Bool.false_eq_true,
    if_false]
  exact ⟨_, _, confirmHang_jumps stricter refuted kept, rfl⟩

theorem switchFault_stays {fault : Fault} {afl : State sizes} {locals : Locals}
    (stays : ¬JumpsBack env options fault afl locals) :
    ∃ outcome, switchFault env options fault afl locals = .left outcome := by
  cases fault with
  | tmout => exact timedOut_stays stays
  | crash => exact ⟨_, rfl⟩
  | ok => exact ⟨_, rfl⟩
  | error => exact ⟨_, rfl⟩
  | noinst => exact ⟨_, rfl⟩
  | nobits => exact ⟨_, rfl⟩

/-! ## The queue -/

theorem saveToQueue_adds (env : Env sizes) (options : Options) (afl : State sizes) (locals : Locals) :
    ∃ entry, (saveToQueue env options afl locals).1.queue = afl.queue ++ [entry] ∧
      (saveToQueue env options afl locals).1.counters = afl.counters := by
  unfold saveToQueue
  extract_lets
  split <;> exact ⟨_, rfl, rfl⟩

theorem saveToQueue_fatal (options : Options) (afl : State sizes) {locals : Locals}
    (failed : (env.calibrate locals.added).fault = .error) :
    (saveToQueue env options afl locals).2 = none := by
  simp [saveToQueue, failed]

theorem saveToQueue_kept (options : Options) (afl : State sizes) {locals : Locals}
    (calibrated : (env.calibrate locals.added).fault ≠ .error) :
    ∃ kept, (saveToQueue env options afl locals).2 = some kept := by
  simp [saveToQueue, calibrated]

/-- With a fault that is no timeout there is one pass. -/
theorem runFromQueue_atMostOnce {fault : Fault} (noTimeout : fault ≠ .tmout) (fuel : Nat)
    (afl : State sizes) (locals : Locals) :
    AtMostOnce afl (runFromQueue env options fault fuel afl locals).afl := by
  cases fuel with
  | zero => exact .refl afl
  | succ fuel =>
    obtain ⟨entry, queue, counters⟩ := saveToQueue_adds env options afl locals
    unfold runFromQueue
    split
    · next saved failed =>
      rw [failed] at queue counters
      exact (SwitchCounts.refl saved).atMostOnce (Nat.zero_le 1) counters rfl queue (Nat.le_refl 1)
    · next saved kept saving =>
      rw [saving] at queue counters
      have counts := switchFault_counts env options fault saved kept
      have stays : ¬JumpsBack env options fault saved kept := fun jumps => noTimeout jumps.timeout
      obtain ⟨outcome, left⟩ := switchFault_stays stays
      rw [left, if_neg noTimeout] at counts
      rw [left]
      exact counts.atMostOnce (Nat.zero_le 1) counters rfl (counts.queue.trans queue) (Nat.le_refl 1)

/-! ## The call -/

/-- A timeout that the options keep although the execution with `hang_tmout` refutes it, in a call
whose first calibration can execute the target. -/
structure KeepsRefuted (env : Env sizes) (options : Options) (afl : State sizes) (len : UInt32)
    (fault : Fault) : Prop where
  nonempty : len ≠ 0
  timeout : fault = .tmout
  heeded : options.ignoreTimeouts = false
  room : afl.counters.savedHangs < keepUniqueHang
  unique : options.nonInstrumentedMode ∨
    (hasNewBits (simplifyTrace (classifyCounts afl.maps)) .tmout).1 ≠ 0
  stricter : options.execTmout < options.hangTmout
  refuted : (env.rerun 0).Refutes
  kept : options.keepTimeouts
  calibrated : (env.calibrate 0).fault ≠ .error

theorem prepare_counts (env : Env sizes) (options : Options) (len : UInt32) (afl : State sizes) :
    (prepare env options len afl).1.queue = afl.queue ∧
      (prepare env options len afl).1.counters = afl.counters ∧
      (prepare env options len afl).2.added = 0 := by
  unfold prepare
  extract_lets fresh frequency
  split <;> exact ⟨rfl, rfl, rfl⟩

/-- The path frequency classifies the trace as the `switch` does. -/
theorem prepare_unique (virginMap : VirginMap) (len : UInt32) (afl : State sizes) :
    (isUnique options virginMap (prepare env options len afl).2.classified
        (prepare env options len afl).1).1 ↔
      options.nonInstrumentedMode ∨
        (hasNewBits (simplifyTrace (classifyCounts afl.maps)) virginMap).1 ≠ 0 := by
  rw [isUnique_fst]
  unfold prepare
  extract_lets fresh frequency
  split <;> exact Iff.rfl

theorem jumpsBack_prepare_iff {fault : Fault} {len : UInt32} {afl : State sizes} :
    JumpsBack env options fault (prepare env options len afl).1 (prepare env options len afl).2 ↔
      fault = .tmout ∧ afl.counters.savedHangs < keepUniqueHang ∧
        (options.nonInstrumentedMode ∨
          (hasNewBits (simplifyTrace (classifyCounts afl.maps)) .tmout).1 ≠ 0) ∧
        options.execTmout < options.hangTmout ∧ (env.rerun 0).Refutes ∧ options.keepTimeouts := by
  obtain ⟨_, counters, added⟩ := prepare_counts env options len afl
  constructor
  · intro jumps
    exact ⟨jumps.timeout, counters ▸ jumps.room, (prepare_unique _ len afl).mp jumps.unique,
      jumps.stricter, added ▸ jumps.refuted, jumps.kept⟩
  · rintro ⟨timeout, room, unique, stricter, refuted, kept⟩
    exact ⟨timeout, counters ▸ room, (prepare_unique _ len afl).mpr unique, stricter,
      added ▸ refuted, kept⟩

/-- The state after a pass through `save_to_queue` that jumps back, or that leaves the function. -/
theorem runFromQueue_one {fault : Fault} {afl : State sizes} {locals kept : Locals}
    (saving : (saveToQueue env options afl locals).2 = some kept) :
    (runFromQueue env options fault 1 afl locals).afl =
      (switchFault env options fault (saveToQueue env options afl locals).1 kept).afl := by
  unfold runFromQueue
  split
  · next saved failed =>
    rw [failed] at saving
    cases saving
  · next saved passed together =>
    rw [together] at saving ⊢
    cases saving
    cases switched : switchFault env options fault saved kept with
    | left outcome => rfl
    | saveToQueue next jumped => rfl

/-- A call that jumps back counts the timeout before the jump and after it. -/
theorem runSwitch_counts_again {fault : Fault} {afl : State sizes} {locals : Locals}
    (jumps : JumpsBack env options fault afl locals)
    (calibrated : (env.calibrate locals.added).fault ≠ .error) :
    (runSwitch env options fault 1 afl locals).afl.counters.totalTmouts =
      afl.counters.totalTmouts + 2 := by
  obtain ⟨next, jumped, switched, added⟩ := switchFault_jumps jumps
  have first := (switchFault_counts env options fault afl locals).totalTmouts
  rw [switched, if_pos jumps.timeout] at first
  obtain ⟨entry, _, counters⟩ := saveToQueue_adds env options next jumped
  obtain ⟨kept, saving⟩ :=
    saveToQueue_kept options next (added.symm ▸ calibrated)
  have second := (switchFault_counts env options fault
    (saveToQueue env options next jumped).1 kept).totalTmouts
  rw [if_pos jumps.timeout, counters] at second
  unfold runSwitch
  rw [switched]
  calc (runFromQueue env options fault 1 next jumped).afl.counters.totalTmouts
      = next.counters.totalTmouts + 1 := by rw [runFromQueue_one saving, second]
    _ = afl.counters.totalTmouts + 2 := congrArg Nat.succ first

/-- Without a jump the `switch` is the whole run. -/
theorem runSwitch_stays {fault : Fault} {afl : State sizes} {locals : Locals}
    (stays : ¬JumpsBack env options fault afl locals) (fuel : Nat) :
    SwitchCounts (if fault = .tmout then 1 else 0) afl
      (runSwitch env options fault fuel afl locals).afl := by
  have counts := switchFault_counts env options fault afl locals
  obtain ⟨outcome, left⟩ := switchFault_stays stays
  unfold runSwitch
  rw [left] at counts ⊢
  exact counts

/-- With a jump into a calibration that cannot execute the target, the call ends there. -/
theorem runSwitch_fatal {fault : Fault} {afl : State sizes} {locals : Locals}
    (jumps : JumpsBack env options fault afl locals)
    (failed : (env.calibrate locals.added).fault = .error) (fuel : Nat) :
    AtMostOnce afl (runSwitch env options fault fuel afl locals).afl := by
  obtain ⟨next, jumped, switched, added⟩ := switchFault_jumps jumps
  have counts := switchFault_counts env options fault afl locals
  rw [switched, if_pos jumps.timeout] at counts
  obtain ⟨entry, queue, counters⟩ := saveToQueue_adds env options next jumped
  unfold runSwitch
  rw [switched]
  cases fuel with
  | zero => exact counts.atMostOnce_of_left (Nat.le_refl 1)
  | succ fuel =>
    have fatal : (runFromQueue env options fault (fuel + 1) next jumped).afl =
        (saveToQueue env options next jumped).1 := by
      have stopped := saveToQueue_fatal options next (added.symm ▸ failed)
      unfold runFromQueue
      split
      · next saved together => exact (congrArg Prod.fst together).symm
      · next saved kept together =>
        rw [together] at stopped
        cases stopped
    rw [fatal]
    have adds : (saveToQueue env options next jumped).1.queue = afl.queue ++ [entry] :=
      queue.trans (congrArg (· ++ [entry]) counts.queue)
    exact counts.atMostOnce (Nat.le_refl 1) rfl counters adds (Nat.le_refl 1)

theorem saveExpected_atMostOnce {fault : Fault} (noTimeout : fault ≠ .tmout) (fuel : Nat)
    (afl : State sizes) (locals : Locals) :
    AtMostOnce afl (saveExpected env options fault fuel afl locals).afl := by
  unfold saveExpected
  extract_lets found classified
  split
  · rw [Outcome.afl_returned]
    split
    · exact ⟨⟨[], (List.append_nil _).symm, Nat.zero_le 1⟩, Nat.le_refl _, Nat.le_succ _,
        Nat.le_succ _, Nat.le_succ _, Nat.le_succ _⟩
    · exact (AtMostOnce.refl classified).of_same rfl rfl
  · exact (runFromQueue_atMostOnce noTimeout fuel classified _).of_same rfl rfl

theorem Options.expected_ne_tmout (options : Options) : options.expected ≠ .tmout := by
  unfold Options.expected
  split <;> decide

/-- One call counts an execution at most once exactly where it keeps no refuted timeout. -/
theorem saveIfInteresting_atMostOnce_iff (env : Env sizes) (options : Options) (afl : State sizes)
    (len : UInt32) (fault : Fault) :
    (∀ fuel, AtMostOnce afl (saveIfInteresting env options fuel afl len fault).afl) ↔
      ¬KeepsRefuted env options afl len fault := by
  obtain ⟨queue, counters, added⟩ := prepare_counts env options len afl
  constructor
  · rintro once ⟨nonempty, rfl, heeded, room, unique, stricter, refuted, kept, calibrated⟩
    have jumps : JumpsBack env options .tmout (prepare env options len afl).1
        (prepare env options len afl).2 :=
      jumpsBack_prepare_iff.mpr ⟨rfl, room, unique, stricter, refuted, kept⟩
    have again := runSwitch_counts_again jumps (added ▸ calibrated)
    have bound := (once 1).totalTmouts
    simp only [saveIfInteresting, if_neg nonempty, heeded, Bool.false_eq_true, and_false, if_false,
      if_neg options.expected_ne_tmout.symm] at bound
    rw [again, counters] at bound
    exact Nat.not_succ_le_self _ bound
  · intro clear fuel
    unfold saveIfInteresting
    split
    · exact .refl afl
    · next nonempty =>
      split
      · next ignored =>
        rw [Outcome.afl_returned]
        split
        · exact (AtMostOnce.refl _).of_same rfl rfl
        · exact .refl afl
      · next heeded =>
        extract_lets prepared
        split
        · next expected =>
          have noTimeout : fault ≠ .tmout := expected ▸ options.expected_ne_tmout
          exact (saveExpected_atMostOnce noTimeout fuel _ _).of_same queue counters
        · by_cases jumps : JumpsBack env options fault prepared.1 prepared.2
          · by_cases failed : (env.calibrate prepared.2.added).fault = .error
            · exact (runSwitch_fatal jumps failed fuel).of_same queue counters
            · obtain ⟨timeout, room, unique, stricter, refuted, kept⟩ := jumpsBack_prepare_iff.mp jumps
              have unignored : options.ignoreTimeouts = false := by simpa [timeout] using heeded
              exact absurd ⟨nonempty, timeout, unignored, room, unique, stricter, refuted, kept,
                added ▸ failed⟩ clear
          · have counts := runSwitch_stays jumps fuel
            exact (counts.atMostOnce_of_left (by split <;> decide)).of_same queue counters

/-! ## A slow target -/

def smallSizes : MapSizes := ⟨64, 64, rfl⟩

def blankMap : CoverageMap smallSizes := ⟨[0, 0, 0, 0, 0, 0, 0, 0], rfl⟩

def virginWords : CoverageMap smallSizes :=
  ⟨[~~~0, ~~~0, ~~~0, ~~~0, ~~~0, ~~~0, ~~~0, ~~~0], rfl⟩

def freshState : State smallSizes where
  maps := ⟨blankMap, fun _ => virginWords, false⟩
  queue := []
  queuedWithCov := 0
  nFuzz := fun _ => 0
  fuzzMode := false
  counters := ⟨0, 0, 0, 0, 0⟩

/-- The target ends well when it has the time of `hang_tmout`. -/
def slowEnv : Env smallSizes where
  hash64 := fun _ => 1
  rerun := fun _ => ⟨4, .ok, false, blankMap⟩
  calibrate := fun _ => ⟨.tmout, blankMap, virginWords, 1, false⟩

/-- `AFL_KEEP_TIMEOUTS` is set. -/
def keepTimeoutOptions : Options where
  schedule := .explore
  ignoreTimeouts := false
  keepTimeouts := true
  nonInstrumentedMode := false
  crashMode := false
  switchFuzzMode := false
  execTmout := 20
  hangTmout := 1000

/-- The timeout of this call is counted twice. -/
theorem saveIfInteresting_countsTwice :
    ¬∀ fuel, AtMostOnce freshState
      (saveIfInteresting slowEnv keepTimeoutOptions fuel freshState 4 .tmout).afl := by
  intro once
  have twice : (saveIfInteresting slowEnv keepTimeoutOptions 1 freshState 4 .tmout).afl.counters.totalTmouts =
      2 := by decide +kernel
  have bound := (once 1).totalTmouts
  rw [twice] at bound
  exact absurd bound (by decide)

end SbFuzz.Fuzzer.SaveIfInteresting
