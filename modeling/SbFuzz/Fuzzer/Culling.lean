import SbFuzz.Fuzzer.Queue
import SbFuzz.Systems.Loops

/-! What `cull_queue` makes of a queue: a cover of the top-rated bytes by
favored entries, exact counters, and marks on the entries that are left out. -/

set_option autoImplicit false

namespace SbFuzz.Fuzzer

open SbFuzz.Systems

/-! ## Loops over the queue -/

@[simp] theorem Afl.modify_id (afl : Afl) (q : Nat) : (afl.modify q fun entry => entry) = afl := by
  simp [Afl.modify]

/-- A loop that applies one assignment to every entry. -/
theorem Afl.foldl_modify (afl : Afl) (change : QueueEntry → QueueEntry) (n : Nat) :
    (List.range n).foldl (fun afl i => afl.modify i change) afl =
      { afl with
        queueBuf := fun q => if q < n then change (afl.queueBuf q) else afl.queueBuf q } := by
  induction n with
  | zero => simp
  | succ n ih =>
      rw [List.range_succ, List.foldl_append, ih]
      simp only [List.foldl_cons, List.foldl_nil, Afl.modify]
      congr 1
      funext q
      rw [Function.update_apply]
      by_cases last : q = n
      · simp [last]
      · have same : q < n + 1 ↔ q < n := by omega
        simp [last, same]

theorem Afl.forgetFavored_queueBuf (afl : Afl) (q : Nat) : afl.forgetFavored.queueBuf q =
    if q < afl.queuedItems then { afl.queueBuf q with favored := false } else afl.queueBuf q := by
  simp only [Afl.forgetFavored, Afl.foldl_modify]

/-- What the last loop of `cull_queue` does to one entry. -/
def QueueEntry.culled (config : Config) (entry : QueueEntry) : QueueEntry :=
  if entry.disabled then entry
  else
    { entry with
      fsRedundant := !entry.favored
      disabled := !entry.favored && !entry.fsRedundant && config.disableRedundant }

theorem cullRedundant_eq_modify (config : Config) (afl : Afl) (i : Nat) :
    cullRedundant config afl i = afl.modify i (QueueEntry.culled config) := by
  unfold cullRedundant markAsRedundant
  split
  · next disabled =>
    have same : (afl.queueBuf i).culled config = afl.queueBuf i := by
      simp [QueueEntry.culled, disabled]
    simp [Afl.modify, same]
  · next enabled =>
    split
    · next marked =>
      have same : (afl.queueBuf i).culled config = afl.queueBuf i := by
        cases entry : afl.queueBuf i
        simp_all [QueueEntry.culled]
      simp [Afl.modify, same]
    · next unmarked =>
      simp only [Afl.modify]
      congr 2
      cases entry : afl.queueBuf i
      rename_i favored redundant _ _ _ _ _ _ _
      cases favored <;> cases redundant <;> simp_all [QueueEntry.culled]

/-! ## The cover -/

def QueueEntry.unfavored (entry : QueueEntry) : QueueEntry := { entry with favored := false }

/-- The part of the state that the choice of favored entries leaves alone. -/
def Afl.unfavored (afl : Afl) : Afl :=
  { afl with
    queueBuf := fun q => (afl.queueBuf q).unfavored
    scoreChanged := false
    queuedFavored := 0
    pendingFavored := 0
    smallestFavored := -1 }

/-- The counters say what the marks say. -/
structure Afl.Tallied (afl : Afl) : Prop where
  queued : afl.queuedFavored =
    Nat.count (fun q => (afl.queueBuf q).favored = true) afl.queuedItems
  pending : afl.pendingFavored = Nat.count (fun q =>
    (afl.queueBuf q).favored = true ∧ (afl.queueBuf q).wasFuzzed = false) afl.queuedItems

/-- `smallest_favored` is the number of a favored entry that was not fuzzed,
or negative if there is none. -/
def Afl.Smallest (afl : Afl) : Prop :=
  (afl.smallestFavored < 0 ∧ ∀ q < afl.queuedItems, (afl.queueBuf q).favored = true →
      (afl.queueBuf q).wasFuzzed = true) ∨
    ∃ q < afl.queuedItems, afl.smallestFavored = q ∧ (afl.queueBuf q).favored = true ∧
      (afl.queueBuf q).wasFuzzed = false

section

variable (afl : Afl)

@[simp] theorem Afl.forgetFavored_unfavored : afl.forgetFavored.unfavored = afl.unfavored := by
  simp only [Afl.unfavored, Afl.forgetFavored, Afl.foldl_modify]
  congr 1
  funext q
  split <;> rfl

theorem Afl.forgetFavored_favored {q : Nat} (inQueue : q < afl.queuedItems) :
    (afl.forgetFavored.queueBuf q).favored = false := by
  rw [Afl.forgetFavored_queueBuf, if_pos inQueue]

@[simp] theorem Afl.forgetFavored_queuedItems :
    afl.forgetFavored.queuedItems = afl.queuedItems := by
  simp only [Afl.forgetFavored, Afl.foldl_modify]

theorem Afl.forgetFavored_tallied : afl.forgetFavored.Tallied := by
  have none : ∀ q < afl.forgetFavored.queuedItems,
      (afl.forgetFavored.queueBuf q).favored = false := by
    intro q inQueue
    exact afl.forgetFavored_favored (afl.forgetFavored_queuedItems ▸ inQueue)
  constructor
  · exact (Nat.count_of_forall_not fun q inQueue => by simp [none q inQueue]).symm
  · exact (Nat.count_of_forall_not fun q inQueue => by simp [none q inQueue]).symm

theorem Afl.forgetFavored_smallest : afl.forgetFavored.Smallest := by
  refine .inl ⟨Int.negSucc_lt_zero 0, fun q inQueue favored => ?_⟩
  rw [afl.forgetFavored_queuedItems] at inQueue
  rw [afl.forgetFavored_favored inQueue] at favored
  exact absurd favored (by decide)

variable (top : Nat)

@[simp] theorem Afl.favor_unfavored : (afl.favor top).unfavored = afl.unfavored := by
  unfold Afl.favor
  split
  · rfl
  · have marked : (afl.modify top fun entry => { entry with favored := true }).unfavored =
        afl.unfavored := by
      simp only [Afl.unfavored, Afl.modify]
      congr 1
      funext q
      rw [Function.update_apply]
      split
      · next here => rw [here]; rfl
      · rfl
    split
    · exact marked
    · exact marked

theorem Afl.favor_favored (q : Nat) : ((afl.favor top).queueBuf q).favored = true ↔
    (afl.queueBuf q).favored = true ∨ q = top := by
  unfold Afl.favor
  split
  · next already => exact ⟨.inl, fun either => either.elim id fun here => here ▸ already⟩
  · have marked : (((afl.modify top fun entry => { entry with favored := true }).queueBuf
        q).favored = true ↔ (afl.queueBuf q).favored = true ∨ q = top) := by
      rw [Afl.modify_queueBuf]
      split
      · next here => simp [here]
      · next elsewhere => simp [elsewhere]
    split
    · exact marked
    · exact marked

end

section

variable {before after : Afl}

theorem Afl.entry_of_unfavored (same : after.unfavored = before.unfavored) (q : Nat) :
    (after.queueBuf q).unfavored = (before.queueBuf q).unfavored := by
  have kept : after.unfavored.queueBuf q = before.unfavored.queueBuf q := by rw [same]
  exact kept

theorem Afl.wasFuzzed_of_unfavored (same : after.unfavored = before.unfavored) (q : Nat) :
    (after.queueBuf q).wasFuzzed = (before.queueBuf q).wasFuzzed := by
  have kept : (after.queueBuf q).unfavored.wasFuzzed = (before.queueBuf q).unfavored.wasFuzzed := by
    rw [Afl.entry_of_unfavored same q]
  exact kept

theorem Afl.traceMini_of_unfavored (same : after.unfavored = before.unfavored) (q : Nat) :
    (after.queueBuf q).traceMini = (before.queueBuf q).traceMini := by
  have kept : (after.queueBuf q).unfavored.traceMini = (before.queueBuf q).unfavored.traceMini := by
    rw [Afl.entry_of_unfavored same q]
  exact kept

theorem Afl.tcRef_of_unfavored (same : after.unfavored = before.unfavored) (q : Nat) :
    (after.queueBuf q).tcRef = (before.queueBuf q).tcRef := by
  have kept : (after.queueBuf q).unfavored.tcRef = (before.queueBuf q).unfavored.tcRef := by
    rw [Afl.entry_of_unfavored same q]
  exact kept

theorem Afl.topRated_of_unfavored (same : after.unfavored = before.unfavored) :
    after.topRated = before.topRated := by
  have kept : after.unfavored.topRated = before.unfavored.topRated := by rw [same]
  exact kept

theorem Afl.items_of_unfavored (same : after.unfavored = before.unfavored) :
    after.queuedItems = before.queuedItems := by
  have kept : after.unfavored.queuedItems = before.unfavored.queuedItems := by rw [same]
  exact kept

end

theorem Afl.Tallied.favor {afl : Afl} {top : Nat} (tallied : afl.Tallied)
    (inQueue : top < afl.queuedItems) : (afl.favor top).Tallied := by
  by_cases already : (afl.queueBuf top).favored = true
  · rwa [Afl.favor, if_pos already]
  · have same := afl.favor_unfavored top
    have items := Afl.items_of_unfavored same
    have fuzzed := Afl.wasFuzzed_of_unfavored same
    have marks := afl.favor_favored top
    have others : ∀ q, q ≠ top →
        (((afl.favor top).queueBuf q).favored = true ↔ (afl.queueBuf q).favored = true) :=
      fun q other => by rw [marks, or_iff_left other]
    have queued : (afl.favor top).queuedFavored = afl.queuedFavored + 1 := by
      rw [Afl.favor, if_neg already]
      split <;> rfl
    have pending : (afl.favor top).pendingFavored =
        afl.pendingFavored + if (afl.queueBuf top).wasFuzzed = false then 1 else 0 := by
      rw [Afl.favor, if_neg already]
      cases fuzzed : (afl.queueBuf top).wasFuzzed <;> simp
    constructor
    · rw [queued, items, tallied.queued]
      symm
      exact count_eq_add_one inQueue others ((marks top).mpr (.inr rfl)) already
    · rw [pending, items, tallied.pending]
      have changed := count_add_indicator
        (p := fun q => ((afl.favor top).queueBuf q).favored = true ∧
          ((afl.favor top).queueBuf q).wasFuzzed = false)
        (q := fun q => (afl.queueBuf q).favored = true ∧ (afl.queueBuf q).wasFuzzed = false)
        inQueue fun q other => by rw [others q other, fuzzed]
      simpa [already, fuzzed top, marks top] using changed.symm

theorem Afl.Smallest.favor {afl : Afl} {top : Nat} (smallest : afl.Smallest)
    (inQueue : top < afl.queuedItems) : (afl.favor top).Smallest := by
  by_cases already : (afl.queueBuf top).favored = true
  · rwa [Afl.favor, if_pos already]
  · have same := afl.favor_unfavored top
    have items := Afl.items_of_unfavored same
    have fuzzed := Afl.wasFuzzed_of_unfavored same
    have marks := afl.favor_favored top
    have number : (afl.favor top).smallestFavored =
        if (afl.queueBuf top).wasFuzzed = false ∧ afl.smallestFavored < 0 then (top : Int)
        else afl.smallestFavored := by
      rw [Afl.favor, if_neg already]
      cases fuzzed : (afl.queueBuf top).wasFuzzed <;> simp
    unfold Afl.Smallest
    rw [number, items]
    simp only [fuzzed, marks]
    rcases smallest with ⟨negative, finished⟩ | ⟨q, found, is, favored, pending⟩
    · cases topFuzzed : (afl.queueBuf top).wasFuzzed with
      | true =>
          refine .inl ⟨by simpa using negative, fun q inside favored => ?_⟩
          rcases favored with earlier | here
          · exact finished q inside earlier
          · exact here ▸ topFuzzed
      | false => exact .inr ⟨top, inQueue, by simp [negative], .inr rfl, topFuzzed⟩
    · refine .inr ⟨q, found, ?_, .inl favored, pending⟩
      rw [if_neg fun taken => by omega, is]

/-- Bit `i` is set in the minimised trace of the entry. -/
def QueueEntry.Traces (entry : QueueEntry) (i : Nat) : Prop :=
  ∃ mini, entry.traceMini = some mini ∧ mini.has i = true

/-- Some favored entry has bit `i` in its minimised trace. -/
def Afl.CoveredByFavored (afl : Afl) (i : Nat) : Prop :=
  ∃ q < afl.queuedItems, (afl.queueBuf q).favored = true ∧ (afl.queueBuf q).Traces i

/-- The state after `n` rounds of the second loop of `cull_queue`. -/
structure Culling.Covers (config : Config) (before : Afl) (n : Nat) (culling : Culling) :
    Prop where
  same : culling.afl.unfavored = before.unfavored
  tallied : culling.afl.Tallied
  smallest : culling.afl.Smallest
  earned : ∀ q < before.queuedItems, (culling.afl.queueBuf q).favored = true →
    ∃ i < n, before.topRated i = some q
  cleared : ∀ i < config.mapSize, culling.tempV.has i = false → culling.afl.CoveredByFavored i
  chosen : ∀ i < n, ∀ q, before.topRated i = some q →
    (culling.afl.queueBuf q).favored = true ∨ culling.afl.CoveredByFavored i

theorem Afl.CoveredByFavored.favor {afl : Afl} {i : Nat} (covered : afl.CoveredByFavored i)
    (top : Nat) : (afl.favor top).CoveredByFavored i := by
  obtain ⟨q, inQueue, favored, mini, made, has⟩ := covered
  have same := afl.favor_unfavored top
  refine ⟨q, Afl.items_of_unfavored same ▸ inQueue, ?_, mini, ?_, has⟩
  · exact (afl.favor_favored top q).mpr (.inl favored)
  · rw [Afl.traceMini_of_unfavored same, made]

section

variable {config : Config} {before : Afl} {n : Nat} {culling : Culling}

/-- The round leaves everything as it is. -/
theorem Culling.Covers.skip (covers : culling.Covers config before n)
    (settled : ∀ q, before.topRated n = some q →
      (culling.afl.queueBuf q).favored = true ∨ culling.afl.CoveredByFavored n) :
    culling.Covers config before (n + 1) := by
  refine ⟨covers.same, covers.tallied, covers.smallest, ?_, covers.cleared, ?_⟩
  · intro q inQueue favored
    obtain ⟨i, below, holds⟩ := covers.earned q inQueue favored
    exact ⟨i, by omega, holds⟩
  · intro i below q holds
    rcases Nat.lt_succ_iff_lt_or_eq.mp below with earlier | here
    · exact covers.chosen i earlier q holds
    · subst here
      exact settled q holds

/-- The bits that go from `temp_v` are those of the entry that becomes favored. -/
theorem Culling.traces_of_removed {top i : Nat} (inRange : i < config.mapSize)
    (there : culling.tempV.has i = true)
    (removed : (culling.tempV.without ((culling.afl.queueBuf top).traceMini.getD fun _ => 0)
      (config.mapSize / 8)).has i = false) : (culling.afl.queueBuf top).Traces i := by
  have inBytes : i < 8 * (config.mapSize / 8) := by
    have whole := config.wholeBytes
    omega
  have traced : ((culling.afl.queueBuf top).traceMini.getD fun _ => 0).has i = true := by
    by_contra missing
    have still := (Memory.BitSet.has_without _ _ inBytes).mpr
      ⟨there, Bool.eq_false_iff.mpr missing⟩
    exact Bool.eq_false_iff.mp removed still
  cases made : (culling.afl.queueBuf top).traceMini with
  | none =>
      rw [made, Option.getD_none, Memory.BitSet.has_empty] at traced
      exact absurd traced (by decide)
  | some mini =>
      rw [made, Option.getD_some] at traced
      exact ⟨mini, made, traced⟩

theorem Culling.Covers.pick {top : Nat} (covers : culling.Covers config before n)
    (holder : before.topRated n = some top) (inQueue : top < before.queuedItems) :
    Culling.Covers config before (n + 1)
      { afl := culling.afl.favor top
        tempV := culling.tempV.without
          ((culling.afl.queueBuf top).traceMini.getD fun _ => 0) (config.mapSize / 8) } := by
  have inside : top < culling.afl.queuedItems := Afl.items_of_unfavored covers.same ▸ inQueue
  have marks := culling.afl.favor_favored top
  have kept := culling.afl.favor_unfavored top
  refine ⟨kept.trans covers.same, covers.tallied.favor inside, covers.smallest.favor inside,
    ?_, ?_, ?_⟩
  · intro q found favored
    rcases (marks q).mp favored with earlier | here
    · obtain ⟨i, below, holds⟩ := covers.earned q found earlier
      exact ⟨i, by omega, holds⟩
    · exact ⟨n, Nat.lt_succ_self n, here ▸ holder⟩
  · intro i inRange cleared
    by_cases there : culling.tempV.has i = true
    · obtain ⟨mini, made, has⟩ := Culling.traces_of_removed inRange there cleared
      refine ⟨top, Afl.items_of_unfavored kept ▸ inside, (marks top).mpr (.inr rfl), mini, ?_, has⟩
      rw [Afl.traceMini_of_unfavored kept, made]
    · exact (covers.cleared i inRange (Bool.eq_false_iff.mpr there)).favor top
  · intro i below q holds
    rcases Nat.lt_succ_iff_lt_or_eq.mp below with earlier | here
    · exact (covers.chosen i earlier q holds).imp (fun favored => (marks q).mpr (.inl favored))
        fun covered => covered.favor top
    · rw [here, holder] at holds
      exact .inl ((marks q).mpr (.inr (Option.some.inj holds).symm))

theorem Culling.Covers.round (inMap : n < config.mapSize)
    (owners : ∀ i < config.mapSize, ∀ q, before.topRated i = some q → q < before.queuedItems)
    (covers : culling.Covers config before n) :
    (cullByte config culling n).Covers config before (n + 1) := by
  have tops := Afl.topRated_of_unfavored covers.same
  cases holder : before.topRated n with
  | none =>
      have unchanged : cullByte config culling n = culling := by
        rw [cullByte, tops, holder]
      rw [unchanged]
      exact covers.skip fun q holds => absurd (holder.symm.trans holds) (by simp)
  | some top =>
      by_cases there : culling.tempV.has n = true
      · have picked := covers.pick holder (owners n inMap top holder)
        simpa only [cullByte, tops, holder, there, if_true] using picked
      · have unchanged : cullByte config culling n = culling := by
          simp only [cullByte, tops, holder, there, if_false, Bool.false_eq_true]
        rw [unchanged]
        exact covers.skip fun q _ =>
          .inr (covers.cleared n inMap (Bool.eq_false_iff.mpr there))

end

theorem Afl.coverBytes_covers (config : Config) (afl : Afl)
    (owners : ∀ i < config.mapSize, ∀ q, afl.topRated i = some q → q < afl.queuedItems) :
    (afl.coverBytes config).Covers config afl config.mapSize := by
  unfold Afl.coverBytes
  apply foldl_range_induction (fun n (culling : Culling) => culling.Covers config afl n)
  · refine ⟨afl.forgetFavored_unfavored, afl.forgetFavored_tallied, afl.forgetFavored_smallest,
      ?_, ?_, ?_⟩
    · intro q inQueue favored
      rw [afl.forgetFavored_favored inQueue] at favored
      exact absurd favored (by decide)
    · intro i _ cleared
      rw [Memory.BitSet.has_full] at cleared
      exact absurd cleared (by decide)
    · exact fun i below => absurd below (Nat.not_lt_zero i)
  · exact fun n inMap _ covers => covers.round inMap owners

/-! ## The whole function -/

section

variable (config : Config) (afl : Afl)

theorem cullQueue_of_unchanged (unchanged : afl.scoreChanged = false) :
    cullQueue config afl = afl := by
  simp [cullQueue, unchanged]

theorem cullQueue_of_nonInstrumented (plain : config.nonInstrumentedMode = true) :
    cullQueue config afl = afl := by
  simp [cullQueue, plain]

theorem cullQueue_of_changed (changed : afl.scoreChanged = true)
    (instrumented : config.nonInstrumentedMode = false) :
    cullQueue config afl =
      { (afl.coverBytes config).afl with
        queueBuf := fun q =>
          if q < (afl.coverBytes config).afl.queuedItems then
            ((afl.coverBytes config).afl.queueBuf q).culled config
          else (afl.coverBytes config).afl.queueBuf q
        reinitTable := true } := by
  have body : cullRedundant config = fun afl i => afl.modify i (QueueEntry.culled config) := by
    funext afl i
    exact cullRedundant_eq_modify config afl i
  simp only [cullQueue, changed, instrumented, Bool.not_true, Bool.or_self, Bool.false_eq_true,
    if_false, body, Afl.foldl_modify]

@[simp] theorem QueueEntry.culled_favored (entry : QueueEntry) :
    (entry.culled config).favored = entry.favored := by
  unfold QueueEntry.culled
  split <;> rfl

@[simp] theorem QueueEntry.culled_wasFuzzed (entry : QueueEntry) :
    (entry.culled config).wasFuzzed = entry.wasFuzzed := by
  unfold QueueEntry.culled
  split <;> rfl

@[simp] theorem QueueEntry.culled_calFailed (entry : QueueEntry) :
    (entry.culled config).calFailed = entry.calFailed := by
  unfold QueueEntry.culled
  split <;> rfl

@[simp] theorem QueueEntry.culled_fuzzLevel (entry : QueueEntry) :
    (entry.culled config).fuzzLevel = entry.fuzzLevel := by
  unfold QueueEntry.culled
  split <;> rfl

@[simp] theorem QueueEntry.culled_tcRef (entry : QueueEntry) :
    (entry.culled config).tcRef = entry.tcRef := by
  unfold QueueEntry.culled
  split <;> rfl

@[simp] theorem QueueEntry.culled_traceMini (entry : QueueEntry) :
    (entry.culled config).traceMini = entry.traceMini := by
  unfold QueueEntry.culled
  split <;> rfl

/-- The entry is chosen by the greedy loop of `cull_queue`. -/
def Afl.Chosen (q : Nat) : Bool := ((afl.coverBytes config).afl.queueBuf q).favored

end

section

variable {config : Config} {afl : Afl}

theorem Afl.coverBytes_entry
    (covers : (afl.coverBytes config).Covers config afl config.mapSize) (q : Nat) :
    (afl.coverBytes config).afl.queueBuf q =
      { afl.queueBuf q with favored := afl.Chosen config q } := by
  have same := Afl.entry_of_unfavored covers.same q
  unfold Afl.Chosen
  generalize (afl.coverBytes config).afl.queueBuf q = entry at same
  cases entry
  simp_all [QueueEntry.unfavored]

theorem cullQueue_queuedItems (config : Config) (afl : Afl)
    (owners : ∀ i < config.mapSize, ∀ q, afl.topRated i = some q → q < afl.queuedItems) :
    (cullQueue config afl).queuedItems = afl.queuedItems := by
  have items := Afl.items_of_unfavored (afl.coverBytes_covers config owners).same
  cases changed : afl.scoreChanged with
  | false => rw [cullQueue_of_unchanged config afl changed]
  | true =>
      cases plain : config.nonInstrumentedMode with
      | true => rw [cullQueue_of_nonInstrumented config afl plain]
      | false => rw [cullQueue_of_changed config afl changed plain, items]

theorem cullQueue_entry (changed : afl.scoreChanged = true)
    (instrumented : config.nonInstrumentedMode = false)
    (owners : ∀ i < config.mapSize, ∀ q, afl.topRated i = some q → q < afl.queuedItems)
    {q : Nat} (inQueue : q < afl.queuedItems) :
    (cullQueue config afl).queueBuf q =
      ({ afl.queueBuf q with favored := afl.Chosen config q } : QueueEntry).culled config := by
  have covers := afl.coverBytes_covers config owners
  have items := Afl.items_of_unfavored covers.same
  rw [cullQueue_of_changed config afl changed instrumented]
  simp only [items, if_pos inQueue]
  rw [Afl.coverBytes_entry covers]

theorem Afl.CoveredByFavored.culled {i : Nat} (changed : afl.scoreChanged = true)
    (instrumented : config.nonInstrumentedMode = false)
    (owners : ∀ i < config.mapSize, ∀ q, afl.topRated i = some q → q < afl.queuedItems)
    (covered : (afl.coverBytes config).afl.CoveredByFavored i) :
    (cullQueue config afl).CoveredByFavored i := by
  have covers := afl.coverBytes_covers config owners
  obtain ⟨q, inQueue, favored, mini, made, has⟩ := covered
  rw [Afl.items_of_unfavored covers.same] at inQueue
  have entry := cullQueue_entry changed instrumented owners inQueue
  rw [Afl.coverBytes_entry covers] at favored made
  refine ⟨q, cullQueue_queuedItems config afl owners ▸ inQueue, ?_, mini, ?_, has⟩
  · rw [entry, QueueEntry.culled_favored]
    exact favored
  · rw [entry, QueueEntry.culled_traceMini]
    exact made

/-- Counters over the queue read the marks that the last loop leaves alone. -/
theorem cullQueue_tallied (changed : afl.scoreChanged = true)
    (instrumented : config.nonInstrumentedMode = false)
    (owners : ∀ i < config.mapSize, ∀ q, afl.topRated i = some q → q < afl.queuedItems) :
    (cullQueue config afl).Tallied ∧ (cullQueue config afl).Smallest := by
  have covers := afl.coverBytes_covers config owners
  have marks : ∀ q, ((cullQueue config afl).queueBuf q).favored =
        ((afl.coverBytes config).afl.queueBuf q).favored ∧
      ((cullQueue config afl).queueBuf q).wasFuzzed =
        ((afl.coverBytes config).afl.queueBuf q).wasFuzzed := by
    intro q
    rw [cullQueue_of_changed config afl changed instrumented]
    simp only
    split <;> simp
  have queued : (cullQueue config afl).queuedFavored =
      (afl.coverBytes config).afl.queuedFavored := by
    rw [cullQueue_of_changed config afl changed instrumented]
  have pending : (cullQueue config afl).pendingFavored =
      (afl.coverBytes config).afl.pendingFavored := by
    rw [cullQueue_of_changed config afl changed instrumented]
  have smallest : (cullQueue config afl).smallestFavored =
      (afl.coverBytes config).afl.smallestFavored := by
    rw [cullQueue_of_changed config afl changed instrumented]
  have items : (cullQueue config afl).queuedItems =
      (afl.coverBytes config).afl.queuedItems := by
    rw [cullQueue_of_changed config afl changed instrumented]
  constructor
  · constructor
    · rw [queued, items, covers.tallied.queued]
      simp only [marks]
    · rw [pending, items, covers.tallied.pending]
      simp only [marks]
  · simpa only [Afl.Smallest, smallest, items, marks] using covers.smallest

theorem cullQueue_smallest (config : Config) {afl : Afl}
    (owners : ∀ i < config.mapSize, ∀ q, afl.topRated i = some q → q < afl.queuedItems)
    (bound : afl.smallestFavored < max 1 afl.queuedItems) :
    (cullQueue config afl).smallestFavored < max 1 (cullQueue config afl).queuedItems := by
  cases changed : afl.scoreChanged with
  | false => rwa [cullQueue_of_unchanged config afl changed]
  | true =>
      cases plain : config.nonInstrumentedMode with
      | true => rwa [cullQueue_of_nonInstrumented config afl plain]
      | false =>
          rcases (cullQueue_tallied changed plain owners).2 with ⟨none, _⟩ | ⟨q, inside, same, _⟩
          · omega
          · rw [same]
            omega

end

/-- After `cull_queue` the favored entries cover every byte that has a
top-rated entry, and the counters and redundancy marks agree with them. -/
theorem cullQueue_favored (config : Config) (afl : Afl)
    (instrumented : config.nonInstrumentedMode = false) (changed : afl.scoreChanged = true)
    (tops : ∀ i < config.mapSize, ∀ q, afl.topRated i = some q →
      q < afl.queuedItems ∧ (afl.queueBuf q).Traces i) :
    (cullQueue config afl).topRated = afl.topRated ∧
    (∀ i < config.mapSize, afl.topRated i ≠ none → (cullQueue config afl).CoveredByFavored i) ∧
    (cullQueue config afl).Tallied ∧
    ∀ q < afl.queuedItems, (afl.queueBuf q).disabled = false →
      ((cullQueue config afl).queueBuf q).fsRedundant =
        !((cullQueue config afl).queueBuf q).favored := by
  have owners : ∀ i < config.mapSize, ∀ q, afl.topRated i = some q → q < afl.queuedItems :=
    fun i inMap q holds => (tops i inMap q holds).1
  have covers := afl.coverBytes_covers config owners
  have kept := Afl.topRated_of_unfavored covers.same
  refine ⟨?_, ?_, (cullQueue_tallied changed instrumented owners).1, ?_⟩
  · rw [cullQueue_of_changed config afl changed instrumented]
    exact kept
  · intro i inMap held
    obtain ⟨q, holds⟩ := Option.ne_none_iff_exists'.mp held
    apply Afl.CoveredByFavored.culled changed instrumented owners
    rcases covers.chosen i inMap q holds with favored | covered
    · obtain ⟨inQueue, mini, made, has⟩ := tops i inMap q holds
      refine ⟨q, Afl.items_of_unfavored covers.same ▸ inQueue, favored, mini, ?_, has⟩
      rw [Afl.traceMini_of_unfavored covers.same, made]
    · exact covered
  · intro q inQueue enabled
    rw [cullQueue_entry changed instrumented owners inQueue, QueueEntry.culled_favored]
    simp [QueueEntry.culled, enabled]

theorem cullQueue_favored_oneEntry :
    let config : Config :=
      { mapSize := 8
        wholeBytes := rfl
        fixedSeed := false
        nonInstrumentedMode := false
        disableRedundant := true }
    let added := addToQueue (.initial .explore) 4
    let afl : Afl :=
      { added.modify 0 fun entry => { entry with tcRef := 1, traceMini := some fun _ => 1 } with
        topRated := fun i => if i = 0 then some 0 else none
        scoreChanged := true }
    (cullQueue config afl).CoveredByFavored 0 ∧ (cullQueue config afl).Tallied := by
  intro config added afl
  have tops : ∀ i < config.mapSize, ∀ q, afl.topRated i = some q →
      q < afl.queuedItems ∧ (afl.queueBuf q).Traces i := by
    intro i _ q holds
    have first : i = 0 ∧ 0 = q := by simpa [afl] using holds
    obtain ⟨rfl, rfl⟩ := first
    exact ⟨by decide, fun _ => 1, rfl, by decide⟩
  obtain ⟨_, covered, tallied, _⟩ := cullQueue_favored config afl rfl rfl tops
  exact ⟨covered 0 (by decide) (by decide), tallied⟩

end SbFuzz.Fuzzer
