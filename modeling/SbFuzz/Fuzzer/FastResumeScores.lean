import SbFuzz.Fuzzer.FastResume
import SbFuzz.Fuzzer.Scoring

/-! The scores of a process after a fast resume: references are the saved ones
plus one for every byte that the loader hands out, and those are the bytes that
the trace buffer happens to hit. -/

set_option autoImplicit false

namespace SbFuzz.Fuzzer

open SbFuzz.Systems

section

variable (afl : Afl) (i : Nat)

@[simp] theorem Afl.countLoaded_queueBuf : (afl.countLoaded i).queueBuf = afl.queueBuf := by
  simp only [Afl.countLoaded]
  split <;> split <;> split <;> rfl

@[simp] theorem Afl.countLoaded_queuedItems :
    (afl.countLoaded i).queuedItems = afl.queuedItems := by
  simp only [Afl.countLoaded]
  split <;> split <;> split <;> rfl

@[simp] theorem Afl.countLoaded_topRated : (afl.countLoaded i).topRated = afl.topRated := by
  simp only [Afl.countLoaded]
  split <;> split <;> split <;> rfl

@[simp] theorem Afl.countLoaded_traceBits : (afl.countLoaded i).traceBits = afl.traceBits := by
  simp only [Afl.countLoaded]
  split <;> split <;> split <;> rfl

@[simp] theorem Afl.countLoaded_scoreChanged :
    (afl.countLoaded i).scoreChanged = afl.scoreChanged := by
  simp only [Afl.countLoaded]
  split <;> split <;> split <;> rfl

@[simp] theorem Afl.countLoaded_smallestFavored :
    (afl.countLoaded i).smallestFavored = afl.smallestFavored := by
  simp only [Afl.countLoaded]
  split <;> split <;> split <;> rfl

end

/-! ## Counters -/

section

variable (afl : Afl) (i : Nat)

theorem Afl.countLoaded_activeItems : (afl.countLoaded i).activeItems =
    afl.activeItems - if (afl.queueBuf i).disabled = true then 1 else 0 := by
  simp only [Afl.countLoaded]
  cases (afl.queueBuf i).wasFuzzed <;> cases (afl.queueBuf i).disabled <;>
    cases (afl.queueBuf i).favored <;> rfl

theorem Afl.countLoaded_pendingNotFuzzed : (afl.countLoaded i).pendingNotFuzzed =
    afl.pendingNotFuzzed -
      if (afl.queueBuf i).wasFuzzed = true ∨ (afl.queueBuf i).disabled = true then 1 else 0 := by
  simp only [Afl.countLoaded]
  cases (afl.queueBuf i).wasFuzzed <;> cases (afl.queueBuf i).disabled <;>
    cases (afl.queueBuf i).favored <;> rfl

theorem Afl.countLoaded_queuedFavored : (afl.countLoaded i).queuedFavored =
    afl.queuedFavored + if (afl.queueBuf i).favored = true then 1 else 0 := by
  simp only [Afl.countLoaded]
  cases (afl.queueBuf i).wasFuzzed <;> cases (afl.queueBuf i).disabled <;>
    cases (afl.queueBuf i).favored <;> rfl

theorem Afl.countLoaded_pendingFavored : (afl.countLoaded i).pendingFavored =
    afl.pendingFavored +
      if (afl.queueBuf i).favored = true ∧ (afl.queueBuf i).wasFuzzed = false then 1 else 0 := by
  simp only [Afl.countLoaded]
  cases (afl.queueBuf i).wasFuzzed <;> cases (afl.queueBuf i).disabled <;>
    cases (afl.queueBuf i).favored <;> rfl

end

/-! ## The loop of the loader -/

/-- The state of the loader before record `k`. -/
structure LoadedUpTo (config : Config) (len : Nat → UInt32) (traceBits : Nat → UInt8)
    (shutdown : Afl) (k : Nat) (state : Afl) : Prop where
  items : state.queuedItems = shutdown.queuedItems
  trace : state.traceBits = traceBits
  refs : state.Refs config fun q => if q < k then (shutdown.queueBuf q).tcRef else 0
  holders : ∀ i q, state.topRated i = some q → q < k
  held : ∀ i, state.topRated i ≠ none ↔ 0 < k ∧ i < config.mapSize ∧ traceBits i ≠ 0
  loaded : ∀ q < k, (state.queueBuf q).unscored =
    ({ shutdown.queueBuf q with len := len q } : QueueEntry).unscored
  fresh : ∀ q, k ≤ q → q < shutdown.queuedItems → (state.queueBuf q).unscored = .fresh (len q)
  active : state.activeItems + Nat.count (fun q => (shutdown.queueBuf q).disabled = true) k =
    shutdown.queuedItems
  pendingNotFuzzed : state.pendingNotFuzzed + Nat.count (fun q =>
      (shutdown.queueBuf q).wasFuzzed = true ∨ (shutdown.queueBuf q).disabled = true) k =
    shutdown.queuedItems
  queuedFavored : state.queuedFavored =
    Nat.count (fun q => (shutdown.queueBuf q).favored = true) k
  pendingFavored : state.pendingFavored = Nat.count (fun q =>
    (shutdown.queueBuf q).favored = true ∧ (shutdown.queueBuf q).wasFuzzed = false) k
  smallest : state.smallestFavored = 0
  quiet : state.scoreChanged = false → ∀ i, state.topRated i = none

section

variable {config : Config} {len : Nat → UInt32} {traceBits : Nat → UInt8} {shutdown state : Afl}
  {k : Nat}

theorem LoadedUpTo.fresh_scores (loaded : LoadedUpTo config len traceBits shutdown k state)
    {q : Nat} (later : k ≤ q) :
    (state.queueBuf q).tcRef = 0 ∧ (state.queueBuf q).traceMini = none := by
  have counted := loaded.refs.counted q
  rw [if_neg (by omega), Nat.count_of_forall_not fun i _ holds =>
    absurd (loaded.holders i q holds) (by omega)] at counted
  refine ⟨counted, ?_⟩
  cases mini : (state.queueBuf q).traceMini with
  | none => rfl
  | some bits =>
      have positive := (loaded.refs.mini q).mp (by simp [mini])
      omega

theorem LoadedUpTo.disabled (loaded : LoadedUpTo config len traceBits shutdown k state) {q : Nat}
    (earlier : q < k) : (state.queueBuf q).disabled = (shutdown.queueBuf q).disabled :=
  (QueueEntry.disabled_of_unscored (loaded.loaded q earlier)).trans rfl

theorem LoadedUpTo.wasFuzzed (loaded : LoadedUpTo config len traceBits shutdown k state) {q : Nat}
    (earlier : q < k) : (state.queueBuf q).wasFuzzed = (shutdown.queueBuf q).wasFuzzed :=
  (QueueEntry.wasFuzzed_of_unscored (loaded.loaded q earlier)).trans rfl

theorem LoadedUpTo.favored (loaded : LoadedUpTo config len traceBits shutdown k state) {q : Nat}
    (earlier : q < k) : (state.queueBuf q).favored = (shutdown.queueBuf q).favored :=
  (QueueEntry.favored_of_unscored (loaded.loaded q earlier)).trans rfl

theorem LoadedUpTo.readEntry_self (loaded : LoadedUpTo config len traceBits shutdown k state)
    (inQueue : k < shutdown.queuedItems) :
    (state.readEntry k (shutdown.queueBuf k)).queueBuf k =
      { shutdown.queueBuf k with len := len k } := by
  have noMini := (loaded.fresh_scores (le_refl k)).2
  have length : (state.queueBuf k).len = len k :=
    congrArg QueueEntry.len (loaded.fresh k (le_refl k) inQueue)
  rw [Afl.readEntry, Afl.modify_queueBuf_self, noMini, length, Option.or_none]

/-- Before its record is read, an entry has no references. -/
theorem LoadedUpTo.read_refs (loaded : LoadedUpTo config len traceBits shutdown k state)
    (inQueue : k < shutdown.queuedItems) (kept : (shutdown.queueBuf k).MiniKept) :
    (state.readEntry k (shutdown.queueBuf k)).Refs config fun q =>
      if q < k + 1 then (shutdown.queueBuf q).tcRef else 0 := by
  have self := loaded.readEntry_self inQueue
  have others : ∀ q, q ≠ k →
      (state.readEntry k (shutdown.queueBuf k)).queueBuf q = state.queueBuf q :=
    fun q other => Afl.modify_queueBuf_of_ne _ _ _ other
  refine ⟨loaded.refs.inRange, fun q => ?_, fun q => ?_⟩
  · by_cases here : q = k
    · subst here
      have none : Nat.count (fun i => state.topRated i = some q) config.mapSize = 0 :=
        Nat.count_of_forall_not fun i _ holds =>
          absurd (loaded.holders i q holds) (Nat.lt_irrefl q)
      rw [self, if_pos (Nat.lt_succ_self q)]
      exact none.symm ▸ rfl
    · have counted := loaded.refs.counted q
      have same : q < k + 1 ↔ q < k := by omega
      rw [others q here, counted]
      simp only [same]
      rfl
  · by_cases here : q = k
    · subst here
      rw [self]
      exact kept
    · rw [others q here]
      exact loaded.refs.mini q

/-- The bytes that have a holder after entry `k` was scored. -/
theorem LoadedUpTo.held_round (loaded : LoadedUpTo config len traceBits shutdown k state)
    (i : Nat) :
    (updateBitmapScore config (state.readEntry k (shutdown.queueBuf k)) k).topRated i ≠ none ↔
      0 < k + 1 ∧ i < config.mapSize ∧ traceBits i ≠ 0 := by
  have tops := updateBitmapScore_topRated config (state.readEntry k (shutdown.queueBuf k)) k i
  have trace : (state.readEntry k (shutdown.queueBuf k)).traceBits = traceBits := loaded.trace
  have same : (state.readEntry k (shutdown.queueBuf k)).topRated = state.topRated := rfl
  have before := loaded.held i
  by_cases wins : i < config.mapSize ∧ (state.readEntry k (shutdown.queueBuf k)).Wins config k i
  · rw [tops.1 wins]
    have hit := wins.2.1
    rw [trace] at hit
    simp [wins.1, hit]
  · rw [tops.2 wins, same, before]
    constructor
    · exact fun held => ⟨Nat.succ_pos k, held.2⟩
    · intro touched
      by_contra free
      apply wins
      refine ⟨touched.2.1, by rw [trace]; exact touched.2.2, fun top holds => ?_⟩
      rw [same] at holds
      exact absurd (before.mp (by simp [holds])) free

theorem LoadedUpTo.round (loaded : LoadedUpTo config len traceBits shutdown k state)
    (inQueue : k < shutdown.queuedItems) (kept : (shutdown.queueBuf k).MiniKept) :
    LoadedUpTo config len traceBits shutdown (k + 1)
      (loadEntry config state k (shutdown.queueBuf k)) := by
  have self := loaded.readEntry_self inQueue
  have heldAfter := loaded.held_round
  have refs := loaded.read_refs inQueue kept
  generalize read_eq : state.readEntry k (shutdown.queueBuf k) = read at self heldAfter refs
  have others : ∀ q, q ≠ k → read.queueBuf q = state.queueBuf q := by
    intro q other
    rw [← read_eq]
    exact Afl.modify_queueBuf_of_ne _ _ _ other
  have readItems : read.queuedItems = shutdown.queuedItems := by
    rw [← read_eq]
    exact loaded.items
  have unscored := updateBitmapScore_unscored config read k
  generalize scored_eq : updateBitmapScore config read k = scored at heldAfter unscored
  have next : loadEntry config state k (shutdown.queueBuf k) = scored.countLoaded k := by
    rw [loadEntry, read_eq, scored_eq]
  have entries : ∀ q, (scored.queueBuf q).unscored = (read.queueBuf q).unscored :=
    Afl.entry_of_unscored unscored
  have entry : (scored.queueBuf k).unscored =
      ({ shutdown.queueBuf k with len := len k } : QueueEntry).unscored := by
    rw [entries, self]
  have fuzzed := QueueEntry.wasFuzzed_of_unscored entry
  have disabled := QueueEntry.disabled_of_unscored entry
  have favored := QueueEntry.favored_of_unscored entry
  simp only at fuzzed disabled favored
  have scoredRefs := refs.updateBitmapScore (q := k) (readItems ▸ inQueue)
  rw [scored_eq] at scoredRefs
  obtain ⟨active, pendingNotFuzzed, queuedFavored, pendingFavored, smallest⟩ :=
    Afl.counters_of_unscored unscored
  rw [next]
  constructor
  case items => rw [Afl.countLoaded_queuedItems, Afl.queuedItems_of_unscored unscored, readItems]
  case trace =>
    rw [Afl.countLoaded_traceBits, Afl.traceBits_of_unscored unscored, ← read_eq]
    exact loaded.trace
  case refs =>
    refine ⟨?_, ?_, ?_⟩
    · simpa using scoredRefs.inRange
    · simpa using scoredRefs.counted
    · simpa using scoredRefs.mini
  case holders =>
    intro i q holds
    rw [Afl.countLoaded_topRated, ← scored_eq] at holds
    by_cases wins : i < config.mapSize ∧ read.Wins config k i
    · rw [(updateBitmapScore_topRated config read k i).1 wins] at holds
      have here := Option.some.inj holds
      omega
    · rw [(updateBitmapScore_topRated config read k i).2 wins, ← read_eq] at holds
      have earlier := loaded.holders i q holds
      omega
  case held =>
    intro i
    rw [Afl.countLoaded_topRated]
    exact heldAfter i
  case loaded =>
    intro q below
    rw [Afl.countLoaded_queueBuf]
    by_cases here : q = k
    · rw [here, entry]
    · rw [entries, others q here]
      exact loaded.loaded q (by omega)
  case fresh =>
    intro q later inside
    rw [Afl.countLoaded_queueBuf, entries, others q (by omega)]
    exact loaded.fresh q (by omega) inside
  case active =>
    have before := loaded.active
    have bound : Nat.count (fun q => (shutdown.queueBuf q).disabled = true) k ≤ k := Nat.count_le _
    have same : read.activeItems = state.activeItems := read_eq ▸ rfl
    rw [Afl.countLoaded_activeItems, active, disabled, same, Nat.count_succ]
    split <;> omega
  case pendingNotFuzzed =>
    have before := loaded.pendingNotFuzzed
    have bound : Nat.count (fun q => (shutdown.queueBuf q).wasFuzzed = true ∨
      (shutdown.queueBuf q).disabled = true) k ≤ k := Nat.count_le _
    have same : read.pendingNotFuzzed = state.pendingNotFuzzed := read_eq ▸ rfl
    rw [Afl.countLoaded_pendingNotFuzzed, pendingNotFuzzed, disabled, fuzzed, same,
      Nat.count_succ]
    split <;> omega
  case queuedFavored =>
    have same : read.queuedFavored = state.queuedFavored := read_eq ▸ rfl
    rw [Afl.countLoaded_queuedFavored, queuedFavored, favored, same, loaded.queuedFavored,
      Nat.count_succ]
  case pendingFavored =>
    have same : read.pendingFavored = state.pendingFavored := read_eq ▸ rfl
    rw [Afl.countLoaded_pendingFavored, pendingFavored, favored, fuzzed, same,
      loaded.pendingFavored, Nat.count_succ]
  case smallest =>
    rw [Afl.countLoaded_smallestFavored, smallest, ← read_eq]
    exact loaded.smallest
  case quiet =>
    intro quiet i
    rw [Afl.countLoaded_scoreChanged, ← scored_eq] at quiet
    have unchanged := updateBitmapScore_scoreChanged quiet
    rw [unchanged, ← read_eq] at quiet
    rw [Afl.countLoaded_topRated, ← scored_eq, unchanged, ← read_eq]
    exact loaded.quiet quiet i

end

/-! ## The whole loader -/

theorem Afl.reopened_eq (schedule : Schedule) (len : Nat → UInt32) (n : Nat) :
    Afl.reopened schedule len n =
      { Afl.initial schedule with
        queueBuf := fun q => if q < n then .fresh (len q) else .fresh 0
        queuedItems := n
        activeItems := n
        pendingNotFuzzed := n } := by
  induction n with
  | zero => rfl
  | succ n ih =>
      have last : Afl.reopened schedule len (n + 1) =
          addToQueue (Afl.reopened schedule len n) (len n) := by
        rw [Afl.reopened, List.range_succ, List.foldl_append]
        rfl
      rw [last, ih]
      simp only [addToQueue, Afl.initial]
      congr 1
      funext q
      rw [Function.update_apply]
      by_cases here : q = n
      · simp [here]
      · have same : q < n + 1 ↔ q < n := by omega
        simp [here, same]

section

variable (config : Config) (schedule : Schedule) (len : Nat → UInt32) (traceBits : Nat → UInt8)
  {shutdown : Afl}

theorem LoadedUpTo.start :
    LoadedUpTo config len traceBits shutdown 0
      { Afl.reopened schedule len shutdown.queuedItems with traceBits } := by
  rw [Afl.reopened_eq]
  constructor <;> simp [Afl.initial]
  · refine ⟨by simp, fun q => ?_, fun q => ?_⟩
    · simp [QueueEntry.fresh]
      split <;> rfl
    · simp [QueueEntry.MiniKept]
      split <;> simp [QueueEntry.fresh]
  · intro q inside
    simp [inside, QueueEntry.unscored, QueueEntry.fresh]

/-- What the loader makes of the records of a state whose minimised traces and
references agree. -/
theorem fastResume_loaded
    (kept : ∀ q < shutdown.queuedItems, (shutdown.queueBuf q).MiniKept) :
    LoadedUpTo config len traceBits shutdown shutdown.queuedItems
      (fastResume config schedule len traceBits shutdown) := by
  have loop : LoadedUpTo config len traceBits shutdown shutdown.queuedItems
      ((List.range shutdown.queuedItems).foldl
        (fun afl i => loadEntry config afl i (shutdown.queueBuf i))
        { Afl.reopened schedule len shutdown.queuedItems with traceBits }) := by
    apply foldl_range_induction (LoadedUpTo config len traceBits shutdown) (.start ..)
    intro k inQueue state loaded
    exact loaded.round inQueue (kept k inQueue)
  obtain ⟨items, trace, refs, holders, held, loaded, fresh, active, unfuzzed, favored, pending,
    smallest, quiet⟩ := loop
  exact ⟨items, trace, ⟨refs.inRange, refs.counted, refs.mini⟩, holders, held, loaded, fresh,
    active, unfuzzed, favored, pending, smallest, quiet⟩

end

end SbFuzz.Fuzzer
