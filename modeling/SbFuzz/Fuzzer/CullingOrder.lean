import Mathlib.Order.Bounds.Basic
import SbFuzz.Fuzzer.Culling

/-! Which favored entry `cull_queue` takes for the one with the smallest number: the
first one in the order of the map. -/

set_option autoImplicit false

namespace SbFuzz.Fuzzer

open Systems

/-- The holder of a byte is picked for it: it is in the trace of no entry that is picked for an
earlier byte. -/
def Afl.Picked (afl : Afl) (i : Nat) : Prop :=
  afl.topRated i ≠ none ∧ ∀ j, (below : j < i) → afl.Picked j → ∀ earlier,
    afl.topRated j = some earlier → ¬ (afl.queueBuf earlier).Traces i
termination_by i

/-- The entry is picked for the byte and was not fuzzed. -/
structure Afl.PicksUnfuzzed (afl : Afl) (i q : Nat) : Prop where
  picked : afl.Picked i
  holder : afl.topRated i = some q
  unfuzzed : (afl.queueBuf q).wasFuzzed = false

/-- Of the entries that are picked and were not fuzzed the first in the map has the smallest
number. -/
def Afl.FirstLeast (config : Config) (afl : Afl) : Prop :=
  ∀ i < config.mapSize, ∀ q, afl.PicksUnfuzzed i q →
    (∀ j < i, ∀ earlier, ¬ afl.PicksUnfuzzed j earlier) →
    ∀ j < config.mapSize, ∀ later, afl.PicksUnfuzzed j later → q ≤ later

/-- The numbers of the favored entries that were not fuzzed. -/
def Afl.favoredUnfuzzed (afl : Afl) : Set Int :=
  { id | ∃ q < afl.queuedItems, id = q ∧ (afl.queueBuf q).favored = true ∧
    (afl.queueBuf q).wasFuzzed = false }

/-- `smallest_favored` is what its name says. -/
structure Afl.SmallestFavored (afl : Afl) : Prop where
  none : afl.smallestFavored = -1 ↔ afl.favoredUnfuzzed = ∅
  least : afl.favoredUnfuzzed.Nonempty → IsLeast afl.favoredUnfuzzed afl.smallestFavored

/-! ## The order of the picks -/

theorem Afl.favor_smallestFavored (afl : Afl) (top : Nat) : (afl.favor top).smallestFavored =
    if (afl.queueBuf top).favored = false ∧ (afl.queueBuf top).wasFuzzed = false ∧
      afl.smallestFavored < 0 then (top : Int) else afl.smallestFavored := by
  unfold Afl.favor
  cases (afl.queueBuf top).favored <;> cases (afl.queueBuf top).wasFuzzed <;> simp [Afl.modify]

/-- The state after `n` rounds of the loop over the map. -/
structure Culling.Ordered (config : Config) (before : Afl) (n : Nat) (culling : Culling) : Prop where
  covers : culling.Covers config before n
  bits : ∀ i < config.mapSize, culling.tempV.has i = true ↔
    ∀ j < n, before.Picked j → ∀ earlier, before.topRated j = some earlier →
      ¬ (before.queueBuf earlier).Traces i
  favored : ∀ q < before.queuedItems, (culling.afl.queueBuf q).favored = true ↔
    ∃ j < n, before.Picked j ∧ before.topRated j = some q
  first : (culling.afl.smallestFavored = -1 ∧ ∀ j < n, ∀ q, ¬ before.PicksUnfuzzed j q) ∨
    ∃ i < n, ∃ q : Nat, before.PicksUnfuzzed i q ∧ culling.afl.smallestFavored = q ∧
      ∀ j < i, ∀ earlier, ¬ before.PicksUnfuzzed j earlier

section

variable {config : Config} {before : Afl} {n : Nat} {culling : Culling}

/-- The bit of a byte is still set in `temp_v` if the holder of the byte is picked. -/
theorem Culling.Ordered.picked_iff (ordered : culling.Ordered config before n)
    (inMap : n < config.mapSize) {top : Nat} (holder : before.topRated n = some top) :
    before.Picked n ↔ culling.tempV.has n = true := by
  have some : before.topRated n ≠ none := by simp [holder]
  rw [ordered.bits n inMap, Afl.Picked, and_iff_right some]

theorem Culling.Ordered.skip (ordered : culling.Ordered config before n)
    (covers : culling.Covers config before (n + 1)) (passed : ¬ before.Picked n) :
    culling.Ordered config before (n + 1) := by
  have earlier : ∀ j < n + 1, before.Picked j → j < n := by
    intro j below picked
    have other : j ≠ n := fun same => passed (same ▸ picked)
    omega
  refine ⟨covers, fun i inMap => ?_, fun q inQueue => ?_, ?_⟩
  · rw [ordered.bits i inMap]
    constructor
    · intro apart j below picked
      exact apart j (earlier j below picked) picked
    · intro apart j below picked
      exact apart j (Nat.lt_succ_of_lt below) picked
  · rw [ordered.favored q inQueue]
    constructor
    · rintro ⟨j, below, picked, holder⟩
      exact ⟨j, Nat.lt_succ_of_lt below, picked, holder⟩
    · rintro ⟨j, below, picked, holder⟩
      exact ⟨j, earlier j below picked, picked, holder⟩
  · rcases ordered.first with ⟨negative, none⟩ | ⟨i, below, q, picks, same, first⟩
    · exact .inl ⟨negative, fun j below q picks => none j (earlier j below picks.picked) q picks⟩
    · exact .inr ⟨i, Nat.lt_succ_of_lt below, q, picks, same, first⟩

theorem QueueEntry.has_traceMini_iff (entry : QueueEntry) (i : Nat) :
    (entry.traceMini.getD fun _ => 0).has i = true ↔ entry.Traces i := by
  unfold QueueEntry.Traces
  cases made : entry.traceMini with
  | none => simp [Memory.BitSet.has_empty]
  | some mini => simp

theorem Culling.Ordered.pick (ordered : culling.Ordered config before n)
    (inMap : n < config.mapSize) {top : Nat} (holder : before.topRated n = some top)
    (inQueue : top < before.queuedItems) (picked : before.Picked n) :
    Culling.Ordered config before (n + 1)
      { afl := culling.afl.favor top
        tempV := culling.tempV.without
          ((culling.afl.queueBuf top).traceMini.getD fun _ => 0) (config.mapSize / 8) } := by
  have covers := ordered.covers
  have fuzzed := Afl.wasFuzzed_of_unfavored covers.same top
  have mini := Afl.traceMini_of_unfavored covers.same top
  have whole := config.wholeBytes
  refine ⟨covers.pick holder inQueue, fun i inRange => ?_, fun q inside => ?_, ?_⟩
  · have untraced : ((culling.afl.queueBuf top).traceMini.getD fun _ => 0).has i = false ↔
        ¬ (before.queueBuf top).Traces i := by
      rw [mini, ← QueueEntry.has_traceMini_iff, Bool.not_eq_true]
    rw [Memory.BitSet.has_without _ _ (by omega), ordered.bits i inRange, untraced]
    constructor
    · rintro ⟨apart, now⟩ j below
      rcases Nat.lt_succ_iff_lt_or_eq.mp below with earlier | rfl
      · exact apart j earlier
      · intro _ owner same
        rw [holder] at same
        exact Option.some.inj same ▸ now
    · intro apart
      exact ⟨fun j below => apart j (Nat.lt_succ_of_lt below),
        apart n (Nat.lt_succ_self n) picked top holder⟩
  · rw [Afl.favor_favored, ordered.favored q inside]
    constructor
    · rintro (⟨j, below, earlier, owner⟩ | rfl)
      · exact ⟨j, Nat.lt_succ_of_lt below, earlier, owner⟩
      · exact ⟨n, Nat.lt_succ_self n, picked, holder⟩
    · rintro ⟨j, below, earlier, owner⟩
      rcases Nat.lt_succ_iff_lt_or_eq.mp below with before | rfl
      · exact .inl ⟨j, before, earlier, owner⟩
      · rw [holder] at owner
        exact .inr (Option.some.inj owner).symm
  · have holders : ∀ q, before.PicksUnfuzzed n q → q = top := by
      intro q picks
      exact Option.some.inj (picks.holder.symm.trans holder)
    rw [Afl.favor_smallestFavored, fuzzed]
    rcases ordered.first with ⟨negative, none⟩ | ⟨i, below, q, picks, same, first⟩
    · cases unfuzzed : (before.queueBuf top).wasFuzzed with
      | true =>
        refine .inl ⟨by simpa using negative, fun j below q picks => ?_⟩
        rcases Nat.lt_succ_iff_lt_or_eq.mp below with earlier | rfl
        · exact none j earlier q picks
        · have pending := picks.unfuzzed
          rw [holders q picks, unfuzzed] at pending
          cases pending
      | false =>
        have fresh : (culling.afl.queueBuf top).favored = false := by
          refine Bool.eq_false_of_not_eq_true fun already => ?_
          obtain ⟨j, below, earlier, owner⟩ := (ordered.favored top inQueue).mp already
          exact none j below top ⟨earlier, owner, unfuzzed⟩
        refine .inr ⟨n, Nat.lt_succ_self n, top, ⟨picked, holder, unfuzzed⟩, ?_, none⟩
        rw [negative]
        exact if_pos ⟨fresh, rfl, by decide⟩
    · refine .inr ⟨i, Nat.lt_succ_of_lt below, q, picks, ?_, first⟩
      rw [if_neg fun taken => by omega, same]

theorem Culling.Ordered.round (inMap : n < config.mapSize)
    (owners : ∀ i < config.mapSize, ∀ q, before.topRated i = some q → q < before.queuedItems)
    (ordered : culling.Ordered config before n) :
    (cullByte config culling n).Ordered config before (n + 1) := by
  have covers := ordered.covers.round inMap owners
  have tops := Afl.topRated_of_unfavored ordered.covers.same
  cases holder : before.topRated n with
  | none =>
    have unchanged : cullByte config culling n = culling := by
      rw [cullByte, tops, holder]
    rw [unchanged] at covers ⊢
    refine ordered.skip covers fun picked => ?_
    rw [Afl.Picked] at picked
    exact picked.1 holder
  | some top =>
    have picked := ordered.picked_iff inMap holder
    cases there : culling.tempV.has n with
    | true =>
      have next := ordered.pick inMap holder (owners n inMap top holder) (picked.mpr there)
      simpa only [cullByte, tops, holder, there, if_true] using next
    | false =>
      have unchanged : cullByte config culling n = culling := by
        simp only [cullByte, tops, holder, there, if_false, Bool.false_eq_true]
      rw [unchanged] at covers ⊢
      refine ordered.skip covers fun now => ?_
      rw [picked.mp now] at there
      cases there

end

theorem Afl.coverBytes_ordered (config : Config) (afl : Afl)
    (owners : ∀ i < config.mapSize, ∀ q, afl.topRated i = some q → q < afl.queuedItems) :
    (afl.coverBytes config).Ordered config afl config.mapSize := by
  unfold Afl.coverBytes
  apply foldl_range_induction (fun n (culling : Culling) => culling.Ordered config afl n)
  · refine ⟨?_, fun i inMap => ?_, fun q inQueue => ?_, ?_⟩
    · refine ⟨afl.forgetFavored_unfavored, afl.forgetFavored_tallied, afl.forgetFavored_smallest,
        fun q inQueue favored => ?_, fun i _ cleared => ?_, fun i below => ?_⟩
      · rw [afl.forgetFavored_favored inQueue] at favored
        cases favored
      · rw [Memory.BitSet.has_full] at cleared
        cases cleared
      · exact (Nat.not_lt_zero i below).elim
    · refine iff_of_true (Memory.BitSet.has_full i) fun j below => ?_
      exact (Nat.not_lt_zero j below).elim
    · refine iff_of_false ?_ fun ⟨j, below, _⟩ => Nat.not_lt_zero j below
      rw [afl.forgetFavored_favored inQueue]
      exact Bool.false_ne_true
    · exact .inl ⟨rfl, fun j below => (Nat.not_lt_zero j below).elim⟩
  · exact fun n inMap _ ordered => ordered.round inMap owners

/-! ## The whole function -/

section

variable {config : Config} {afl : Afl}

theorem cullQueue_favoredUnfuzzed (changed : afl.scoreChanged = true)
    (instrumented : config.nonInstrumentedMode = false)
    (owners : ∀ i < config.mapSize, ∀ q, afl.topRated i = some q → q < afl.queuedItems) :
    (cullQueue config afl).favoredUnfuzzed =
      { id : Int | ∃ q : Nat, id = q ∧ ∃ i < config.mapSize, afl.PicksUnfuzzed i q } := by
  have ordered := afl.coverBytes_ordered config owners
  ext id
  unfold Afl.favoredUnfuzzed
  rw [cullQueue_queuedItems config afl owners]
  constructor
  · rintro ⟨q, inQueue, same, favored, unfuzzed⟩
    rw [cullQueue_entry changed instrumented owners inQueue] at favored unfuzzed
    rw [QueueEntry.culled_favored] at favored
    rw [QueueEntry.culled_wasFuzzed] at unfuzzed
    obtain ⟨i, inMap, picked, holder⟩ := (ordered.favored q inQueue).mp favored
    exact ⟨q, same, i, inMap, picked, holder, unfuzzed⟩
  · rintro ⟨q, same, i, inMap, picks⟩
    have inQueue := owners i inMap q picks.holder
    have favored := (ordered.favored q inQueue).mpr ⟨i, inMap, picks.picked, picks.holder⟩
    refine ⟨q, inQueue, same, ?_, ?_⟩
    · rw [cullQueue_entry changed instrumented owners inQueue, QueueEntry.culled_favored]
      exact favored
    · rw [cullQueue_entry changed instrumented owners inQueue, QueueEntry.culled_wasFuzzed]
      exact picks.unfuzzed

/-- `cull_queue` leaves the smallest number in `smallest_favored` if and only if the first favored
entry in the map that was not fuzzed has it. -/
theorem cullQueue_smallestFavored_iff (changed : afl.scoreChanged = true)
    (instrumented : config.nonInstrumentedMode = false)
    (owners : ∀ i < config.mapSize, ∀ q, afl.topRated i = some q → q < afl.queuedItems) :
    (cullQueue config afl).SmallestFavored ↔ afl.FirstLeast config := by
  have ordered := afl.coverBytes_ordered config owners
  have members := cullQueue_favoredUnfuzzed changed instrumented owners
  have value : (cullQueue config afl).smallestFavored =
      (afl.coverBytes config).afl.smallestFavored := by
    rw [cullQueue_of_changed config afl changed instrumented]
  rcases ordered.first with ⟨negative, none⟩ | ⟨i, inMap, q, picks, same, first⟩
  · have empty : (cullQueue config afl).favoredUnfuzzed = ∅ := by
      rw [members]
      refine Set.eq_empty_of_forall_notMem fun id => ?_
      rintro ⟨q, -, i, inMap, picks⟩
      exact none i inMap q picks
    refine iff_of_true ⟨iff_of_true (value.trans negative) empty, fun some => ?_⟩ ?_
    · exact (some.ne_empty empty).elim
    · exact fun i inMap q picks => (none i inMap q picks).elim
  · have member : (q : Int) ∈ (cullQueue config afl).favoredUnfuzzed := by
      rw [members]
      exact ⟨q, rfl, i, inMap, picks⟩
    constructor
    · intro smallest j inside q' picks' first' k below later pickedLater
      have least := (smallest.least ⟨q, member⟩).2
      rw [value, same, members] at least
      -- Only one byte is the first with such a pick.
      have here : j = i := by
        rcases Nat.lt_trichotomy j i with less | equal | more
        · exact (first j less q' picks').elim
        · exact equal
        · exact (first' i more q picks).elim
      subst here
      have entry : q' = q := Option.some.inj (picks'.holder.symm.trans picks.holder)
      rw [entry]
      exact Int.ofNat_le.mp (least ⟨later, rfl, k, below, pickedLater⟩)
    · intro firstLeast
      refine ⟨iff_of_false ?_ (Set.Nonempty.ne_empty ⟨q, member⟩), fun _ => ?_⟩
      · rw [value, same]
        omega
      · rw [value, same]
        refine ⟨member, fun id present => ?_⟩
        rw [members] at present
        obtain ⟨later, rfl, j, inside, picksLater⟩ := present
        exact Int.ofNat_le.mpr (firstLeast i inMap q picks first j inside later picksLater)

end

/-- The second entry holds the first byte. -/
theorem cullQueue_smallestFavored_descending :
    let config : Config :=
      { mapSize := 8
        wholeBytes := rfl
        fixedSeed := false
        nonInstrumentedMode := false
        disableRedundant := false }
    let added := addToQueue (addToQueue (.initial .explore) 4) 4
    let traced := (added.modify 0 fun entry => { entry with traceMini := some fun _ => 2 }).modify 1
      fun entry => { entry with traceMini := some fun _ => 1 }
    let afl : Afl :=
      { traced with
        topRated := fun i => if i = 0 then some 1 else if i = 1 then some 0 else none
        scoreChanged := true }
    (cullQueue config afl).smallestFavored = 1 ∧ ¬ (cullQueue config afl).SmallestFavored := by
  intro config added traced afl
  have value : (cullQueue config afl).smallestFavored = 1 := by decide
  refine ⟨value, fun smallest => ?_⟩
  have member : (0 : Int) ∈ (cullQueue config afl).favoredUnfuzzed :=
    ⟨0, by decide, rfl, by decide, by decide⟩
  have least := (smallest.least ⟨0, member⟩).2 member
  rw [value] at least
  exact absurd least (by decide)

theorem cullQueue_smallestFavored_oneEntry :
    let config : Config :=
      { mapSize := 8
        wholeBytes := rfl
        fixedSeed := false
        nonInstrumentedMode := false
        disableRedundant := false }
    let added := addToQueue (.initial .explore) 4
    let afl : Afl :=
      { added.modify 0 fun entry => { entry with traceMini := some fun _ => 1 } with
        topRated := fun i => if i = 0 then some 0 else none
        scoreChanged := true }
    (cullQueue config afl).SmallestFavored := by
  intro config added afl
  have only : ∀ i q, afl.topRated i = some q → i = 0 ∧ 0 = q := by
    intro i q holds
    simpa [afl] using holds
  have owners : ∀ i < config.mapSize, ∀ q, afl.topRated i = some q → q < afl.queuedItems := by
    intro i _ q holds
    exact (only i q holds).2 ▸ by decide
  refine (cullQueue_smallestFavored_iff rfl rfl owners).mpr ?_
  intro i _ q picks _ j _ later pickedLater
  rw [← (only i q picks.holder).2, ← (only j later pickedLater.holder).2]

end SbFuzz.Fuzzer
