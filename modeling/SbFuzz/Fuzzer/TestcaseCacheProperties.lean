import SbFuzz.Fuzzer.TestcaseCache
import SbFuzz.Systems.Loops

/-! The slots of the testcase cache agree with the buffers of the entries and with the
counters, after any operations. -/

set_option autoImplicit false

namespace SbFuzz.Fuzzer.TestcaseCache

open Systems

def Afl.Occupied (afl : Afl) (tid : Nat) : Prop := (afl.cache tid).isSome = true

instance (afl : Afl) : DecidablePred afl.Occupied := fun tid =>
  inferInstanceAs (Decidable ((afl.cache tid).isSome = true))

/-- The slots, the buffers and the counters agree. -/
structure Afl.Consistent (afl : Afl) : Prop where
  buffers : ∀ q < afl.queuedItems,
    (afl.queueBuf q).testcaseBuf.isSome = true ↔ ∃! tid, afl.cache tid = some q
  count : afl.cacheCount = Nat.count afl.Occupied afl.maxCacheCount
  below : ∀ tid, afl.Occupied tid → tid < afl.maxCacheCount ∧ tid < afl.maxCacheEntries
  filled : ∀ tid < afl.smallestFree, afl.Occupied tid

/-- Before an operation. -/
structure Afl.Valid (afl : Afl) : Prop where
  owner : ∀ tid q, afl.cache tid = some q → q < afl.queuedItems
  unique : ∀ s t q, afl.cache s = some q → afl.cache t = some q → s = t
  cached : ∀ q < afl.queuedItems,
    (afl.queueBuf q).testcaseBuf.isSome = true ↔ ∃ tid, afl.cache tid = some q
  count : afl.cacheCount = Nat.count afl.Occupied afl.maxCacheCount
  below : ∀ tid, afl.Occupied tid → tid < afl.maxCacheCount
  filled : ∀ tid < afl.smallestFree, afl.Occupied tid
  most : afl.maxCacheCount ≤ afl.maxCacheEntries
  wide : afl.maxCacheEntries < 2 ^ 32
  room : afl.maxCacheEntries ≤ afl.slots
  slotless : afl.maxCacheEntries = 0 → afl.slots = 0

namespace Afl.Valid

variable {afl : Afl}

theorem consistent (valid : afl.Valid) : afl.Consistent where
  buffers q inQueue := by
    rw [valid.cached q inQueue]
    constructor
    · intro some
      obtain ⟨tid, holds⟩ := some
      exact ⟨tid, holds, fun other same => valid.unique other tid q same holds⟩
    · intro some
      obtain ⟨tid, holds, -⟩ := some
      exact ⟨tid, holds⟩
  count := valid.count
  below tid occupied :=
    ⟨valid.below tid occupied, (valid.below tid occupied).trans_le valid.most⟩
  filled := valid.filled

theorem occupied_of_cache {tid q : Nat} (holds : afl.cache tid = some q) : afl.Occupied tid := by
  rw [Afl.Occupied, holds]
  rfl

theorem cacheCount_le (valid : afl.Valid) : afl.cacheCount ≤ afl.maxCacheCount := by
  rw [valid.count]
  exact Nat.count_le _

theorem le_cacheCount (valid : afl.Valid) {tid : Nat} (full : ∀ s < tid, afl.Occupied s) :
    tid ≤ afl.cacheCount := by
  have inside : tid ≤ afl.maxCacheCount := by
    refine Nat.le_of_not_lt fun more => ?_
    exact Nat.lt_irrefl _ (valid.below _ (full _ more))
  have all : Nat.count afl.Occupied tid = tid :=
    Nat.count_of_forall fun {s} below => full s below
  rw [valid.count, ← all]
  exact Nat.count_monotone _ (all.symm ▸ inside)

theorem learn (valid : afl.Valid) (len : UInt32) : (afl.learn len).Valid := by
  unfold Afl.learn
  split
  · next learns =>
    have less : afl.maxCacheCount < afl.maxCacheEntries := by
      simp only [Bool.and_eq_true, decide_eq_true_iff] at learns
      exact learns.1.2
    have few := valid.cacheCount_le
    have entries : (if afl.cacheCount < afl.maxCacheCount then afl.maxCacheCount + 1
        else afl.cacheCount + 1) = afl.maxCacheCount + 1 := by
      split
      · rfl
      · omega
    have wide := valid.wide
    dsimp only
    rw [entries]
    exact ⟨valid.owner, valid.unique, valid.cached, valid.count, valid.below, valid.filled,
      Nat.le_succ _, Nat.lt_of_le_of_lt less wide, Nat.le_succ _, fun zero => by cases zero⟩
  · exact valid

theorem evict_cases {after : Afl} {tid : Nat} (evicts : afl.evict tid = some after) :
    ∃ q, afl.cache tid = some q ∧
      after = { afl.modify q fun entry => { entry with testcaseBuf := none } with
        cacheSize := afl.cacheSize - (afl.queueBuf q).len.toUInt64
        cache := Function.update afl.cache tid none
        cacheCount := afl.cacheCount - 1
        evictions := afl.evictions + 1
        smallestFree := if tid < afl.smallestFree then tid else afl.smallestFree } := by
  unfold Afl.evict at evicts
  split at evicts
  · split at evicts
    · cases evicts
    · next q holds =>
      split at evicts
      · cases evicts
      · exact ⟨q, holds, (Option.some.inj evicts).symm⟩
  · cases evicts

theorem evict (valid : afl.Valid) {after : Afl} {tid : Nat} (evicts : afl.evict tid = some after) :
    after.Valid ∧ after.cache tid = none ∧ tid < after.maxCacheCount := by
  obtain ⟨old, holds, rfl⟩ := evict_cases evicts
  have occupied := occupied_of_cache holds
  have inside := valid.below tid occupied
  have slot : ∀ s q, Function.update afl.cache tid none s = some q ↔
      s ≠ tid ∧ afl.cache s = some q := by
    intro s q
    rw [Function.update_apply]
    split
    · next same => exact iff_of_false (by simp) fun other => other.1 same
    · next other => exact (and_iff_right other).symm
  have occupies : ∀ s, (Function.update afl.cache tid none s).isSome = true ↔
      s ≠ tid ∧ afl.Occupied s := by
    intro s
    rw [Function.update_apply]
    split
    · next same => exact iff_of_false (by simp) fun other => other.1 same
    · next other => exact (and_iff_right other).symm
  refine ⟨⟨?owner, ?unique, ?cached, ?count, ?below, ?filled, valid.most, valid.wide, valid.room,
    valid.slotless⟩, Function.update_self .., inside⟩
  case owner =>
    intro s q found
    exact valid.owner s q ((slot s q).mp found).2
  case unique =>
    intro s t q first second
    exact valid.unique s t q ((slot s q).mp first).2 ((slot t q).mp second).2
  case cached =>
    intro q inQueue
    dsimp only [Afl.modify]
    rw [Function.update_apply]
    split
    · next same =>
      refine iff_of_false (by simp) fun some => ?_
      obtain ⟨s, found⟩ := some
      obtain ⟨other, found⟩ := (slot s q).mp found
      exact other (valid.unique s tid q found (same ▸ holds))
    · next other =>
      rw [valid.cached q inQueue]
      constructor
      · intro some
        obtain ⟨s, found⟩ := some
        refine ⟨s, (slot s q).mpr ⟨fun same => other ?_, found⟩⟩
        exact Option.some.inj ((same ▸ found).symm.trans holds)
      · intro some
        obtain ⟨s, found⟩ := some
        exact ⟨s, ((slot s q).mp found).2⟩
  case count =>
    have one : Nat.count afl.Occupied afl.maxCacheCount =
        Nat.count (fun s => (Function.update afl.cache tid none s).isSome = true)
          afl.maxCacheCount + 1 :=
      count_eq_add_one inside (fun s other => by rw [occupies, and_iff_right other]) occupied
        (by simp)
    dsimp only [Afl.Occupied]
    rw [valid.count, one, Nat.add_sub_cancel]
    rfl
  case below =>
    intro s found
    exact valid.below s ((occupies s).mp found).2
  case filled =>
    intro s before
    dsimp only at before
    have earlier : s < tid ∧ s < afl.smallestFree ∨ s < afl.smallestFree ∧ s ≠ tid := by
      split at before
      · omega
      · omega
    refine (occupies s).mpr ?_
    rcases earlier with ⟨left, right⟩ | ⟨right, left⟩
    · exact ⟨Nat.ne_of_lt left, valid.filled s right⟩
    · exact ⟨left, valid.filled s right⟩

/-- What the loop that evicts leaves for an entry without a buffer. -/
structure Roomy (len : UInt32) (q : Nat) (before after : Afl) (tid : Nat) : Prop where
  valid : after.Valid
  items : after.queuedItems = before.queuedItems
  entry : (before.queueBuf q).testcaseBuf = none → after.queueBuf q = before.queueBuf q
  room : after.full len = false
  slot : tid = after.maxCacheCount ∨ (tid < after.maxCacheCount ∧ after.cache tid = none)

theorem Roomy.few {len : UInt32} {q : Nat} {before after : Afl} {tid : Nat}
    (room : Roomy len q before after tid) : after.cacheCount < after.mostEntries := by
  have full := room.room
  unfold Afl.full at full
  rw [Bool.or_eq_false_iff, decide_eq_false_iff_not] at full
  exact Nat.lt_of_not_le full.2

theorem learn_queueBuf (afl : Afl) (len : UInt32) : (afl.learn len).queueBuf = afl.queueBuf ∧
    (afl.learn len).queuedItems = afl.queuedItems := by
  unfold Afl.learn
  split <;> exact ⟨rfl, rfl⟩

theorem makeRoom (len : UInt32) (q : Nat) (draws : List Nat) (valid : afl.Valid) {after : Afl}
    {tid found : Nat}
    (slot : tid = afl.maxCacheCount ∨ (tid < afl.maxCacheCount ∧ afl.cache tid = none))
    (makes : Afl.makeRoom len draws afl tid = some (after, found)) :
    Roomy len q afl after found := by
  induction draws generalizing afl tid with
  | nil =>
    unfold Afl.makeRoom at makes
    split at makes
    · cases makes
    · next room =>
      cases makes
      exact ⟨valid, rfl, fun _ => rfl, Bool.eq_false_of_not_eq_true room, slot⟩
  | cons draw draws ih =>
    unfold Afl.makeRoom at makes
    split at makes
    · obtain ⟨next, evicts, loops⟩ := Option.bind_eq_some_iff.mp makes
      obtain ⟨nextValid, freed, inside⟩ := (valid.learn len).evict evicts
      obtain ⟨afterValid, items, entry, room, place⟩ := ih nextValid (.inr ⟨inside, freed⟩) loops
      obtain ⟨old, -, same⟩ := evict_cases evicts
      obtain ⟨learned, count⟩ := learn_queueBuf afl len
      have nextItems : next.queuedItems = afl.queuedItems := by
        rw [same]
        exact count
      have nextEntry : (afl.queueBuf q).testcaseBuf = none → next.queueBuf q = afl.queueBuf q := by
        intro bare
        rw [same]
        dsimp only [Afl.modify]
        rw [learned, Function.update_apply]
        split
        · next here =>
          subst here
          cases entry : afl.queueBuf q
          rw [entry] at bare
          dsimp only at bare
          rw [bare]
        · rfl
      refine ⟨afterValid, items.trans nextItems, fun bare => ?_, room, place⟩
      rw [entry ((nextEntry bare).symm ▸ bare), nextEntry bare]
    · next room =>
      cases makes
      exact ⟨valid, rfl, fun _ => rfl, Bool.eq_false_of_not_eq_true room, slot⟩

theorem nextFree_spec {tid found : Nat} (next : afl.nextFree tid = some found) :
    afl.cache found = none ∧ found < afl.slots ∧ tid ≤ found ∧
      ∀ s, tid ≤ s → s < found → afl.Occupied s := by
  unfold Afl.nextFree at next
  obtain ⟨free, member, before⟩ := List.find?_range'_eq_some.mp next
  obtain ⟨low, high⟩ := List.mem_range'_1.mp member
  refine ⟨eq_of_beq free, by omega, low, fun s first last => ?_⟩
  have taken := before s first last
  rw [Bool.not_eq_true', beq_eq_false_iff_ne] at taken
  exact Option.isSome_iff_ne_none.mpr taken

/-- The slot that is found is one below all limits, at the end of the used ones or among them. -/
theorem nextFree_bound (valid : afl.Valid) {tid found : Nat}
    (few : afl.cacheCount < afl.mostEntries)
    (slot : tid = afl.maxCacheCount ∨ (tid < afl.maxCacheCount ∧ afl.cache tid = none))
    (next : afl.nextFree (if afl.maxCacheEntries ≤ tid then afl.smallestFree else tid) =
      some found) :
    afl.cache found = none ∧ found ≤ afl.maxCacheCount ∧ found < afl.maxCacheEntries := by
  obtain ⟨free, inside, first, taken⟩ := nextFree_spec next
  have most := valid.most
  split at first
  · next full =>
    -- All slots are used up to the one that is found, and those are fewer than the entries.
    have all : ∀ s < found, afl.Occupied s := by
      intro s before
      rcases Nat.lt_or_ge s afl.smallestFree with low | high
      · exact valid.filled s low
      · exact taken s (by rw [if_pos full]; exact high) before
    have count := valid.le_cacheCount all
    have counted := valid.cacheCount_le
    have wide := valid.wide
    have slotless := valid.slotless
    unfold Afl.mostEntries at few
    refine ⟨free, by omega, ?_⟩
    by_contra more
    omega
  · next fits =>
    have start : afl.cache tid = none := by
      rcases slot with rfl | ⟨-, empty⟩
      · refine Option.eq_none_iff_forall_ne_some.mpr fun q holds => ?_
        exact Nat.lt_irrefl _ (valid.below _ (occupied_of_cache holds))
      · exact empty
    have same : found = tid := by
      by_contra different
      have used := taken tid (by rw [if_neg fits]) (by omega)
      rw [Afl.Occupied, start] at used
      cases used
    rw [same]
    exact ⟨start, by omega, Nat.lt_of_not_le fits⟩

theorem register (valid : afl.Valid) {q tid : Nat} (inQueue : q < afl.queuedItems)
    (bare : (afl.queueBuf q).testcaseBuf = none) (free : afl.cache tid = none)
    (inside : tid ≤ afl.maxCacheCount) (bound : tid < afl.maxCacheEntries) :
    (afl.register q tid).Valid := by
  have uncached : ∀ s, afl.cache s ≠ some q := by
    intro s holds
    have cached := (valid.cached q inQueue).mpr ⟨s, holds⟩
    rw [bare] at cached
    cases cached
  have slot : ∀ s r, Function.update afl.cache tid (some q) s = some r ↔
      s = tid ∧ r = q ∨ s ≠ tid ∧ afl.cache s = some r := by
    intro s r
    rw [Function.update_apply]
    split
    · next same => simp [same, eq_comm]
    · next other => simp [other]
  have occupies : ∀ s, (Function.update afl.cache tid (some q) s).isSome = true ↔
      s = tid ∨ afl.Occupied s := by
    intro s
    rw [Function.update_apply]
    split
    · next same => simp [same]
    · next other => exact (or_iff_right other).symm
  have unoccupied : ¬ afl.Occupied tid := by
    rw [Afl.Occupied, free]
    exact Bool.false_ne_true
  have least := valid.most
  refine ⟨?owner, ?unique, ?cached, ?count, ?below, ?filled, ?most, valid.wide, valid.room,
    valid.slotless⟩
  case owner =>
    intro s r found
    rcases (slot s r).mp found with ⟨-, rfl⟩ | ⟨-, old⟩
    · exact inQueue
    · exact valid.owner s r old
  case unique =>
    intro s t r first second
    rcases (slot s r).mp first with ⟨left, rfl⟩ | ⟨-, old⟩
    · rcases (slot t r).mp second with ⟨right, -⟩ | ⟨-, other⟩
      · exact left.trans right.symm
      · exact (uncached t other).elim
    · rcases (slot t r).mp second with ⟨-, rfl⟩ | ⟨-, other⟩
      · exact (uncached s old).elim
      · exact valid.unique s t r old other
  case cached =>
    intro r within
    dsimp only [Afl.register, Afl.modify]
    rw [Function.update_apply]
    split
    · next same =>
      exact iff_of_true rfl ⟨tid, (slot tid r).mpr (.inl ⟨rfl, same⟩)⟩
    · next other =>
      rw [valid.cached r within]
      constructor
      · intro some
        obtain ⟨s, found⟩ := some
        refine ⟨s, (slot s r).mpr (.inr ⟨fun same => ?_, found⟩)⟩
        rw [same, free] at found
        cases found
      · intro some
        obtain ⟨s, found⟩ := some
        rcases (slot s r).mp found with ⟨-, same⟩ | ⟨-, old⟩
        · exact (other same).elim
        · exact ⟨s, old⟩
  case count =>
    dsimp only [Afl.register]
    split
    · next last =>
      obtain rfl : tid = afl.maxCacheCount := Nat.le_antisymm inside last
      have old : Nat.count (afl.register q afl.maxCacheCount).Occupied
          afl.maxCacheCount = Nat.count afl.Occupied afl.maxCacheCount := by
        refine count_congr fun s below => ?_
        exact (occupies s).trans (or_iff_right (Nat.ne_of_lt below))
      have new : (afl.register q afl.maxCacheCount).Occupied afl.maxCacheCount :=
        (occupies _).mpr (.inl rfl)
      have counted : Nat.count (afl.register q afl.maxCacheCount).Occupied
          (afl.maxCacheCount + 1) = Nat.count afl.Occupied afl.maxCacheCount + 1 := by
        rw [Nat.count_succ, if_pos new, old]
      rw [valid.count]
      exact counted.symm
    · next before =>
      rw [valid.count]
      symm
      exact count_eq_add_one (Nat.lt_of_not_le before)
        (fun s other => (occupies s).trans (or_iff_right other)) ((occupies tid).mpr (.inl rfl))
        unoccupied
  case below =>
    intro s found
    dsimp only [Afl.register]
    have old : afl.Occupied s → s < afl.maxCacheCount := valid.below s
    rcases (occupies s).mp found with rfl | before
    · split
      · omega
      · omega
    · split
      · exact Nat.lt_succ_of_lt ((old before).trans_le ‹_›)
      · exact old before
  case filled =>
    intro s before
    refine (occupies s).mpr ?_
    dsimp only [Afl.register] at before
    split at before
    · exact .inr (valid.filled s before)
    · split at before
      · next smallest =>
        rcases Nat.lt_succ_iff_lt_or_eq.mp before with earlier | same
        · exact .inr (valid.filled s (smallest ▸ earlier))
        · exact .inl same
      · exact .inr (valid.filled s before)
  case most =>
    dsimp only [Afl.register]
    split
    · exact bound
    · exact least

/-! ## The operations -/

/-- Changes that leave the slots, and which entries have a buffer. -/
theorem of_buffers (valid : afl.Valid) {queueBuf : Nat → QueueEntry} {cacheSize : UInt64}
    {queueCur : Option Nat}
    (buffers : ∀ q, (queueBuf q).testcaseBuf.isSome = (afl.queueBuf q).testcaseBuf.isSome) :
    Afl.Valid { afl with queueBuf, cacheSize, queueCur } where
  owner := valid.owner
  unique := valid.unique
  cached q inQueue := (buffers q) ▸ valid.cached q inQueue
  count := valid.count
  below := valid.below
  filled := valid.filled
  most := valid.most
  wide := valid.wide
  room := valid.room
  slotless := valid.slotless

theorem modify (valid : afl.Valid) {q : Nat} {change : QueueEntry → QueueEntry}
    (buffer : (change (afl.queueBuf q)).testcaseBuf.isSome =
      (afl.queueBuf q).testcaseBuf.isSome) : (afl.modify q change).Valid := by
  refine valid.of_buffers fun r => ?_
  rw [Function.update_apply]
  split
  · next same => rw [same, buffer]
  · rfl

theorem get (valid : afl.Valid) {q : Nat} (inQueue : q < afl.queuedItems) {draws : List Nat}
    {after : Afl} (gets : queueTestcaseGet afl q draws = some after) : after.Valid := by
  unfold queueTestcaseGet at gets
  dsimp only at gets
  split at gets
  · exact Option.some.inj gets ▸ valid
  · next unbuffered =>
    split at gets
    · exact Option.some.inj gets ▸ valid
    · obtain ⟨⟨roomy, tid⟩, makes, finds⟩ := Option.bind_eq_some_iff.mp gets
      obtain ⟨found, next, registered⟩ := Option.map_eq_some_iff.mp finds
      have bare : (afl.queueBuf q).testcaseBuf = none := Option.not_isSome_iff_eq_none.mp unbuffered
      have room := makeRoom _ q draws valid (.inl rfl) makes
      obtain ⟨free, inside, bound⟩ := room.valid.nextFree_bound room.few room.slot next
      rw [← registered]
      exact room.valid.register (room.items.symm ▸ inQueue) (room.entry bare ▸ bare) free inside bound

theorem storeMem (valid : afl.Valid) {q : Nat} (inQueue : q < afl.queuedItems)
    (bare : (afl.queueBuf q).testcaseBuf = none) {after : Afl}
    (stores : queueTestcaseStoreMem afl q = some after) : after.Valid := by
  unfold queueTestcaseStoreMem at stores
  split at stores
  · exact Option.some.inj stores ▸ valid
  · next proceeds =>
    obtain ⟨found, next, registered⟩ := Option.map_eq_some_iff.mp stores
    have few : afl.cacheCount < afl.mostEntries := by
      refine Nat.lt_of_not_le fun full => proceeds (.inr (.inr full))
    obtain ⟨free, inside, bound⟩ := valid.nextFree_bound few (.inl rfl) next
    rw [← registered]
    exact valid.register inQueue bare free inside bound

theorem addToQueue (valid : afl.Valid) (len : UInt32) (weight : Rat) :
    (addToQueue afl len weight).Valid := by
  refine ⟨fun tid q holds => Nat.lt_succ_of_lt (valid.owner tid q holds), valid.unique,
    fun q inQueue => ?_, valid.count, valid.below, valid.filled, valid.most, valid.wide, valid.room,
    valid.slotless⟩
  dsimp only [TestcaseCache.addToQueue] at inQueue ⊢
  rw [Function.update_apply]
  split
  · next same =>
    refine iff_of_false (by simp) fun some => ?_
    obtain ⟨tid, holds⟩ := some
    exact Nat.lt_irrefl _ (same ▸ valid.owner tid q holds)
  · next other => exact valid.cached q (by omega)

theorem retake (valid : afl.Valid) (q : Nat) (oldLen : UInt32) :
    (queueTestcaseRetake afl q oldLen).Valid := by
  unfold queueTestcaseRetake
  dsimp only
  split
  · next buffered =>
    split
    · have changed : (afl.modify q fun entry =>
          { entry with testcaseBuf := some (afl.queueBuf q).len }).Valid :=
        valid.modify buffered.symm
      exact changed.of_buffers fun _ => rfl
    · exact valid
  · exact valid

theorem retakeMem (valid : afl.Valid) (q : Nat) (same moved : Bool) (len oldLen : UInt32) :
    (queueTestcaseRetakeMem afl q same moved len oldLen).Valid := by
  unfold queueTestcaseRetakeMem
  split
  · next buffered =>
    split
    · have changed : (afl.modify q fun entry => { entry with testcaseBuf := some len }).Valid :=
        valid.modify buffered.symm
      exact changed.of_buffers fun _ => rfl
    · exact valid
  · exact valid

theorem apply (valid : afl.Valid) {action : Action} {after : Afl}
    (applies : afl.apply action = some after) : after.Valid := by
  cases action with
  | get q draws =>
    obtain ⟨inQueue, gets⟩ := Option.ite_none_right_eq_some.mp applies
    exact valid.get inQueue gets
  | add len weight => exact Option.some.inj applies ▸ valid.addToQueue len weight
  | save len weight =>
    refine (valid.addToQueue len weight).storeMem (Nat.lt_succ_self _) ?_ applies
    dsimp only [TestcaseCache.addToQueue]
    rw [Function.update_self]
  | trimCustom q len =>
    obtain ⟨-, trims⟩ := Option.ite_none_right_eq_some.mp applies
    have changed : (afl.modify q fun entry => { entry with len }).Valid := valid.modify rfl
    exact Option.some.inj trims ▸ changed.retake q _
  | trim q len same moved =>
    obtain ⟨-, trims⟩ := Option.ite_none_right_eq_some.mp applies
    have changed : (afl.modify q fun entry => { entry with len }).Valid := valid.modify rfl
    exact Option.some.inj trims ▸ changed.retakeMem q same moved len _
  | weigh q weight =>
    have changed : (afl.modify q fun entry => { entry with weight }).Valid := valid.modify rfl
    exact Option.some.inj applies ▸ changed
  | select q =>
    have changed : Afl.Valid { afl with queueCur := q } := valid.of_buffers fun _ => rfl
    exact Option.some.inj applies ▸ changed

theorem initial (maxCacheSize : UInt64) (maxCacheEntries : UInt32) :
    (testcaseCache maxCacheSize maxCacheEntries).initial.Valid where
  owner _ _ holds := nomatch holds
  unique _ _ _ holds := nomatch holds
  cached _ inQueue := (Nat.not_lt_zero _ inQueue).elim
  count := (Nat.count_zero _).symm
  below _ occupied := nomatch occupied
  filled _ before := (Nat.not_lt_zero _ before).elim
  most := Nat.zero_le _
  wide := maxCacheEntries.toNat_lt
  room := Nat.le_refl _
  slotless zero := zero

end Afl.Valid

theorem valid_of_reachable {maxCacheSize : UInt64} {maxCacheEntries : UInt32} {afl : Afl}
    (reachable : (testcaseCache maxCacheSize maxCacheEntries).Reachable afl) : afl.Valid :=
  Machine.reachable_invariant _ Afl.Valid (Afl.Valid.initial maxCacheSize maxCacheEntries)
    (fun _ _ _ valid applies => valid.apply applies) reachable

/-- After any operations on the cache its slots agree with the buffers and the counters. -/
theorem cache_consistent {maxCacheSize : UInt64} {maxCacheEntries : UInt32} {afl : Afl}
    (reachable : (testcaseCache maxCacheSize maxCacheEntries).Reachable afl) : afl.Consistent :=
  (valid_of_reachable reachable).consistent

theorem cache_consistent_trimmed : ∃ afl : Afl,
    (testcaseCache 0x1000 4).run [.save 100 1, .save 200 1, .select (some 1), .trim 1 50 true false] =
      some afl ∧ afl.Consistent := by
  obtain ⟨afl, ran⟩ : ∃ afl, (testcaseCache 0x1000 4).run
      [.save 100 1, .save 200 1, .select (some 1), .trim 1 50 true false] = some afl := ⟨_, rfl⟩
  exact ⟨afl, ran, cache_consistent ⟨_, ran⟩⟩

end SbFuzz.Fuzzer.TestcaseCache
