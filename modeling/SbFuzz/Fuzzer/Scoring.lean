import SbFuzz.Fuzzer.Queue
import SbFuzz.Systems.Loops

/-! What `update_bitmap_score` does to the top-rated entries, their reference
counts and their minimised traces. -/

set_option autoImplicit false

namespace SbFuzz.Fuzzer

open SbFuzz.Systems

/-! ## The frame -/

def QueueEntry.unscored (entry : QueueEntry) : QueueEntry :=
  { entry with tcRef := 0, traceMini := none }

/-- The part of the state that scoring leaves alone. -/
def Afl.unscored (afl : Afl) : Afl :=
  { afl with
    queueBuf := fun q => (afl.queueBuf q).unscored
    topRated := fun _ => none
    scoreChanged := false }

section

variable (config : Config) (afl : Afl) (q i : Nat)

theorem Afl.modify_unscored {change : QueueEntry → QueueEntry}
    (kept : (change (afl.queueBuf q)).unscored = (afl.queueBuf q).unscored) :
    (afl.modify q change).unscored = afl.unscored := by
  simp only [Afl.unscored, Afl.modify]
  congr 1
  funext r
  rw [Function.update_apply]
  split
  · next same => rw [kept, same]
  · rfl

@[simp] theorem Afl.release_unscored (top : Nat) : (afl.release top).unscored = afl.unscored :=
  afl.modify_unscored top rfl

@[simp] theorem Afl.insertWinner_unscored :
    (afl.insertWinner config q i).unscored = afl.unscored := by
  have modified : (afl.modify q fun entry =>
      { entry with
        tcRef := entry.tcRef + 1
        traceMini := some (entry.traceMini.getD
          (minimizeBits config afl.traceBits)) }).unscored = afl.unscored :=
    afl.modify_unscored q rfl
  exact modified

/-- Byte `i` goes from its holder, if it has one, to `q`. -/
def Afl.takeByte : Afl :=
  match afl.topRated i with
  | some top => (afl.release top).insertWinner config q i
  | none => afl.insertWinner config q i

def Afl.Wins : Prop :=
  afl.traceBits i ≠ 0 ∧ ∀ top, afl.topRated i = some top → afl.beats config q top = true

theorem scoreByte_of_wins (wins : afl.Wins config q i) :
    scoreByte config q afl i = afl.takeByte config q i := by
  rw [scoreByte, if_pos wins.1, Afl.takeByte]
  cases holder : afl.topRated i with
  | none => rfl
  | some top => simp [wins.2 top holder]

theorem scoreByte_of_not_wins (loses : ¬ afl.Wins config q i) :
    scoreByte config q afl i = afl := by
  rw [scoreByte]
  split
  · next hit =>
    cases holder : afl.topRated i with
    | none => exact absurd ⟨hit, by simp [holder]⟩ loses
    | some top =>
        by_cases beaten : afl.beats config q top = true
        · refine absurd ⟨hit, fun other same => ?_⟩ loses
          obtain rfl : top = other := Option.some.inj (holder.symm.trans same)
          exact beaten
        · simp [beaten]
  · rfl

@[simp] theorem Afl.takeByte_unscored : (afl.takeByte config q i).unscored = afl.unscored := by
  unfold Afl.takeByte
  cases afl.topRated i <;> simp

@[simp] theorem Afl.takeByte_scoreChanged : (afl.takeByte config q i).scoreChanged = true := by
  unfold Afl.takeByte
  cases afl.topRated i <;> rfl

@[simp] theorem Afl.takeByte_topRated :
    (afl.takeByte config q i).topRated = Function.update afl.topRated i (some q) := by
  unfold Afl.takeByte
  cases afl.topRated i <;> rfl

/-- `beats` only looks at what scoring leaves alone. -/
theorem Afl.beats_unscored (top : Nat) :
    afl.unscored.beats config q top = afl.beats config q top := rfl

end

theorem Afl.beats_of_unscored {config : Config} {before after : Afl} {q top : Nat}
    (same : after.unscored = before.unscored) :
    after.beats config q top = before.beats config q top := by
  rw [← Afl.beats_unscored, same, Afl.beats_unscored]

theorem Afl.traceBits_of_unscored {before after : Afl}
    (same : after.unscored = before.unscored) : after.traceBits = before.traceBits := by
  have kept : after.unscored.traceBits = before.unscored.traceBits := by rw [same]
  exact kept

theorem Afl.queuedItems_of_unscored {before after : Afl}
    (same : after.unscored = before.unscored) : after.queuedItems = before.queuedItems := by
  have kept : after.unscored.queuedItems = before.unscored.queuedItems := by rw [same]
  exact kept

/-- Scoring touches none of the counters of the queue. -/
theorem Afl.counters_of_unscored {before after : Afl} (same : after.unscored = before.unscored) :
    after.activeItems = before.activeItems ∧ after.pendingNotFuzzed = before.pendingNotFuzzed ∧
      after.queuedFavored = before.queuedFavored ∧
      after.pendingFavored = before.pendingFavored ∧
      after.smallestFavored = before.smallestFavored := by
  have active : after.unscored.activeItems = before.unscored.activeItems := by rw [same]
  have unfuzzed : after.unscored.pendingNotFuzzed = before.unscored.pendingNotFuzzed := by
    rw [same]
  have favored : after.unscored.queuedFavored = before.unscored.queuedFavored := by rw [same]
  have pending : after.unscored.pendingFavored = before.unscored.pendingFavored := by rw [same]
  have smallest : after.unscored.smallestFavored = before.unscored.smallestFavored := by rw [same]
  exact ⟨active, unfuzzed, favored, pending, smallest⟩

theorem Afl.entry_of_unscored {before after : Afl} (same : after.unscored = before.unscored)
    (q : Nat) : (after.queueBuf q).unscored = (before.queueBuf q).unscored := by
  have kept : after.unscored.queueBuf q = before.unscored.queueBuf q := by rw [same]
  exact kept

section

variable {before after : QueueEntry} (same : after.unscored = before.unscored)

include same

theorem QueueEntry.wasFuzzed_of_unscored : after.wasFuzzed = before.wasFuzzed := by
  have kept : after.unscored.wasFuzzed = before.unscored.wasFuzzed := by rw [same]
  exact kept

theorem QueueEntry.disabled_of_unscored : after.disabled = before.disabled := by
  have kept : after.unscored.disabled = before.unscored.disabled := by rw [same]
  exact kept

theorem QueueEntry.favored_of_unscored : after.favored = before.favored := by
  have kept : after.unscored.favored = before.unscored.favored := by rw [same]
  exact kept

end

theorem updateBitmapScore_unscored (config : Config) (afl : Afl) (q : Nat) :
    (updateBitmapScore config afl q).unscored = afl.unscored := by
  unfold updateBitmapScore
  refine foldl_range_invariant (fun state : Afl => state.unscored = afl.unscored) rfl ?_
  intro i _ state same
  by_cases wins : state.Wins config q i
  · rw [scoreByte_of_wins _ _ _ _ wins, Afl.takeByte_unscored, same]
  · rw [scoreByte_of_not_wins _ _ _ _ wins, same]

/-! ## Winners -/

/-- The state after `n` rounds of `update_bitmap_score`. -/
def Afl.ScoredUpTo (config : Config) (before : Afl) (q n : Nat) (state : Afl) : Prop :=
  state.unscored = before.unscored ∧ ∀ i,
    (i < n ∧ before.Wins config q i → state.topRated i = some q) ∧
    (¬ (i < n ∧ before.Wins config q i) → state.topRated i = before.topRated i)

section

variable {config : Config} {before state : Afl} {q k : Nat}

theorem Afl.ScoredUpTo.start : before.ScoredUpTo config q 0 before :=
  ⟨rfl, fun i => ⟨fun wins => absurd wins.1 (Nat.not_lt_zero i), fun _ => rfl⟩⟩

/-- The next byte is as it was at first. -/
theorem Afl.ScoredUpTo.wins_iff (scored : before.ScoredUpTo config q k state) :
    state.Wins config q k ↔ before.Wins config q k := by
  obtain ⟨same, tops⟩ := scored
  have trace := Afl.traceBits_of_unscored same
  have untouched : state.topRated k = before.topRated k := (tops k).2 fun wins => by omega
  simp only [Afl.Wins, trace, untouched, Afl.beats_of_unscored same]

theorem Afl.ScoredUpTo.round (scored : before.ScoredUpTo config q k state) :
    before.ScoredUpTo config q (k + 1) (scoreByte config q state k) := by
  have sameWins := scored.wins_iff
  obtain ⟨same, tops⟩ := scored
  by_cases wins : state.Wins config q k
  · rw [scoreByte_of_wins _ _ _ _ wins]
    refine ⟨by rw [Afl.takeByte_unscored, same], fun i => ?_⟩
    rw [Afl.takeByte_topRated, Function.update_apply]
    split
    · next here =>
      subst here
      exact ⟨fun _ => rfl, fun loses => absurd ⟨Nat.lt_succ_self i, sameWins.mp wins⟩ loses⟩
    · next elsewhere =>
      refine ⟨fun inRange => (tops i).1 ⟨by omega, inRange.2⟩, fun loses => (tops i).2 ?_⟩
      exact fun inRange => loses ⟨by omega, inRange.2⟩
  · rw [scoreByte_of_not_wins _ _ _ _ wins]
    refine ⟨same, fun i => ⟨fun inRange => ?_, fun loses => (tops i).2 ?_⟩⟩
    · have other : i ≠ k := by
        rintro rfl
        exact wins (sameWins.mpr inRange.2)
      exact (tops i).1 ⟨by omega, inRange.2⟩
    · exact fun inRange => loses ⟨by omega, inRange.2⟩

end

/-- Byte `i` goes to `q` if `q` wins it, whatever happens at the other bytes. -/
theorem updateBitmapScore_topRated (config : Config) (afl : Afl) (q i : Nat) :
    (i < config.mapSize ∧ afl.Wins config q i →
      (updateBitmapScore config afl q).topRated i = some q) ∧
    (¬ (i < config.mapSize ∧ afl.Wins config q i) →
      (updateBitmapScore config afl q).topRated i = afl.topRated i) := by
  have scored : afl.ScoredUpTo config q config.mapSize (updateBitmapScore config afl q) := by
    unfold updateBitmapScore
    apply foldl_range_induction (fun n => afl.ScoredUpTo config q n) .start
    exact fun k _ state scored => scored.round
  exact scored.2 i

/-- Without a byte to win nothing happens. -/
theorem updateBitmapScore_of_no_wins {config : Config} {afl : Afl} {q : Nat}
    (none : ∀ i < config.mapSize, ¬ afl.Wins config q i) : updateBitmapScore config afl q = afl := by
  unfold updateBitmapScore
  apply foldl_range_invariant (fun state => state = afl) rfl
  rintro i inMap _ rfl
  exact scoreByte_of_not_wins _ _ _ _ (none i inMap)

/-- A byte that is won is not forgotten in the flag. -/
theorem updateBitmapScore_scoreChanged {config : Config} {afl : Afl} {q : Nat}
    (quiet : (updateBitmapScore config afl q).scoreChanged = false) :
    updateBitmapScore config afl q = afl := by
  apply updateBitmapScore_of_no_wins
  have loop : afl.ScoredUpTo config q config.mapSize (updateBitmapScore config afl q) ∧
      ((updateBitmapScore config afl q).scoreChanged = false →
        ∀ i < config.mapSize, ¬ afl.Wins config q i) := by
    unfold updateBitmapScore
    apply foldl_range_induction (fun n (state : Afl) => afl.ScoredUpTo config q n state ∧
      (state.scoreChanged = false → ∀ i < n, ¬ afl.Wins config q i))
    · exact ⟨.start, fun _ i below => absurd below (Nat.not_lt_zero i)⟩
    · intro k _ state ⟨scored, silent⟩
      refine ⟨scored.round, fun quiet i below => ?_⟩
      by_cases wins : state.Wins config q k
      · rw [scoreByte_of_wins _ _ _ _ wins] at quiet
        exact absurd quiet (by simp)
      · rw [scoreByte_of_not_wins _ _ _ _ wins] at quiet
        rcases Nat.lt_succ_iff_lt_or_eq.mp below with before | rfl
        · exact silent quiet i before
        · exact fun winsThere => wins (scored.wins_iff.mpr winsThere)
  exact loop.2 quiet

/-! ## Reference counts -/

/-- An entry has a minimised trace exactly while it has references. -/
def QueueEntry.MiniKept (entry : QueueEntry) : Prop :=
  entry.traceMini.isSome = true ↔ 0 < entry.tcRef

/-- The three places where the fuzzer keeps who holds which byte agree, up to
references that no byte accounts for. -/
structure Afl.Refs (config : Config) (surplus : Nat → Nat) (afl : Afl) : Prop where
  inRange : ∀ i q, afl.topRated i = some q → i < config.mapSize ∧ q < afl.queuedItems
  counted : ∀ q, (afl.queueBuf q).tcRef =
    surplus q + Nat.count (fun i => afl.topRated i = some q) config.mapSize
  mini : ∀ q, (afl.queueBuf q).MiniKept

theorem Afl.Refs.tcRef_pos {config : Config} {surplus : Nat → Nat} {afl : Afl}
    (refs : afl.Refs config surplus) {i q : Nat} (holds : afl.topRated i = some q) :
    0 < (afl.queueBuf q).tcRef := by
  have held : 0 < Nat.count (fun i => afl.topRated i = some q) config.mapSize :=
    count_pos_iff.mpr ⟨i, (refs.inRange i q holds).1, holds⟩
  rw [refs.counted]
  omega

section

variable (config : Config) (afl : Afl) (q i : Nat)

theorem Afl.insertWinner_queueBuf (r : Nat) : (afl.insertWinner config q i).queueBuf r =
    if r = q then
      { afl.queueBuf q with
        tcRef := (afl.queueBuf q).tcRef + 1
        traceMini := some ((afl.queueBuf q).traceMini.getD (minimizeBits config afl.traceBits)) }
    else afl.queueBuf r := by
  simp only [Afl.insertWinner, Afl.modify_queueBuf]

theorem Afl.release_queueBuf (top r : Nat) : (afl.release top).queueBuf r =
    if r = top then
      { afl.queueBuf top with
        tcRef := (afl.queueBuf top).tcRef - 1
        traceMini := if (afl.queueBuf top).tcRef - 1 = 0 then none
          else (afl.queueBuf top).traceMini }
    else afl.queueBuf r := by
  simp only [Afl.release, Afl.modify_queueBuf]

/-- The loser counts one byte less and the winner one more. -/
theorem Afl.takeByte_tcRef (positive : ∀ top, afl.topRated i = some top →
    0 < (afl.queueBuf top).tcRef) (r : Nat) :
    ((afl.takeByte config q i).queueBuf r).tcRef + (if afl.topRated i = some r then 1 else 0) =
      (afl.queueBuf r).tcRef + (if q = r then 1 else 0) := by
  unfold Afl.takeByte
  cases holder : afl.topRated i with
  | none =>
      rw [Afl.insertWinner_queueBuf]
      by_cases winner : r = q
      · simp [winner]
      · simp [winner, Ne.symm winner]
  | some top =>
      have positive := positive top holder
      simp only [Afl.insertWinner_queueBuf, Afl.release_queueBuf, Option.some.injEq]
      by_cases winner : r = q <;> by_cases loser : r = top
      · subst winner loser
        simp only [if_true]
        omega
      · subst winner
        simp [loser, Ne.symm loser]
      · subst loser
        simp only [winner, Ne.symm winner, if_true, if_false]
        omega
      · simp [winner, loser, Ne.symm winner, Ne.symm loser]

theorem Afl.takeByte_miniKept (positive : ∀ top, afl.topRated i = some top →
    0 < (afl.queueBuf top).tcRef) (kept : ∀ r, (afl.queueBuf r).MiniKept) (r : Nat) :
    ((afl.takeByte config q i).queueBuf r).MiniKept := by
  have inserted : ∀ state : Afl, (∀ r, (state.queueBuf r).MiniKept) → ∀ r,
      ((state.insertWinner config q i).queueBuf r).MiniKept := by
    intro state kept r
    rw [Afl.insertWinner_queueBuf]
    split
    · simp [QueueEntry.MiniKept]
    · exact kept r
  unfold Afl.takeByte
  cases holder : afl.topRated i with
  | none => exact inserted afl kept r
  | some top =>
      apply inserted
      intro r
      rw [Afl.release_queueBuf]
      split
      · have before := kept top
        have positive := positive top holder
        simp only [QueueEntry.MiniKept] at before ⊢
        split
        · next last => simp [last]
        · next more => exact before.trans ⟨fun _ => Nat.pos_of_ne_zero more, fun _ => positive⟩
      · exact kept r

/-- A new minimised trace is made from the trace that is scored. -/
theorem Afl.takeByte_traceMini {r : Nat} {mini : Memory.BitSet}
    (has : ((afl.takeByte config q i).queueBuf r).traceMini = some mini) :
    (afl.queueBuf r).traceMini = some mini ∨
      r = q ∧ mini = minimizeBits config afl.traceBits := by
  have inserted : ∀ state : Afl,
      ((state.insertWinner config q i).queueBuf r).traceMini = some mini →
      (state.queueBuf r).traceMini = some mini ∨
        r = q ∧ mini = minimizeBits config state.traceBits := by
    intro state has
    rw [Afl.insertWinner_queueBuf] at has
    split at has
    · next winner =>
      subst winner
      cases before : (state.queueBuf r).traceMini with
      | none =>
          simp only [before, Option.getD_none, Option.some.injEq] at has
          exact .inr ⟨rfl, has.symm⟩
      | some old =>
          simp only [before, Option.getD_some, Option.some.injEq] at has
          exact .inl (congrArg some has)
    · exact .inl has
  unfold Afl.takeByte at has
  cases holder : afl.topRated i with
  | none =>
      rw [holder] at has
      exact inserted afl has
  | some top =>
      rw [holder] at has
      refine (inserted _ has).imp (fun before => ?_) id
      rw [Afl.release_queueBuf] at before
      split at before
      · next loser =>
        subst loser
        simp only at before
        split at before
        · exact absurd before (by simp)
        · exact before
      · exact before

end

section

variable {config : Config} {surplus : Nat → Nat} {afl : Afl} {q i : Nat}

theorem Afl.Refs.takeByte (refs : afl.Refs config surplus) (inMap : i < config.mapSize)
    (inQueue : q < afl.queuedItems) : (afl.takeByte config q i).Refs config surplus := by
  have positive : ∀ top, afl.topRated i = some top → 0 < (afl.queueBuf top).tcRef :=
    fun _ => refs.tcRef_pos
  have items := Afl.queuedItems_of_unscored (afl.takeByte_unscored config q i)
  have holders := afl.takeByte_topRated config q i
  constructor
  · intro j r holds
    rw [items]
    rw [holders, Function.update_apply] at holds
    split at holds
    · next here =>
      obtain rfl : q = r := Option.some.inj holds
      exact ⟨here ▸ inMap, inQueue⟩
    · exact refs.inRange j r holds
  · intro r
    have moved := afl.takeByte_tcRef config q i positive r
    have before := refs.counted r
    have counts : Nat.count (fun j => (afl.takeByte config q i).topRated j = some r)
          config.mapSize + (if afl.topRated i = some r then 1 else 0) =
        Nat.count (fun j => afl.topRated j = some r) config.mapSize +
          (if q = r then 1 else 0) := by
      have changed := count_add_indicator
        (p := fun j => (afl.takeByte config q i).topRated j = some r)
        (q := fun j => afl.topRated j = some r) inMap fun j other => by
          rw [holders, Function.update_of_ne other]
      simpa [holders] using changed
    omega
  · exact afl.takeByte_miniKept config q i positive refs.mini

theorem Afl.Refs.updateBitmapScore (refs : afl.Refs config surplus)
    (inQueue : q < afl.queuedItems) : (updateBitmapScore config afl q).Refs config surplus := by
  have loop : (Fuzzer.updateBitmapScore config afl q).unscored = afl.unscored ∧
      (Fuzzer.updateBitmapScore config afl q).Refs config surplus := by
    unfold Fuzzer.updateBitmapScore
    apply foldl_range_invariant (fun state : Afl =>
      state.unscored = afl.unscored ∧ state.Refs config surplus) ⟨rfl, refs⟩
    intro k inMap state ⟨same, kept⟩
    by_cases wins : state.Wins config q k
    · rw [scoreByte_of_wins _ _ _ _ wins]
      have inQueue : q < state.queuedItems := Afl.queuedItems_of_unscored same ▸ inQueue
      exact ⟨by rw [Afl.takeByte_unscored, same], kept.takeByte inMap inQueue⟩
    · rw [scoreByte_of_not_wins _ _ _ _ wins]
      exact ⟨same, kept⟩
  exact loop.2

theorem updateBitmapScore_traceMini {r : Nat} {mini : Memory.BitSet}
    (has : ((updateBitmapScore config afl q).queueBuf r).traceMini = some mini) :
    (afl.queueBuf r).traceMini = some mini ∨
      r = q ∧ mini = minimizeBits config afl.traceBits := by
  have loop : (updateBitmapScore config afl q).unscored = afl.unscored ∧ ∀ r mini,
      ((updateBitmapScore config afl q).queueBuf r).traceMini = some mini →
      (afl.queueBuf r).traceMini = some mini ∨
        r = q ∧ mini = minimizeBits config afl.traceBits := by
    unfold updateBitmapScore
    apply foldl_range_invariant (fun state : Afl => state.unscored = afl.unscored ∧ ∀ r mini,
      (state.queueBuf r).traceMini = some mini →
      (afl.queueBuf r).traceMini = some mini ∨
        r = q ∧ mini = minimizeBits config afl.traceBits)
      ⟨rfl, fun _ _ has => .inl has⟩
    intro k _ state ⟨same, origin⟩
    by_cases wins : state.Wins config q k
    · rw [scoreByte_of_wins _ _ _ _ wins]
      refine ⟨by rw [Afl.takeByte_unscored, same], fun r mini has => ?_⟩
      rcases state.takeByte_traceMini config q k has with before | ⟨winner, made⟩
      · exact origin r mini before
      · exact .inr ⟨winner, by rw [made, Afl.traceBits_of_unscored same]⟩
    · rw [scoreByte_of_not_wins _ _ _ _ wins]
      exact ⟨same, origin⟩
  exact loop.2 r mini has

end

end SbFuzz.Fuzzer
