import SbFuzz.Fuzzer.Splicing
import SbFuzz.Systems.Machine
import Mathlib.Data.List.Perm.Basic

/-! The partners that `fuzz_one` draws for splicing, and the count of entries in front of the
loops that draw them. -/

set_option autoImplicit false

namespace SbFuzz.Fuzzer.SplicePartners

open SbFuzz.Systems

/-! ## The queue -/

structure QueueEntry where
  len : UInt32
  trimDone : Bool

def QueueEntry.ready (q : QueueEntry) : Bool := 4 < q.len

/-- Where the fuzzer is: outside `fuzz_one`, in front of its trimming stage, in the stages behind
it, or outside for good. -/
inductive Phase where
  | idle
  | picked
  | stages
  | stopped
deriving DecidableEq

/-- The part of `afl_state_t` that splicing reads. -/
structure State where
  queueBuf : List QueueEntry
  readyForSplicingCount : UInt32
  /-- The index of `queue_cur`, once there is one. -/
  currentEntry : Option Nat
  phase : Phase

/-- The options that the stages of splicing read. -/
structure Config where
  /-- `!non_instrumented_mode && !disable_trim` -/
  trims : Bool
  customSpliceOptout : Bool
  useSplicing : Bool

/-! ## Steps -/

inductive Action where
  /-- `add_to_queue`. The custom mutators may rewrite the file, which then has this size. -/
  | add (len : UInt32) (syncing : Bool) (updated : Option UInt32)
  /-- The main loop calls `fuzz_one`. -/
  | pick (entry : Nat)
  /-- `trim_case` leaves this length; the user may stop the fuzzer meanwhile. -/
  | trim (len : UInt32) (stops : Bool)
  | skipTrim
  | leave

/-- The length of a new entry, after `run_afl_custom_queue_new_entry`. -/
def State.newLen (state : State) (len : UInt32) (syncing : Bool) (updated : Option UInt32) :
    UInt32 :=
  if state.currentEntry.isSome && !syncing then updated.getD len else len

/-- `add_to_queue`; fewer than 2 ^ 32 entries fit in memory. -/
def addToQueue (state : State) (len : UInt32) (syncing : Bool) (updated : Option UInt32) :
    Option State :=
  let newLen := state.newLen len syncing updated
  if state.queueBuf.length + 1 < 2 ^ 32 ∧ newLen ≠ 0 then
    some { state with
      queueBuf := state.queueBuf ++ [⟨newLen, false⟩]
      readyForSplicingCount :=
        if 4 < len then state.readyForSplicingCount + 1 else state.readyForSplicingCount }
  else none

/-- The trimming stage of `fuzz_one`. -/
def State.trim (state : State) (entry : Nat) (q : QueueEntry) (len : UInt32) (stops : Bool) : State :=
  if stops then { state with queueBuf := state.queueBuf.set entry { q with len }, phase := .stopped }
  else
    { state with
      queueBuf := state.queueBuf.set entry ⟨len, true⟩
      readyForSplicingCount :=
        if len ≤ 4 ∧ 4 < q.len then state.readyForSplicingCount - 1
        else state.readyForSplicingCount
      phase := .stages }

def step (config : Config) (state : State) : Action → Option State
  | .add len syncing updated => addToQueue state len syncing updated
  | .pick entry =>
    if state.phase = .idle ∧ entry < state.queueBuf.length then
      some { state with currentEntry := some entry, phase := .picked }
    else none
  | .trim len stops =>
    state.currentEntry.bind fun entry => state.queueBuf[entry]?.bind fun q =>
      if state.phase = .picked ∧ config.trims ∧ ¬ q.trimDone then some (state.trim entry q len stops)
      else none
  | .skipTrim =>
    state.currentEntry.bind fun entry => state.queueBuf[entry]?.bind fun q =>
      if state.phase = .picked ∧ ¬ (config.trims ∧ ¬ q.trimDone) then
        some { state with phase := .stages }
      else none
  | .leave =>
    if state.phase = .picked ∨ state.phase = .stages then some { state with phase := .idle } else none

def machine (config : Config) : Machine State Action where
  initial := ⟨[], 0, none, .idle⟩
  step := step config

/-! ## The loops -/

/-- The stages of `fuzz_one`, and of its copy for MOpt, that draw a partner. -/
inductive Site where
  | custom
  | spliceOverwrite
  | spliceInsert (tempLen : Nat)
  | splicing (spliceCycle spliceCycles : Nat)
  | moptSplice
  | moptSplicing (spliceCycle spliceCycles : Nat)

def havocBlkXl : Nat := 32768

def maxFile : Nat := 1 * 1024 * 1024

def State.splices (config : Config) (state : State) (queueCur : QueueEntry)
    (spliceCycle spliceCycles : Nat) : Prop :=
  config.useSplicing ∧ spliceCycle < spliceCycles ∧ 1 < state.readyForSplicingCount ∧
    4 ≤ queueCur.len

/-- What is checked in front of the loop. -/
def Site.Guard (config : Config) (state : State) (queueCur : QueueEntry) : Site → Prop
  | .custom => ¬ config.customSpliceOptout ∧ 1 < state.readyForSplicingCount
  | .spliceOverwrite => ¬ state.readyForSplicingCount ≤ 1
  | .spliceInsert tempLen =>
    ¬ state.readyForSplicingCount ≤ 1 ∧ ¬ maxFile ≤ tempLen + havocBlkXl
  | .splicing spliceCycle spliceCycles => state.splices config queueCur spliceCycle spliceCycles
  | .moptSplice => ¬ state.readyForSplicingCount < 2
  | .moptSplicing spliceCycle spliceCycles =>
    state.splices config queueCur spliceCycle spliceCycles

def QueueEntry.untrimmed (q : QueueEntry) : Bool := q.ready && !q.trimDone

/-- The count is at most that of the entries that are ready, and each of them that can still be
trimmed has been counted. -/
structure State.Counted (state : State) : Prop where
  upper : state.readyForSplicingCount.toNat ≤ state.queueBuf.countP QueueEntry.ready
  lower : state.queueBuf.countP QueueEntry.untrimmed ≤ state.readyForSplicingCount.toNat
  short : state.queueBuf.length < 2 ^ 32

def State.Sound (state : State) : Prop := state.phase ≠ .stopped → state.Counted

/-- The custom mutators do not take the length of a new entry across 4, since the entry has been
counted before. -/
def State.Keeps (state : State) : Action → Prop
  | .add len syncing updated => 4 < state.newLen len syncing updated ↔ 4 < len
  | .pick _ => True
  | .trim _ _ => True
  | .skipTrim => True
  | .leave => True

theorem ready_iff (q : QueueEntry) : q.ready = true ↔ 4 < q.len := by simp [QueueEntry.ready]

theorem State.Counted.add {state : State} (counted : state.Counted) {len newLen : UInt32}
    (room : state.queueBuf.length + 1 < 2 ^ 32) (keeps : 4 < newLen ↔ 4 < len) :
    State.Counted { state with
      queueBuf := state.queueBuf ++ [⟨newLen, false⟩]
      readyForSplicingCount :=
        if 4 < len then state.readyForSplicingCount + 1 else state.readyForSplicingCount } := by
  obtain ⟨upper, lower, short⟩ := counted
  have bound := List.countP_le_length (p := QueueEntry.ready) (l := state.queueBuf)
  by_cases ready : 4 < len
  · have counts : QueueEntry.ready ⟨newLen, false⟩ = true := (ready_iff _).mpr (keeps.mpr ready)
    have fits : (state.readyForSplicingCount + 1).toNat = state.readyForSplicingCount.toNat + 1 := by
      rw [UInt32.toNat_add, UInt32.toNat_one, Nat.mod_eq_of_lt (by omega)]
    constructor
    · simp only [if_pos ready, fits, List.countP_append, List.countP_singleton, counts, if_true]
      omega
    · simp only [if_pos ready, fits, List.countP_append, List.countP_singleton,
        QueueEntry.untrimmed, counts, Bool.not_false, Bool.and_self, if_true]
      exact Nat.succ_le_succ lower
    · simp only [List.length_append, List.length_singleton]
      omega
  · have counts : QueueEntry.ready ⟨newLen, false⟩ = false :=
      Bool.not_eq_true _ ▸ fun counted => ready (keeps.mp ((ready_iff _).mp counted))
    constructor
    · simp only [if_neg ready, List.countP_append, List.countP_singleton, counts]
      omega
    · simp only [if_neg ready, List.countP_append, List.countP_singleton,
        QueueEntry.untrimmed, counts, Bool.false_and]
      exact lower
    · simp only [List.length_append, List.length_singleton]
      omega

theorem State.Counted.trim {state : State} (counted : state.Counted) {entry : Nat} {q : QueueEntry}
    (inside : state.queueBuf[entry]? = some q) (untrimmed : ¬ q.trimDone) (len : UInt32) :
    (state.trim entry q len false).Counted := by
  obtain ⟨upper, lower, short⟩ := counted
  obtain ⟨below, found⟩ := List.getElem?_eq_some_iff.mp inside
  have bound := List.countP_le_length (p := QueueEntry.ready) (l := state.queueBuf)
  have stays : QueueEntry.untrimmed ⟨len, true⟩ = false := Bool.and_false _
  have here : q.untrimmed = q.ready := by simp [QueueEntry.untrimmed, untrimmed]
  have positive : q.ready = true → 0 < state.queueBuf.countP QueueEntry.untrimmed := fun ready =>
    List.countP_pos_iff.mpr ⟨q, found ▸ List.getElem_mem below, here.trans ready⟩
  have positive' : q.ready = true → 0 < state.queueBuf.countP QueueEntry.ready := fun ready =>
    List.countP_pos_iff.mpr ⟨q, found ▸ List.getElem_mem below, ready⟩
  unfold State.trim
  rw [if_neg Bool.false_ne_true]
  by_cases shrinks : len ≤ 4 ∧ 4 < q.len
  · have ready := (ready_iff q).mpr shrinks.2
    have unready : QueueEntry.ready ⟨len, true⟩ = false :=
      Bool.not_eq_true _ ▸ fun ready => absurd ((ready_iff _).mp ready) (UInt32.not_lt.mpr shrinks.1)
    have some' := positive ready
    have fits : (state.readyForSplicingCount - 1).toNat = state.readyForSplicingCount.toNat - 1 :=
      UInt32.toNat_sub_of_le _ _ (UInt32.le_iff_toNat_le.mpr (by rw [UInt32.toNat_one]; omega))
    constructor
    · simp only [if_pos shrinks, fits, List.countP_set below, found, ready, unready, if_true,
        Bool.false_eq_true, if_false]
      omega
    · simp only [if_pos shrinks, fits, List.countP_set below, found, here, ready, stays, if_true,
        Bool.false_eq_true, if_false]
      omega
    · rw [List.length_set]
      exact short
  · constructor
    · simp only [if_neg shrinks, List.countP_set below, found]
      by_cases ready : q.ready = true
      · have long : QueueEntry.ready ⟨len, true⟩ = true := (ready_iff _).mpr <|
          UInt32.not_le.mp fun small => shrinks ⟨small, (ready_iff q).mp ready⟩
        have some' := positive' ready
        simp only [ready, long, if_true]
        omega
      · simp only [ready, if_false, Bool.false_eq_true]
        omega
    · simp only [if_neg shrinks, List.countP_set below, found, here, stays, Bool.false_eq_true, if_false]
      by_cases ready : q.ready = true
      · simp only [ready, if_true]
        omega
      · simp only [ready, if_false, Bool.false_eq_true]
        omega
    · rw [List.length_set]
      exact short

theorem State.Sound.step {config : Config} {state next : State} {action : Action}
    (sound : state.Sound) (keeps : state.Keeps action)
    (stepped : step config state action = some next) : next.Sound := by
  cases action with
  | add len syncing updated =>
    simp only [SplicePartners.step, addToQueue] at stepped
    split at stepped
    · next room =>
      cases stepped
      exact fun running => (sound running).add room.1 keeps
    · cases stepped
  | pick entry =>
    simp only [SplicePartners.step] at stepped
    split at stepped
    · next idle =>
      cases stepped
      have counted := sound (by rw [idle.1]; decide)
      exact fun _ => ⟨counted.upper, counted.lower, counted.short⟩
    · cases stepped
  | trim len stops =>
    obtain ⟨entry, _, stepped⟩ := Option.bind_eq_some_iff.mp stepped
    obtain ⟨q, inside, stepped⟩ := Option.bind_eq_some_iff.mp stepped
    split at stepped
    · next trims =>
      cases stepped
      cases stops with
      | true => exact fun running => absurd rfl running
      | false => exact fun _ => (sound (by rw [trims.1]; decide)).trim inside trims.2.2 len
    · cases stepped
  | skipTrim =>
    obtain ⟨entry, _, stepped⟩ := Option.bind_eq_some_iff.mp stepped
    obtain ⟨q, _, stepped⟩ := Option.bind_eq_some_iff.mp stepped
    split at stepped
    · next skips =>
      cases stepped
      have counted := sound (by rw [skips.1]; decide)
      exact fun _ => ⟨counted.upper, counted.lower, counted.short⟩
    · cases stepped
  | leave =>
    simp only [SplicePartners.step] at stepped
    split at stepped
    · next inside =>
      cases stepped
      have counted := sound (by rcases inside with picked | stages <;> simp [*])
      exact fun _ => ⟨counted.upper, counted.lower, counted.short⟩
    · cases stepped

/-! ## Partners -/

theorem Site.Guard.count {config : Config} {state : State} {q : QueueEntry} {site : Site}
    (guard : site.Guard config state q) : 2 ≤ state.readyForSplicingCount.toNat := by
  have more : 1 < state.readyForSplicingCount := by
    cases site with
    | custom => exact guard.2
    | spliceOverwrite => exact UInt32.not_le.mp guard
    | spliceInsert tempLen => exact UInt32.not_le.mp guard.1
    | splicing spliceCycle spliceCycles => exact guard.2.2.1
    | moptSplice => exact UInt32.lt_of_lt_of_le (by decide) (UInt32.not_lt.mp guard)
    | moptSplicing spliceCycle spliceCycles => exact guard.2.2.1
  exact UInt32.lt_iff_toNat_lt.mp more

end SbFuzz.Fuzzer.SplicePartners
