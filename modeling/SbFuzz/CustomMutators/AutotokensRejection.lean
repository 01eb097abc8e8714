import Mathlib.Data.List.Perm.Basic
import SbFuzz.CustomMutators.AutotokensLossless

/-! When the loops of `autotokens` that reject what they draw can end, over all rounds of
`afl_custom_fuzz`. -/

set_option autoImplicit false

namespace SbFuzz.CustomMutators.Autotokens

open SbFuzz.Fuzzer SbFuzz.Systems SbFuzz.Systems.Draws

/-! ## The loops of a round -/

def changeLoop (state : State) (curItem : Nat) : Rejection :=
  ⟨state.table.currentId, fun newItem => !drawsAgain curItem newItem⟩

def insertLoop (state : State) : Rejection := ⟨state.table.currentId, (· < whitespaceIds)⟩

def eraseLoop (m : Structure) : Rejection :=
  ⟨m.size, fun pos => whitespaceIds ≤ m.items.getD pos 0⟩

/-- What a round has drawn when it enters its loop. -/
inductive Entry where
  | change (curItem : Nat)
  | insert
  | splice
  | erase
  /-- The structure is too small to erase an item. -/
  | keep
  deriving DecidableEq

def Entry.loop (state : State) (m : Structure) : Entry → Option Rejection
  | .change curItem => some (changeLoop state curItem)
  | .insert => some (insertLoop state)
  | .splice => none
  | .erase => some (eraseLoop m)
  | .keep => none

def approach (m : Structure) (maxRand : Nat) : Draws Entry := do
  let choice ← below maxRand
  if choice ≤ 9 then
    let pos ← below m.size
    let curItem ← fetch m.items[pos]?
    return .change curItem
  else if choice ≤ 13 then return .insert
  else if choice ≤ 22 then return .splice
  else if autotokensSizeMin < m.size then return .erase
  else return .keep

variable {state : State} {m : Structure} {maxRand rounds : Nat} {choices : List Nat}

/-- A round that enters a loop goes on with what the loop draws, and then returns. -/
theorem mutate_of_approach {entry : Entry} {rest : List Nat}
    (entered : approach m maxRand choices = .ok (entry, rest)) {loop : Rejection}
    (isLoop : entry.loop state m = some loop) :
    ∃ finish : Nat → Draws (Structure × Nat),
      (∀ drawn choice more, ∃ next left, finish drawn (choice :: more) = .ok (next, left)) ∧
      mutate state m maxRand choices = (loop.run >>= finish) rest := by
  obtain ⟨choice, middle, drawn, entered⟩ := bind_eq_ok.mp entered
  rw [mutate, bind_ok drawn]
  by_cases isChange : choice ≤ 9
  · rw [if_pos isChange] at entered ⊢
    obtain ⟨pos, afterPos, drawnPos, entered⟩ := bind_eq_ok.mp entered
    obtain ⟨curItem, afterItem, found, entered⟩ := bind_eq_ok.mp entered
    cases entered
    cases isLoop
    refine ⟨fun newItem => pure (m.set pos newItem, maxRand), fun _ _ _ => ⟨_, _, rfl⟩, ?_⟩
    simp only [changeItem, bind_assoc, pure_bind]
    exact (bind_ok drawnPos).trans (bind_ok found)
  rw [if_neg isChange] at entered ⊢
  by_cases isInsert : choice ≤ 13
  · rw [if_pos isInsert] at entered ⊢
    cases entered
    cases isLoop
    refine ⟨fun newItem => below (m.size + 1) >>= fun pos => pure (m.insert pos [newItem], maxRand),
      fun _ _ _ => ⟨_, _, rfl⟩, ?_⟩
    simp only [insertWhitespace, bind_assoc, pure_bind]
    rfl
  rw [if_neg isInsert] at entered ⊢
  by_cases isSplice : choice ≤ 22
  · rw [if_pos isSplice] at entered
    cases entered
    cases isLoop
  rw [if_neg isSplice] at entered ⊢
  by_cases spare : autotokensSizeMin < m.size
  · rw [if_pos spare] at entered
    cases entered
    cases isLoop
    refine ⟨fun pos => pure (m.erase pos spare, maxRand), fun _ _ _ => ⟨_, _, rfl⟩, ?_⟩
    rw [eraseItem, dif_pos spare]
    rfl
  · rw [if_neg spare] at entered
    cases entered
    cases isLoop

/-- A round does not get past a loop that accepts nothing. -/
theorem mutate_of_not_offers {entry : Entry} {rest : List Nat}
    (entered : approach m maxRand choices = .ok (entry, rest)) {loop : Rejection}
    (isLoop : entry.loop state m = some loop) (rejects : ¬ loop.Offers) :
    mutate state m maxRand choices = .error .outOfChoices := by
  obtain ⟨finish, -, same⟩ := mutate_of_approach entered isLoop
  rw [same]
  exact bind_error (Rejection.run_of_not_offers rejects rest) finish

/-! ## Which loops can end -/

/-- No other id is on the side of the item. -/
def Alone (currentId item : Nat) : Prop :=
  (item = 0 ∧ currentId ≤ 1) ∨
    (whitespaceIds < item ∧ currentId ≤ whitespaceIds + 1) ∨
      (item = whitespaceIds + 1 ∧ currentId = whitespaceIds + 2)

instance (currentId item : Nat) : Decidable (Alone currentId item) :=
  inferInstanceAs (Decidable (_ ∨ _ ∨ _))

def AllWhitespace (m : Structure) : Prop := ∀ item ∈ m.items, item < whitespaceIds

theorem changeLoop_offers_iff (state : State) (curItem : Nat) :
    (changeLoop state curItem).Offers ↔ ¬ Alone state.table.currentId curItem := by
  have count : whitespaceIds = 12 := rfl
  simp only [Rejection.Offers, changeLoop, drawsAgain, Alone, count, Bool.not_eq_true',
    Bool.or_eq_false_iff, Bool.and_eq_false_iff, decide_eq_false_iff_not]
  constructor
  · rintro ⟨newItem, inside, accepted⟩
    omega
  · intro company
    -- The least other id on the side of the item.
    by_cases low : curItem ≤ 12
    · by_cases zero : curItem = 0
      · exact ⟨1, by omega, by omega⟩
      · exact ⟨0, by omega, by omega⟩
    · by_cases first : curItem = 13
      · exact ⟨14, by omega, by omega⟩
      · exact ⟨13, by omega, by omega⟩

theorem insertLoop_offers (state : State) : (insertLoop state).Offers :=
  ⟨0, Nat.zero_le _, rfl⟩

theorem getD_inside {items : List Nat} {pos : Nat} (inside : pos < items.length) :
    items.getD pos 0 = items[pos] := by
  rw [List.getD_eq_getElem?_getD, List.getElem?_eq_getElem inside, Option.getD_some]

theorem eraseLoop_offers_iff (m : Structure) : (eraseLoop m).Offers ↔ ¬ AllWhitespace m := by
  have size : 8 ≤ m.items.length := m.large
  simp only [Rejection.Offers, eraseLoop, AllWhitespace, decide_eq_true_eq, Structure.size]
  push Not
  constructor
  · rintro ⟨pos, inside, accepted⟩
    have bound : pos < m.items.length := by omega
    rw [getD_inside bound] at accepted
    exact ⟨m.items[pos], List.getElem_mem bound, accepted⟩
  · rintro ⟨item, member, solid⟩
    obtain ⟨pos, bound, rfl⟩ := List.getElem_of_mem member
    refine ⟨pos, by omega, ?_⟩
    rwa [getD_inside bound]

/-- The round enters a loop that accepts nothing: it changes an item that is alone on its side of
the table, or erases an item although all are whitespace. -/
def Entry.Stalls (currentId : Nat) (m : Structure) : Entry → Prop
  | .change curItem => Alone currentId curItem
  | .erase => AllWhitespace m
  | _ => False

def Entry.Offers (state : State) (m : Structure) (entry : Entry) : Prop :=
  ∀ loop, entry.loop state m = some loop → loop.Offers

theorem Entry.offers_iff (state : State) (m : Structure) (entry : Entry) :
    entry.Offers state m ↔ ¬ entry.Stalls state.table.currentId m := by
  unfold Entry.Offers
  cases entry with
  | change curItem => simpa [Entry.loop, Entry.Stalls] using changeLoop_offers_iff state curItem
  | insert => simpa [Entry.loop, Entry.Stalls] using insertLoop_offers state
  | splice => simp [Entry.loop, Entry.Stalls]
  | erase => simpa [Entry.loop, Entry.Stalls] using eraseLoop_offers_iff m
  | keep => simp [Entry.loop, Entry.Stalls]

/-! ## The rounds of a run -/

/-- The property holds in every round of the run, of the structure that the round meets. -/
def EachRound (state : State) (holds : Structure → Entry → Prop) (m : Structure) (maxRand : Nat) :
    Nat → List Nat → Prop
  | 0, _ => True
  | rounds + 1, choices =>
      (∀ entry rest, approach m maxRand choices = .ok (entry, rest) → holds m entry) ∧
        ∀ next rest, mutate state m maxRand choices = .ok (next, rest) →
          EachRound state holds next.1 next.2 rounds rest

theorem EachRound.iff_of {holds other : Structure → Entry → Prop}
    (same : ∀ m entry, holds m entry ↔ other m entry) :
    EachRound state holds m maxRand rounds choices ↔
      EachRound state other m maxRand rounds choices := by
  have equal : holds = other := funext fun m => funext fun entry => propext (same m entry)
  rw [equal]

theorem approach_steady (m : Structure) (maxRand : Nat) : Steady (approach m maxRand) := by
  refine Steady.bind (.below _) ?_
  intro choice
  refine Steady.ite ?_ (.ite (.pure _) (.ite (.pure _) (.ite (.pure _) (.pure _))))
  exact Steady.bind (.below _) fun _ => .bind (.fetch _) fun _ => .pure _

theorem splice_steady (state : State) (m : Structure) : Steady (splice state m) := by
  refine Steady.bind (.below _) ?_
  intro strategy
  refine Steady.bind (.below _) ?_
  intro index
  refine Steady.bind (.fetch _) ?_
  intro src
  refine Steady.bind (.below _) ?_
  intro srcOff
  refine Steady.ite ?_ ?_
  · refine Steady.bind (.below _) ?_
    intro dstOff
    refine Steady.bind (.below _) ?_
    intro span
    exact Steady.bind (.fetch _) fun _ => .pure _
  · refine Steady.bind (.below _) ?_
    intro dstOff
    refine Steady.bind (.below _) ?_
    intro span
    exact Steady.bind (.fetch _) fun _ => .fetch _

theorem mutate_steady (state : State) (m : Structure) (maxRand : Nat) :
    Steady (mutate state m maxRand) := by
  refine Steady.bind (.below _) ?_
  intro choice
  refine Steady.ite ?_ (.ite ?_ (.ite ?_ ?_))
  · refine Steady.bind ?_ fun _ => .pure _
    exact Steady.bind (.below _) fun _ => .bind (.fetch _) fun _ => .bind (.belowUntil _ _) fun _ =>
      .pure _
  · refine Steady.bind ?_ fun _ => .pure _
    exact Steady.bind (.belowUntil _ _) fun _ => .bind (.below _) fun _ => .pure _
  · exact Steady.bind (splice_steady state m) fun _ => .pure _
  · unfold eraseItem
    split
    · exact Steady.bind (.belowUntil _ _) fun _ => .pure _
    · exact Steady.pure _

/-- From a round that enters a loop that accepts nothing the call does not return, whatever is
drawn from there on. -/
theorem mutateLoop_stuck
    (stuck : ¬ EachRound state (fun m entry => entry.Offers state m) m maxRand rounds choices)
    (more : List Nat) :
    mutateLoop state m maxRand rounds (choices ++ more) = .error .outOfChoices := by
  induction rounds generalizing m maxRand choices with
  | zero => exact absurd trivial stuck
  | succ rounds ih =>
      by_cases offers : ∀ entry rest, approach m maxRand choices = .ok (entry, rest) →
          entry.Offers state m
      · have later : ¬ ∀ next rest, mutate state m maxRand choices = .ok (next, rest) →
            EachRound state (fun m entry => entry.Offers state m) next.1 next.2 rounds rest :=
          fun each => stuck ⟨offers, each⟩
        push Not at later
        obtain ⟨next, rest, mutated, stuckLater⟩ := later
        exact (bind_ok (mutate_steady state m maxRand _ _ _ mutated more)).trans (ih stuckLater)
      · unfold Entry.Offers at offers
        push Not at offers
        obtain ⟨entry, rest, entered, loop, isLoop, rejects⟩ := offers
        have stays := approach_steady m maxRand _ _ _ entered more
        exact bind_error (mutate_of_not_offers stays isLoop rejects) _

/-! ## A way into the loop from every structure -/

/-- Some rounds lead from the structure into a loop that accepts nothing. -/
def CanStall (state : State) (m : Structure) : Prop :=
  ∃ rounds choices, ¬ EachRound state (fun m entry => entry.Offers state m) m autotokensMutMax
    rounds choices

def solids (m : Structure) : Nat := m.items.countP (whitespaceIds ≤ ·)

theorem CanStall.of_round {next : Structure}
    (canStall : CanStall state next)
    (round : ∀ later, mutate state m autotokensMutMax (choices ++ later) =
      .ok ((next, autotokensMutMax), later)) : CanStall state m := by
  obtain ⟨rounds, later, stuck⟩ := canStall
  exact ⟨rounds + 1, choices ++ later, fun each => stuck (each.2 _ _ (round later))⟩

/-- A round that inserts a blank at the front. -/
theorem mutate_insert (state : State) (m : Structure) (rest : List Nat) :
    mutate state m autotokensMutMax ([10, 0, 0] ++ rest) =
      .ok ((m.insert 0 [0], autotokensMutMax), rest) := by
  have zero (limit : Nat) : (if limit ≤ 1 then 0 else 0 % limit) = 0 := by
    rw [Nat.zero_mod, ite_self]
  have drawn : belowUntil state.table.currentId (· < whitespaceIds) (0 :: 0 :: rest) =
      .ok (0, 0 :: rest) := by
    rw [belowUntil]
    simp only [zero]
    rfl
  have place : below (m.size + 1) (0 :: rest) = .ok (0, rest) := by
    rw [below, zero]
  have inserted : insertWhitespace state m (0 :: 0 :: rest) = .ok (m.insert 0 [0], rest) :=
    (bind_ok drawn).trans (bind_ok place)
  exact bind_ok inserted

/-- A round that erases an item that is no whitespace. -/
theorem mutate_erase (state : State) {m : Structure} {pos : Nat} (inside : pos < m.items.length)
    (solid : whitespaceIds ≤ m.items[pos]) (spare : autotokensSizeMin < m.size) (rest : List Nat) :
    mutate state m autotokensMutMax ([23, pos] ++ rest) =
      .ok ((m.erase pos spare, autotokensMutMax), rest) := by
  have size : m.size = m.items.length := rfl
  have drawn : belowUntil m.size (fun pos => whitespaceIds ≤ m.items.getD pos 0) (pos :: rest) =
      .ok (pos, rest) := by
    have large : ¬ m.size ≤ 1 := by
      have least : autotokensSizeMin = 8 := rfl
      omega
    rw [belowUntil]
    simp only [if_neg large, Nat.mod_eq_of_lt (size ▸ inside), getD_inside inside, solid,
      decide_true, if_true]
  have erased : eraseItem m autotokensMutMax (pos :: rest) =
      .ok ((m.erase pos spare, autotokensMutMax), rest) := by
    rw [eraseItem, dif_pos spare]
    exact bind_ok drawn
  exact erased

theorem canStall_of_allWhitespace (state : State) (blank : AllWhitespace m)
    (spare : autotokensSizeMin < m.size) : CanStall state m := by
  refine ⟨1, [23], fun each => ?_⟩
  have entered : approach m autotokensMutMax [23] = .ok (.erase, []) := by
    have erases : (if autotokensSizeMin < m.size then pure Entry.erase else pure Entry.keep :
        Draws Entry) = pure .erase := if_pos spare
    exact congrFun erases []
  exact (Entry.offers_iff state m .erase).mp (each.1 _ _ entered) blank

/-- The items that are no whitespace are erased, one after another. -/
theorem canStall_of_room (state : State) (m : Structure)
    (room : autotokensSizeMin + solids m < m.size) : CanStall state m := by
  induction count : solids m generalizing m with
  | zero =>
      refine canStall_of_allWhitespace state ?_ (by omega)
      intro item member
      have none := List.countP_eq_zero.mp count item member
      simpa using none
  | succ k ih =>
      have some : 0 < solids m := by omega
      obtain ⟨item, member, solid⟩ := List.countP_pos_iff.mp some
      obtain ⟨pos, inside, rfl⟩ := List.getElem_of_mem member
      have isSolid : whitespaceIds ≤ m.items[pos] := by simpa using solid
      have spare : autotokensSizeMin < m.size := by omega
      have fewer : solids m = solids (m.erase pos spare) + 1 := by
        unfold solids
        rw [← (List.getElem_cons_eraseIdx_perm inside).countP_eq]
        exact List.countP_cons_of_pos solid
      have shorter : (m.erase pos spare).size + 1 = m.size := by
        have length := List.length_eraseIdx_of_lt inside
        change (m.items.eraseIdx pos).length + 1 = m.items.length
        omega
      exact CanStall.of_round (ih (m.erase pos spare) (by omega) (by omega))
        (mutate_erase state inside isSolid spare)

/-- Blanks are inserted until there is room to erase all others. -/
theorem canStall (state : State) (m : Structure) : CanStall state m := by
  have insertable : ∀ missing (m : Structure), autotokensSizeMin + solids m < m.size + missing →
      CanStall state m := by
    intro missing
    induction missing with
    | zero => exact fun m room => canStall_of_room state m room
    | succ missing ih =>
        intro m room
        have longer : (m.insert 0 [0]).size = m.size + 1 := rfl
        have same : solids (m.insert 0 [0]) = solids m :=
          List.countP_cons_of_neg (by decide)
        exact CanStall.of_round (ih (m.insert 0 [0]) (by omega)) (mutate_insert state m)
  have atMost : solids m ≤ m.size := List.countP_le_length
  exact insertable (autotokensSizeMin + 1) m (by omega)

/-- In every run a loop that is entered can end if and only if the round does not change an item
that is alone on its side and does not erase from whitespace only; otherwise the call does not
return. No structure and no table is safe from it. -/
theorem mutateLoop_offers_iff (state : State) (m : Structure) :
    (∀ maxRand rounds choices,
      (EachRound state (fun m entry => entry.Offers state m) m maxRand rounds choices ↔
        EachRound state (fun m entry => ¬ entry.Stalls state.table.currentId m) m maxRand rounds
          choices) ∧
      (¬ EachRound state (fun m entry => entry.Offers state m) m maxRand rounds choices →
        ∀ more, mutateLoop state m maxRand rounds (choices ++ more) = .error .outOfChoices)) ∧
    ∃ rounds choices, ¬ EachRound state (fun m entry => entry.Offers state m) m autotokensMutMax
      rounds choices :=
  ⟨fun _ _ _ => ⟨EachRound.iff_of (Entry.offers_iff state), mutateLoop_stuck⟩, canStall state m⟩

/-- Six apostrophes, each in front of a linefeed. -/
def apostrophes : List UInt8 := (List.replicate 6 [apostrophe, newline]).flatten

def apostropheTokens : List Token := (List.replicate 6 [[apostrophe], [newline]]).flatten

def apostrophesCall : Call := ⟨aflOn apostrophes 0 noWords_lt, [0x31]⟩

def apostrophesState : State :=
  ((ready plainConfig apostrophesCall.afl initialState).countWhitespace apostrophes).storeTokens
    apostrophesCall.filename apostropheTokens

/-- The first round changes an apostrophe, and the table holds no other id above
`whitespace_ids`. -/
theorem aflCustomFuzz_stuck :
    runCalls plainConfig (aflCustomInit plainConfig) [apostrophesCall] [] =
      .ok (apostrophesState, []) ∧
    ∃ s, apostrophesState.s = some s ∧
      approach s autotokensMutMax [0, 0] = .ok (.change 13, []) ∧
      ¬ (changeLoop apostrophesState 13).Offers ∧
      ∀ more, aflCustomFuzz plainConfig 0 apostrophesState 65535 ([0, 0] ++ more) =
        .error .outOfChoices := by
  have called : aflCustomQueueGet plainConfig (aflCustomInit plainConfig) apostrophesCall [] =
      .ok (apostrophesState, []) :=
    aflCustomQueueGet_analyze rfl (by decide) (by decide) rfl (by decide) (by decide) []
  have rejects : ¬ (changeLoop apostrophesState 13).Offers := by
    rw [changeLoop_offers_iff, not_not]
    decide
  refine ⟨runCalls_cons called [], _, rfl, rfl, rejects, ?_⟩
  intro more
  refine bind_error (mutateLoop_stuck ?_ more) _
  intro each
  exact rejects (each.1 _ _ rfl _ rfl)

end SbFuzz.CustomMutators.Autotokens
