import SbFuzz.CustomMutators.AutotokensBijection
import SbFuzz.CustomMutators.Autotokens
import SbFuzz.CustomMutators.AutotokensTable

/-! In every state that is reached, the mutations of `autotokens` stay inside the structures. -/

set_option autoImplicit false

namespace SbFuzz.CustomMutators.Autotokens

open SbFuzz.Fuzzer SbFuzz.Systems SbFuzz.Systems.Draws

/-! ## The stored structures -/

/-- Every index that `splice` can draw has a structure, once there is a structure at all. -/
structure State.Mapped (state : State) : Prop where
  validStructures_lt : state.validStructures < 0x100000000
  mapped : ∀ k < state.validStructures, (state.idMapping k).isSome = true
  first : (state.idMapping 0).isSome = true ∨
    (state.s = none ∧ ∀ fn stored, state.fileMapping fn ≠ some (some stored))

namespace State.Mapped

variable {state : State}

theorem of_same (mapped : state.Mapped) {other : State}
    (count : other.validStructures = state.validStructures)
    (ids : other.idMapping = state.idMapping) (files : other.fileMapping = state.fileMapping)
    (selected : other.s = state.s) : other.Mapped := by
  constructor
  · rw [count]
    exact mapped.validStructures_lt
  · rw [count, ids]
    exact mapped.mapped
  · rw [ids, files, selected]
    exact mapped.first

/-- No structure is selected, or one that a file is mapped to. -/
theorem select (mapped : state.Mapped) {entry : Option Structure}
    (known : entry = none ∨ ∃ fn, state.fileMapping fn = some entry) :
    { state with s := entry }.Mapped := by
  refine ⟨mapped.validStructures_lt, mapped.mapped, ?_⟩
  rcases mapped.first with first | ⟨-, nothing⟩
  · exact .inl first
  · refine .inr ⟨?_, nothing⟩
    rcases known with none | ⟨fn, isMapped⟩
    · exact none
    · cases entry with
      | none => rfl
      | some stored => exact absurd isMapped (nothing fn stored)

theorem drawn (mapped : state.Mapped) (first : (state.idMapping 0).isSome = true) {index : Nat}
    (inside : index ≤ state.validStructures - 1) : (state.idMapping index).isSome = true := by
  by_cases positive : index < state.validStructures
  · exact mapped.mapped index positive
  · have zero : index = 0 := by omega
    rw [zero]
    exact first

theorem store (mapped : state.Mapped) (fn : FileName) (stored : Structure) :
    (state.store fn stored).Mapped := by
  have small := mapped.validStructures_lt
  have kept : ∀ k ≤ state.validStructures,
      ((state.store fn stored).idMapping k).isSome = true := by
    intro k inside
    change (Function.update state.idMapping state.validStructures (some stored) k).isSome = true
    by_cases same : k = state.validStructures
    · rw [same, Function.update_self]
      rfl
    · rw [Function.update_of_ne same]
      exact mapped.mapped k (by omega)
  refine ⟨Nat.mod_lt _ (by decide), ?_, .inl (kept 0 (Nat.zero_le _))⟩
  intro k inside
  have wrapped := Nat.mod_le (state.validStructures + 1) 0x100000000
  have next : (state.store fn stored).validStructures = u32 (state.validStructures + 1) := rfl
  rw [next, u32] at inside
  exact kept k (by omega)

theorem reject (mapped : state.Mapped) (fn : FileName) : (state.reject fn).Mapped := by
  refine ⟨mapped.validStructures_lt, mapped.mapped, ?_⟩
  rcases mapped.first with first | ⟨-, nothing⟩
  · exact .inl first
  · refine .inr ⟨rfl, ?_⟩
    intro other stored
    by_cases same : other = fn
    · subst same
      simp [State.reject]
    · simpa [State.reject, same] using nothing other stored

theorem storeTokens (mapped : state.Mapped) (fn : FileName) (tokens : List Token) :
    (state.storeTokens fn tokens).Mapped := by
  have interned : ∀ table : Table, { state with table := table }.Mapped :=
    fun _ => mapped.of_same rfl rfl rfl rfl
  unfold State.storeTokens
  split
  · exact (interned _).store fn _
  · exact mapped.reject fn

end State.Mapped

theorem Selected.mapped {config : Config} {afl : Afl} {fn : FileName} {started after : State}
    (selected : Selected config afl fn started after) (mapped : started.Mapped) :
    after.Mapped := by
  have learned : (learnDictionary config afl started).Mapped := by
    unfold learnDictionary
    split
    · exact mapped.of_same rfl rfl rfl rfl
    · exact mapped
  have isReady : (ready config afl started).Mapped := learned.of_same rfl rfl rfl rfl
  cases selected with
  | skipped => exact mapped.select (.inl rfl)
  | created noSkip thin stored => exact learned.store fn stored
  | found noSkip entry isMapped =>
      rw [← (ready_table config afl started).2] at isMapped
      exact isReady.select (.inr ⟨fn, isMapped⟩)
  | rejected => exact isReady.reject fn
  | analyzed noSkip tokens analyzes =>
      have counted : ((ready config afl started).countWhitespace (text config afl)).Mapped :=
        isReady.of_same rfl rfl rfl rfl
      exact counted.storeTokens fn tokens

theorem Stepped.mapped {config : Config} {state after : State} {call : Call}
    (stepped : Stepped config state call after) (mapped : state.Mapped) : after.Mapped := by
  obtain ⟨afl, started, entered, selected⟩ := stepped
  obtain ⟨-, extrasCnt, moduleDisabled, rfl⟩ := enter_cases entered
  exact selected.mapped (mapped.of_same rfl rfl rfl rfl)

theorem aflCustomInit_mapped (config : Config) : (aflCustomInit config).Mapped :=
  ⟨Nat.two_pow_pos 32, fun _ inside => absurd inside (Nat.not_lt_zero _),
    .inr ⟨rfl, fun _ _ => nofun⟩⟩

theorem runCalls_mapped (config : Config) (calls : List Call) (state : State)
    (mapped : state.Mapped) : Returns True State.Mapped (runCalls config state calls) := by
  induction calls generalizing state with
  | nil => exact Returns.pure mapped
  | cons call calls ih =>
      refine Returns.bind (aflCustomQueueGet_stepped config state call) ?_
      intro after stepped
      exact ih after (stepped.mapped mapped)

/-! ## The mutations -/

theorem Structure.size_ge (m : Structure) : 8 ≤ m.size := m.large

theorem Structure.slice_eq {src : Structure} {srcOff n : Nat} (inside : srcOff + n ≤ src.size) :
    ∃ items, src.slice srcOff n = some items ∧ items.length = n := by
  refine ⟨(src.items.drop srcOff).take n, if_pos inside, ?_⟩
  have length : src.size = src.items.length := rfl
  rw [List.length_take, List.length_drop]
  omega

theorem Structure.overwrite_isSome {m : Structure} {dstOff : Nat} {items : List Nat}
    (inside : dstOff + items.length ≤ m.size) :
    ∃ changed, m.overwrite dstOff items = some changed :=
  ⟨_, dif_pos inside⟩

/-- Every read and every write of `splice` is inside. -/
theorem splice_safe {state : State}
    (sources : ∀ k ≤ state.validStructures - 1, (state.idMapping k).isSome = true)
    (m : Structure) :
    Returns False (fun _ => True) (splice state m) := by
  have size := m.size_ge
  have spliceMin : autotokensSpliceMin = 4 := rfl
  have spliceMax : autotokensSpliceMax = 64 := rfl
  refine Returns.bind (Returns.below_any _) ?_
  intro strategy _
  refine Returns.bind (Returns.below_le _) ?_
  intro index inside
  obtain ⟨found, isFound⟩ := Option.isSome_iff_exists.mp (sources index inside)
  refine Returns.bind (Returns.fetch_eq isFound) ?_
  rintro src rfl
  have sizeSrc := src.size_ge
  refine Returns.bind (Returns.below (by omega)) ?_
  intro srcOff insideSrc
  refine Returns.ite ?_ ?_
  · intro _
    refine Returns.bind (Returns.below_any _) ?_
    intro dstOff _
    refine Returns.bind (Returns.below (by omega)) ?_
    intro extra few
    obtain ⟨items, isItems, -⟩ :=
      @Structure.slice_eq src srcOff (autotokensSpliceMin + extra) (by omega)
    refine Returns.bind (Returns.fetch_eq isItems) ?_
    intro _ _
    exact Returns.pure trivial
  · intro _
    refine Returns.bind (Returns.below (by omega)) ?_
    intro dstOff insideDst
    refine Returns.bind (Returns.below (by omega)) ?_
    intro extra few
    obtain ⟨sliced, isItems, length⟩ :=
      @Structure.slice_eq src srcOff (autotokensSpliceMin + extra) (by omega)
    refine Returns.bind (Returns.fetch_eq isItems) ?_
    rintro items rfl
    obtain ⟨changed, isChanged⟩ :=
      @Structure.overwrite_isSome m dstOff items (by omega)
    exact Returns.fetch isChanged trivial

theorem changeItem_safe (state : State) (m : Structure) :
    Returns False (fun _ => True) (changeItem state m) := by
  have size := m.size_ge
  refine Returns.bind (Returns.below (by omega)) ?_
  intro pos inside
  refine Returns.bind (Returns.fetch_lt inside) ?_
  intro curItem _
  exact Returns.bind (Returns.belowUntil _ _) fun _ _ => Returns.pure trivial

theorem insertWhitespace_safe (state : State) (m : Structure) :
    Returns False (fun _ => True) (insertWhitespace state m) := by
  refine Returns.bind (Returns.belowUntil _ _) ?_
  intro newItem _
  exact Returns.bind (Returns.below_any _) fun _ _ => Returns.pure trivial

theorem eraseItem_safe (m : Structure) (maxRand : Nat) :
    Returns False (fun _ => True) (eraseItem m maxRand) := by
  unfold eraseItem
  split
  · exact Returns.bind (Returns.belowUntil _ _) fun _ _ => Returns.pure trivial
  · exact Returns.pure trivial

theorem mutate_safe {state : State}
    (sources : ∀ k ≤ state.validStructures - 1, (state.idMapping k).isSome = true)
    (m : Structure) (maxRand : Nat) :
    Returns False (fun _ => True) (mutate state m maxRand) := by
  refine Returns.bind (Returns.below_any _) ?_
  intro choice _
  refine Returns.ite ?_ ?_
  · intro _
    exact Returns.bind (changeItem_safe state m) fun _ _ => Returns.pure trivial
  · intro _
    refine Returns.ite ?_ ?_
    · intro _
      exact Returns.bind (insertWhitespace_safe state m) fun _ _ => Returns.pure trivial
    · intro _
      refine Returns.ite ?_ ?_
      · intro _
        exact Returns.bind (splice_safe sources m) fun _ _ => Returns.pure trivial
      · intro _
        exact eraseItem_safe m maxRand

theorem mutateLoop_safe {state : State}
    (sources : ∀ k ≤ state.validStructures - 1, (state.idMapping k).isSome = true)
    (m : Structure) (maxRand rounds : Nat) :
    Returns False (fun _ => True) (mutateLoop state m maxRand rounds) := by
  induction rounds generalizing m maxRand with
  | zero => exact Returns.pure trivial
  | succ rounds ih =>
      refine Returns.bind (mutate_safe sources m maxRand) ?_
      intro next _
      exact ih next.1 next.2

/-! When the output of `autotokens` separates neighbours as its general rule says. -/

/-! ## The general rule -/

/-- Longer than one byte, and not whitespace. -/
def IsLong (table : Table) (id : Nat) : Prop :=
  1 < (table.idToToken id).length ∧ whitespaceIds ≤ id

/-- Whitespace, or one byte. -/
def Separates (table : Table) (id : Nat) : Prop :=
  id < whitespaceIds ∨ (table.idToToken id).length = 1

/-- The pieces are the tokens in turn, with at most one separator between neighbours, which is
there where both are long. -/
def Separated (table : Table) : List Nat → List Piece → Prop
  | [], [] => True
  | [item], [.token appended] => appended = item
  | item :: next :: items, .token appended :: .separator between :: pieces =>
      appended = item ∧ Separates table between ∧ Separated table (next :: items) pieces
  | item :: next :: items, .token appended :: .token other :: pieces =>
      appended = item ∧ ¬ (IsLong table item ∧ IsLong table next) ∧
        Separated table (next :: items) (.token other :: pieces)
  | _, _ => False

/-- The last two tokens are long. -/
def EndsLong (table : Table) : List Nat → Prop
  | [] => False
  | [_] => False
  | [item, last] => IsLong table item ∧ IsLong table last
  | _ :: next :: last :: items => EndsLong table (next :: last :: items)

section

variable {table : Table}

@[simp] theorem separated_single (item : Nat) : Separated table [item] [.token item] := rfl

@[simp] theorem separated_separator (item next between : Nat) (items : List Nat)
    (pieces : List Piece) :
    Separated table (item :: next :: items) (.token item :: .separator between :: pieces) ↔
      Separates table between ∧ Separated table (next :: items) pieces :=
  ⟨fun separated => separated.2, fun separated => ⟨rfl, separated⟩⟩

@[simp] theorem separated_token (item next : Nat) (items : List Nat) (pieces : List Piece) :
    Separated table (item :: next :: items) (.token item :: .token next :: pieces) ↔
      ¬ (IsLong table item ∧ IsLong table next) ∧
        Separated table (next :: items) (.token next :: pieces) :=
  ⟨fun separated => separated.2, fun separated => ⟨rfl, separated⟩⟩

@[simp] theorem not_endsLong_single (item : Nat) : ¬ EndsLong table [item] := fun ends => ends

@[simp] theorem endsLong_pair (item last : Nat) :
    EndsLong table [item, last] ↔ IsLong table item ∧ IsLong table last := Iff.rfl

@[simp] theorem endsLong_cons (item next last : Nat) (items : List Nat) :
    EndsLong table (item :: next :: last :: items) ↔ EndsLong table (next :: last :: items) :=
  Iff.rfl

end

/-! ## The loop -/

variable {crashes : Prop}

theorem goodWhitespaceOrSingleval_separates (state : State) :
    Returns crashes (Separates state.table) (goodWhitespaceOrSingleval state) := by
  refine Returns.bind (Returns.below_any _) ?_
  intro i _
  refine Returns.ite ?_ ?_
  · intro single
    exact Returns.pure (.inr single)
  · intro _
    refine Returns.bind (Returns.below_any _) ?_
    intro j _
    refine Returns.pure (.inl ?_)
    split
    · decide
    · split
      · decide
      · decide

/-- The loop behind a token: only the last two tokens can stand side by side against the rule. -/
theorem outputLoop_separated (state : State) (item : Nat) (items : List Nat) :
    Returns crashes
      (fun pieces => Separated state.table (item :: items) (.token item :: pieces) ↔
        ¬ EndsLong state.table (item :: items))
      (outputLoop state (state.table.idToToken item).length (item < whitespaceIds) items) := by
  induction items generalizing item with
  | nil => exact Returns.pure (by simp)
  | cons next items ih =>
      cases items with
      | nil => exact Returns.pure (by simp)
      | cons last items =>
          refine Returns.ite ?_ ?_
          · intro apart
            have allowed : ¬ (IsLong state.table item ∧ IsLong state.table next) := by
              rintro ⟨long, longNext⟩
              simp only [Bool.or_eq_true, decide_eq_true_eq] at apart
              unfold IsLong at long longNext
              omega
            refine Returns.bind (ih next) ?_
            intro pieces rest
            refine Returns.pure ?_
            rw [separated_token, endsLong_cons, ← rest]
            exact and_iff_right allowed
          · intro _
            refine Returns.bind (goodWhitespaceOrSingleval_separates state) ?_
            intro between separates
            refine Returns.bind (ih next) ?_
            intro pieces rest
            refine Returns.pure ?_
            rw [separated_separator, endsLong_cons, ← rest]
            exact and_iff_right separates

/-- There is no separator in front of the first token. -/
theorem outputLoop_start (state : State) (items : List Nat) :
    Returns crashes
      (fun pieces => Separated state.table items pieces ↔ ¬ EndsLong state.table items)
      (outputLoop state 1 true items) := by
  cases items with
  | nil => exact Returns.pure ⟨fun _ ends => ends, fun _ => trivial⟩
  | cons item items =>
      cases items with
      | nil => exact Returns.pure (by simp)
      | cons next items =>
          rw [outputLoop, if_pos (by simp)]
          refine Returns.bind (outputLoop_separated state item (next :: items)) ?_
          intro pieces rest
          exact Returns.pure rest

/-- In every state that is reached, `afl_custom_fuzz` stays inside its vectors. -/
theorem aflCustomFuzz_safe {config : Config} {calls : List Call} {choices rest : List Nat}
    {state : State} (reached : runCalls config (aflCustomInit config) calls choices =
      .ok (state, rest)) (cycles maxSize : Nat) :
    Returns False (fun _ => True) (aflCustomFuzz config cycles state maxSize) := by
  have mapped : state.Mapped :=
    (runCalls_mapped config calls _ (aflCustomInit_mapped config)).of_ok reached
  unfold aflCustomFuzz
  cases structured : state.s with
  | none => exact Returns.pure trivial
  | some s =>
      have first : (state.idMapping 0).isSome = true := by
        rcases mapped.first with first | ⟨empty, -⟩
        · exact first
        · rw [structured] at empty
          cases empty
      refine Returns.bind (mutateLoop_safe (fun _ inside => mapped.drawn first inside) s _ _) ?_
      intro m _
      refine Returns.bind (outputLoop_start state m.items) ?_
      intro pieces _
      exact Returns.pure trivial

theorem aflCustomFuzz_safe_semicolons :
    Returns False (fun _ => True) (aflCustomFuzz plainConfig 0 semicolonsState 100) :=
  aflCustomFuzz_safe (runCalls_cons (semicolons_called []) []) 0 100

/-- The output is made of the pieces, and they follow the rule exactly if the last two tokens of
the mutated structure are not both long. -/
theorem aflCustomFuzz_separated_iff (config : Config) (cycles : Nat) (state : State)
    (maxSize : Nat) :
    Returns True
      (fun result => ∀ fuzzed, result = some fuzzed →
        fuzzed.output = state.table.textOf fuzzed.pieces ∧
        (Separated state.table fuzzed.mutated.items fuzzed.pieces ↔
          ¬ EndsLong state.table fuzzed.mutated.items))
      (aflCustomFuzz config cycles state maxSize) := by
  unfold aflCustomFuzz
  cases state.s with
  | none => exact Returns.pure fun fuzzed same => by cases same
  | some s =>
      refine Returns.bind (Returns.any _) ?_
      intro m _
      refine Returns.bind (outputLoop_start state m.items) ?_
      intro pieces rule
      refine Returns.pure ?_
      intro fuzzed same
      cases same
      exact ⟨rfl, rule⟩

/-- `a;a;a;a"b"cc`. -/
def quoted : List UInt8 :=
  [0x61, 0x3b, 0x61, 0x3b, 0x61, 0x3b, 0x61, 0x22, 0x62, 0x22, 0x63, 0x63]

def quotedTokens : List Token :=
  [[0x61], [0x3b], [0x61], [0x3b], [0x61], [0x3b], [0x61], [0x22, 0x62, 0x22], [0x63, 0x63]]

def quotedCall : Call := ⟨aflOn quoted 0 noWords_lt, [0x31]⟩

def quotedState : State :=
  ((ready plainConfig quotedCall.afl initialState).countWhitespace quoted).storeTokens
    quotedCall.filename quotedTokens

/-- The draws of eight mutations that insert a blank at the front. -/
def frontBlanks : List Nat := (List.replicate 8 [10, 0, 0]).flatten

/-- The string `"b"` and the identifier `cc` at the end of the text stand side by side. -/
theorem aflCustomFuzz_unseparated :
    runCalls plainConfig (aflCustomInit plainConfig) [quotedCall] [] = .ok (quotedState, []) ∧
    ∃ fuzzed, aflCustomFuzz plainConfig 0 quotedState 65535 frontBlanks = .ok (some fuzzed, []) ∧
      fuzzed.mutated.items = List.replicate 8 0 ++ [14, 15, 14, 15, 14, 15, 14, 16, 17] ∧
      fuzzed.output = List.replicate 8 0x20 ++ quoted ∧
      ¬ Separated quotedState.table fuzzed.mutated.items fuzzed.pieces := by
  have called : aflCustomQueueGet plainConfig (aflCustomInit plainConfig) quotedCall [] =
      .ok (quotedState, []) :=
    aflCustomQueueGet_analyze rfl (by decide) (by decide) rfl (by decide) (by decide) []
  have long : IsLong quotedState.table 16 := ⟨by decide, by decide⟩
  have longLast : IsLong quotedState.table 17 := ⟨by decide, by decide⟩
  refine ⟨runCalls_cons called [], _, rfl, rfl, by decide, ?_⟩
  intro separated
  change Separated quotedState.table
    [0, 0, 0, 0, 0, 0, 0, 0, 14, 15, 14, 15, 14, 15, 14, 16, 17]
    (([0, 0, 0, 0, 0, 0, 0, 0, 14, 15, 14, 15, 14, 15, 14, 16, 17] : List Nat).map .token)
    at separated
  simp only [List.map_cons, separated_token, long, longLast, and_self, not_true_eq_false,
    false_and, and_false] at separated

end SbFuzz.CustomMutators.Autotokens
